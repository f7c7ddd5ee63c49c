import RaiBlocks.Bootstrap.FrontierReq

/-!
# Two sides of a frontier request

Client and server move through their accounts in the same way: the cursor stands at the first
account after some number. The client judges every account it passes, the server leaves out old
accounts until it meets one that is not.
-/

namespace RaiBlocks

open Foundation Bootstrap

/-! ## The classification -/

namespace Frontiers

/-- A local account, seen from the peer's frontiers. -/
inductive Verdict where
  | inSync
  /-- A candidate for a push down to the given block. -/
  | push (endHash : BlockHash)
  | pull

/-- The verdict on the local account `row`. -/
def verdict (s : BlockStore) (remote : List (Account × BlockHash)) (row : Account × AccountInfo) :
    Verdict :=
  match remote.lookup row.1 with
  | none => .push 0
  | some latest =>
    if latest = row.2.head then .inSync
    else if s.blockExists latest then .push latest
    else .pull

/-- The pull for a frontier of the peer, if there is to be one. -/
def pullFor (s : BlockStore) (frontier : Account × BlockHash) : Option PullInfo :=
  match s.accountGet frontier.1 with
  | none => some { account := frontier.1, head := frontier.2, endHash := 0 }
  | some info =>
    if frontier.2 = info.head then none
    else if s.blockExists frontier.2 then none
    else some { account := frontier.1, head := frontier.2, endHash := info.head }

/-- The push targets so far, and what has been spent. -/
structure Pushes where
  cost : BitVec 64 := 0
  targets : List (BlockHash × BlockHash) := []
deriving DecidableEq

/-- A candidate is added if the cost is below the limit. -/
def Pushes.candidate (o : Pushes) (head endHash : BlockHash) : Pushes :=
  if o.cost < FrontierReqClient.bulkPushCostLimit then
    ⟨o.cost + if endHash = 0 then 2 else 1, o.targets ++ [(head, endHash)]⟩
  else o

/-- What a verdict adds to the targets and to the cost. -/
def Pushes.judge (o : Pushes) (head : BlockHash) : Verdict → Pushes
  | .inSync => o
  | .push endHash => o.candidate head endHash
  | .pull => { o with cost := o.cost + 5 }

/-- All candidates in the order of the local accounts. Zero is no account. -/
def pushes (s : BlockStore) (remote : List (Account × BlockHash)) : Pushes :=
  (rowsAfter s 0).foldl (fun o row => o.judge row.2.head (verdict s remote row)) {}

end Frontiers

namespace FrontierReqClient

open Frontiers

variable {s : BlockStore} {c c' : FrontierReqClient} {k b : Account} {row : Account × AccountInfo}
  {l : List (Account × AccountInfo)} {remote : List (Account × BlockHash)}

/-! ## The local accounts in order -/

theorem mem_rowsAfter {a : Account} {info : AccountInfo} :
    (a, info) ∈ rowsAfter s k ↔ s.accountGet a = some info ∧ k < a := by
  unfold rowsAfter
  rw [List.mem_filter, Table.mem_rows, decide_eq_true_eq]
  rfl

theorem pairwise_rowsAfter (s : BlockStore) (k : Account) :
    (rowsAfter s k).Pairwise fun x y => x.1 < y.1 := by
  refine List.Pairwise.filter _ ((Table.pairwise_rows s.accounts).imp ?_)
  intro x y h
  exact BitVec.lt_of_le_ne h.1 h.2

theorem filter_rowsAfter (h : k ≤ b) :
    (rowsAfter s k).filter (fun row => decide (b < row.1)) = rowsAfter s b := by
  unfold rowsAfter
  rw [List.filter_filter]
  refine List.filter_congr fun row _ => ?_
  by_cases hb : b < row.1
  · have hk : k < row.1 := Nat.lt_of_le_of_lt h hb
    simp [hb, hk]
  · simp [hb]

theorem rowsAfter_cons (h : rowsAfter s k = row :: l) : rowsAfter s row.1 = l ∧ k < row.1 := by
  have hmem : row ∈ rowsAfter s k := by
    rw [h]
    exact List.mem_cons_self
  have hk : k < row.1 := by
    obtain ⟨a, info⟩ := row
    exact (mem_rowsAfter.mp hmem).2
  have hsorted := pairwise_rowsAfter s k
  rw [h, List.pairwise_cons] at hsorted
  refine ⟨?_, hk⟩
  rw [← filter_rowsAfter (BitVec.le_of_lt hk), h, List.filter_cons_of_neg (by simp),
    List.filter_eq_self.mpr]
  intro y hy
  exact decide_eq_true (hsorted.1 y hy)

/-! ## The cursor -/

/-- The client stands at the first account after `k`. -/
structure At (s : BlockStore) (c : FrontierReqClient) (k : Account) : Prop where
  current : c.current = ((rowsAfter s k).head?.map Prod.fst).getD 0
  info : ∀ row ∈ (rowsAfter s k).head?, c.info = row.2

/-- What the client has added so far. -/
def pushed (c : FrontierReqClient) : Pushes := ⟨c.bulkPushCost, c.bulkPushTargets⟩

/-- The account after which `next` goes on. -/
theorem at_next (hk : k ≠ BitVec.allOnes 256) (hc : c.current = k) : At s (next s c) k := by
  have hfirst : s.latestBegin (c.current + 1) = (rowsAfter s k).head? := by
    unfold BlockStore.latestBegin Table.firstFrom rowsAfter
    rw [List.head?_filter]
    refine congrArg (List.find? · _) (funext fun row => ?_)
    rw [decide_eq_decide, hc]
    exact add_one_le_iff hk
  unfold next
  rw [hfirst]
  cases h : (rowsAfter s k).head? with
  | none => exact ⟨by rw [h]; rfl, fun row hrow => by rw [h] at hrow; cases hrow⟩
  | some row =>
    refine ⟨by rw [h]; rfl, fun row' hrow => ?_⟩
    rw [h] at hrow
    cases hrow
    rfl

theorem next_pushed : (next s c).pushed = c.pushed ∧ (next s c).pulls = c.pulls := by
  unfold next
  split <;> exact ⟨rfl, rfl⟩

theorem pushed_unsynced (c : FrontierReqClient) (head endHash : BlockHash) :
    (c.unsynced head endHash).pushed = c.pushed.candidate head endHash ∧
      (c.unsynced head endHash).pulls = c.pulls := by
  unfold unsynced Pushes.candidate pushed
  dsimp only
  split <;> exact ⟨rfl, rfl⟩

theorem unsynced_current (c : FrontierReqClient) (head endHash : BlockHash) :
    (c.unsynced head endHash).current = c.current := by
  unfold unsynced
  split <;> rfl

/-- At an account: what the client reads there, and where it is after `next`. -/
theorem At.cons (h : At s c k) (hl : rowsAfter s k = row :: l) :
    c.current = row.1 ∧ c.info = row.2 := by
  refine ⟨?_, h.info row ?_⟩
  · rw [h.current, hl]
    rfl
  · rw [hl]
    rfl

theorem At.nil (h : At s c k) (hl : rowsAfter s k = []) : c.current = 0 := by
  rw [h.current, hl]
  rfl

theorem ne_zero_of_lt {a : Account} (h : k < a) : a ≠ 0 := by
  rintro rfl
  exact Nat.not_lt_zero _ h

theorem compare_shared (hrow : s.accountGet row.1 = some row.2) (hinfo : c.info = row.2)
    (latest : BlockHash) (remote : List (Account × BlockHash)) :
    (compare s c row.1 latest).pulls = c.pulls ++ (pullFor s (row.1, latest)).toList ∧
      (compare s c row.1 latest).pushed =
        c.pushed.judge row.2.head (verdict s ((row.1, latest) :: remote) row) ∧
      (compare s c row.1 latest).current = c.current := by
  unfold compare pullFor verdict
  rw [List.lookup_cons_self, hrow, hinfo]
  dsimp only
  split
  · exact ⟨(List.append_nil _).symm, rfl, rfl⟩
  · split
    · obtain ⟨hpush, hpull⟩ := pushed_unsynced c row.2.head latest
      exact ⟨hpull.trans (List.append_nil _).symm, hpush, unsynced_current c _ _⟩
    · exact ⟨rfl, rfl, rfl⟩

theorem pullFor_unknown (hb : s.accountGet b = none) (latest : BlockHash) :
    pullFor s (b, latest) = some { account := b, head := latest, endHash := 0 } := by
  unfold pullFor
  rw [hb]

theorem verdict_absent (h : ∀ frontier ∈ remote, frontier.1 ≠ row.1) :
    verdict s remote row = .push 0 := by
  unfold verdict
  rw [List.lookup_eq_none_iff.mpr]
  intro frontier hmem
  simpa using (h frontier hmem).symm

/-- What a frontier of the peer says about local accounts above it does not
matter. -/
theorem verdict_cons {latest : BlockHash} (h : b < row.1) :
    verdict s ((b, latest) :: remote) row = verdict s remote row := by
  have hne : (row.1 == b) = false := beq_eq_false_iff_ne.mpr fun heq => Nat.lt_irrefl _ (heq ▸ h)
  unfold verdict
  rw [List.lookup_cons, hne]

/-- Accounts below every frontier are candidates for a push of the whole chain. -/
theorem foldl_judge_absent (hl : ∀ row ∈ l, row.1 < b)
    (hremote : ∀ frontier ∈ remote, b ≤ frontier.1) (o : Pushes) :
    l.foldl (fun o row => o.judge row.2.head (verdict s remote row)) o =
      l.foldl (fun o row => o.candidate row.2.head 0) o := by
  refine List.foldl_ext _ _ o fun o row hrow => ?_
  rw [verdict_absent]
  · rfl
  · intro frontier hmem heq
    exact Nat.lt_irrefl _ (Nat.lt_of_lt_of_le (heq ▸ hl row hrow) (hremote frontier hmem))

theorem At.congr {k' : Account} (h : At s c k) (hrows : rowsAfter s k' = rowsAfter s k) :
    At s c k' :=
  ⟨by rw [hrows]; exact h.current, by rw [hrows]; exact h.info⟩

theorem At.addPull (h : At s c k) (pull : PullInfo) : At s (c.addPull pull) k :=
  ⟨h.current, h.info⟩

/-- What the code does after the loop, by what the cursor shows. -/
theorem receivedFrontier_eq {c₁ : FrontierReqClient} (hb0 : b ≠ 0) (latest : BlockHash)
    (hrun : whileLoop .outOfFuel (fun c => decide (c.current ≠ 0) && decide (c.current < b))
      (skip s) (fuel s) c = .ok c₁)
    (hstop : c₁.current = 0 ∨ b ≤ c₁.current) :
    receivedFrontier s c b latest = .ok (if b = c₁.current then next s (compare s c₁ b latest)
      else c₁.addPull { account := b, head := latest, endHash := 0 }) := by
  unfold receivedFrontier
  rw [if_pos hb0, hrun, ok_bind]
  by_cases h0 : c₁.current = 0
  · rw [if_neg (not_not.mpr h0), if_neg (by rw [h0]; exact hb0)]
    rfl
  · rw [if_pos h0]
    by_cases heq : b = c₁.current
    · rw [if_pos heq, if_pos heq]
      rfl
    · have hlt : b < c₁.current := BitVec.lt_of_le_ne (hstop.resolve_left h0) heq
      rw [if_neg heq, if_neg heq, decide_eq_true hlt, assertThat_true, ok_bind]
      rfl

/-- If the first account is above `b`, all are. -/
theorem At.above (h : At s c k) (hb : b < c.current) : ∀ row ∈ rowsAfter s k, b < row.1 := by
  intro row hrow
  cases hrows : rowsAfter s k with
  | nil =>
    rw [hrows] at hrow
    cases hrow
  | cons first rest =>
    have hsorted := pairwise_rowsAfter s k
    rw [hrows, List.pairwise_cons] at hsorted
    rw [(h.cons hrows).1] at hb
    rw [hrows] at hrow
    rcases List.mem_cons.mp hrow with rfl | hrow
    · exact hb
    · exact Nat.lt_trans hb (hsorted.1 row hrow)

section Loops

variable (hmax : s.accountGet (BitVec.allOnes 256) = none)

include hmax

theorem rowsAfter_ne_max {row : Account × AccountInfo} (h : row ∈ rowsAfter s k) :
    row.1 ≠ BitVec.allOnes 256 := by
  intro heq
  obtain ⟨hrow, _⟩ := mem_rowsAfter.mp (show (row.1, row.2) ∈ rowsAfter s k from h)
  rw [heq, hmax] at hrow
  cases hrow

/-- The loops go on to the first account that `P` stops at. -/
theorem skip_loop {P : Account → Bool} {cond : FrontierReqClient → Bool}
    (hcond : ∀ c : FrontierReqClient, cond c = (decide (c.current ≠ 0) && P c.current))
    (h : At s c k) :
    ∃ c' k' l, whileLoop .outOfFuel cond (skip s) (fuel s) c = .ok c' ∧
      At s c' k' ∧ k ≤ k' ∧ rowsAfter s k = l ++ rowsAfter s k' ∧ (∀ row ∈ l, P row.1 = true) ∧
      (∀ row ∈ (rowsAfter s k').head?, P row.1 = false) ∧ c'.pulls = c.pulls ∧
      c'.pushed = l.foldl (fun o row => o.candidate row.2.head 0) c.pushed := by
  let I : ℕ → FrontierReqClient → Prop := fun n c₁ => ∃ k₁ l, At s c₁ k₁ ∧ k ≤ k₁ ∧
    (rowsAfter s k₁).length = n ∧ rowsAfter s k = l ++ rowsAfter s k₁ ∧
    (∀ row ∈ l, P row.1 = true) ∧ c₁.pulls = c.pulls ∧
    c₁.pushed = l.foldl (fun o row => o.candidate row.2.head 0) c.pushed
  have hstep : ∀ n c₁, I n c₁ → cond c₁ = true →
      ∃ n' c₂, skip s c₁ = .ok c₂ ∧ n' < n ∧ I n' c₂ := by
    rintro n c₁ ⟨k₁, l, hat, hle, hlen, hsplit, hl, hpulls, hpushed⟩ hgo
    rw [hcond, Bool.and_eq_true, decide_eq_true_eq] at hgo
    cases hrows : rowsAfter s k₁ with
    | nil => exact absurd (hat.nil hrows) hgo.1
    | cons row rest =>
      obtain ⟨hcurrent, hinfo⟩ := hat.cons hrows
      obtain ⟨hrest, hlt⟩ := rowsAfter_cons hrows
      have hne := rowsAfter_ne_max hmax (show row ∈ rowsAfter s k₁ by simp [hrows])
      obtain ⟨hpush, hpull⟩ := pushed_unsynced c₁ c₁.info.head 0
      obtain ⟨hpush', hpull'⟩ := next_pushed (s := s) (c := c₁.unsynced c₁.info.head 0)
      refine ⟨rest.length, _, rfl, by rw [← hlen, hrows]; simp, row.1, l ++ [row],
        at_next hne ((unsynced_current _ _ _).trans hcurrent),
        Nat.le_of_lt (Nat.lt_of_le_of_lt hle hlt), by rw [hrest], ?_, ?_, ?_, ?_⟩
      · rw [hsplit, hrows, hrest, List.append_assoc]
        rfl
      · intro y hy
        rcases List.mem_append.mp hy with hy | hy
        · exact hl y hy
        · rw [List.mem_singleton.mp hy, ← hcurrent]
          exact hgo.2
      · rw [hpull', hpull, hpulls]
      · rw [hpush', hpush, hpushed, hinfo, List.foldl_append]
        rfl
  have hstart : (rowsAfter s k).length ≤ fuel s := List.length_filter_le _ _
  have hloop : ∃ n' c', whileLoop .outOfFuel cond (skip s) (fuel s) c = .ok c' ∧ I n' c' ∧
      cond c' = false :=
    whileLoop_total hstep _ _ c hstart
      ⟨k, [], h, BitVec.le_refl k, rfl, rfl, List.forall_mem_nil _, rfl, rfl⟩
  obtain ⟨_, c', hrun, ⟨k', l, hat, hle, _, hsplit, hl, hpulls, hpushed⟩, hdone⟩ := hloop
  refine ⟨c', k', l, hrun, hat, hle, hsplit, hl, ?_, hpulls, hpushed⟩
  intro row hrow
  cases hrows : rowsAfter s k' with
  | nil =>
    rw [hrows] at hrow
    cases hrow
  | cons row' rest =>
    rw [hrows] at hrow
    cases hrow
    obtain ⟨hcurrent, _⟩ := hat.cons hrows
    obtain ⟨_, hlt⟩ := rowsAfter_cons hrows
    rw [hcond, hcurrent, decide_eq_true (ne_zero_of_lt hlt), Bool.true_and] at hdone
    exact hdone

/-- **One frontier.** The client goes on to the local accounts after that of the
frontier. -/
theorem receivedFrontier_spec (h : At s c k) {b : Account} (hb : k < b) (latest : BlockHash)
    {remote : List (Account × BlockHash)} (hremote : ∀ frontier ∈ remote, b < frontier.1) :
    ∃ c' l, receivedFrontier s c b latest = .ok c' ∧ At s c' b ∧
      rowsAfter s k = l ++ rowsAfter s b ∧ c'.pulls = c.pulls ++ (pullFor s (b, latest)).toList ∧
      c'.pushed = l.foldl (fun o row => o.judge row.2.head (verdict s ((b, latest) :: remote) row))
        c.pushed := by
  obtain ⟨c₁, k₁, l, hrun, hat, hle, hsplit, hl, hstop, hpulls, hpushed⟩ :=
    skip_loop hmax (P := fun a => decide (a < b)) (fun _ => rfl) h
  have hbelow : ∀ row ∈ l, row.1 < b := fun row hrow => of_decide_eq_true (hl row hrow)
  have hfrontiers : ∀ frontier ∈ (b, latest) :: remote, b ≤ frontier.1 := by
    intro frontier hmem
    rcases List.mem_cons.mp hmem with rfl | hmem
    · exact BitVec.le_refl _
    · exact BitVec.le_of_lt (hremote frontier hmem)
  have hjudged := (foldl_judge_absent (s := s) hbelow hfrontiers c.pushed).trans hpushed.symm
  have hcursor : c₁.current = 0 ∨ b ≤ c₁.current := by
    cases hrows : rowsAfter s k₁ with
    | nil => exact Or.inl (hat.nil hrows)
    | cons row rest =>
      have hnot := of_decide_eq_false (hstop row (by rw [hrows]; rfl))
      rw [(hat.cons hrows).1]
      exact Or.inr (BitVec.not_lt.mp hnot)
  rw [receivedFrontier_eq (ne_zero_of_lt hb) latest hrun hcursor]
  by_cases hb₁ : b = c₁.current
  · -- both sides know the account
    cases hrows : rowsAfter s k₁ with
    | nil => exact absurd (hb₁.trans (hat.nil hrows)) (ne_zero_of_lt hb)
    | cons row rest =>
      obtain ⟨hcurrent, hinfo⟩ := hat.cons hrows
      obtain ⟨hrest, _⟩ := rowsAfter_cons hrows
      obtain rfl : b = row.1 := hb₁.trans hcurrent
      have hrow : row ∈ rowsAfter s k₁ := by
        rw [hrows]
        exact List.mem_cons_self
      have hget := (mem_rowsAfter.mp (show (row.1, row.2) ∈ rowsAfter s k₁ from hrow)).1
      obtain ⟨hpull, hpush, hcur⟩ := compare_shared (c := c₁) hget hinfo latest remote
      obtain ⟨hpush', hpull'⟩ := next_pushed (s := s) (c := compare s c₁ row.1 latest)
      rw [if_pos hb₁]
      refine ⟨_, l ++ [row], rfl,
        at_next (rowsAfter_ne_max hmax hrow) (hcur.trans hcurrent), ?_, ?_, ?_⟩
      · rw [hsplit, hrows, hrest, List.append_assoc]
        rfl
      · rw [hpull', hpull, hpulls]
      · rw [hpush', hpush, List.foldl_append, hjudged]
        rfl
  · -- only the peer knows it
    have habove : ∀ row ∈ rowsAfter s k₁, b < row.1 := by
      rcases hcursor with h0 | hle
      · intro row hrow
        cases hrows : rowsAfter s k₁ with
        | nil =>
          rw [hrows] at hrow
          cases hrow
        | cons first rest =>
          exact absurd ((hat.cons hrows).1.symm.trans h0) (ne_zero_of_lt (rowsAfter_cons hrows).2)
      · exact hat.above (BitVec.lt_of_le_ne hle hb₁)
    have hunknown : s.accountGet b = none := by
      cases hget : s.accountGet b with
      | none => rfl
      | some info =>
        have hmem : (b, info) ∈ rowsAfter s k := mem_rowsAfter.mpr ⟨hget, hb⟩
        rw [hsplit] at hmem
        rcases List.mem_append.mp hmem with hmem | hmem
        · exact absurd (hbelow _ hmem) (Nat.lt_irrefl _)
        · exact absurd (habove _ hmem) (Nat.lt_irrefl _)
    have hafter : rowsAfter s b = rowsAfter s k₁ := by
      rw [← filter_rowsAfter (BitVec.le_of_lt hb), hsplit, List.filter_append,
        List.filter_eq_nil_iff.mpr, List.nil_append, List.filter_eq_self.mpr]
      · exact fun row hrow => decide_eq_true (habove row hrow)
      · intro row hrow
        simpa using BitVec.le_of_lt (hbelow row hrow)
    rw [if_neg hb₁, pullFor_unknown hunknown]
    refine ⟨_, l, rfl, (hat.congr hafter).addPull _, by rw [hsplit, hafter], ?_, hjudged.symm⟩
    rw [addPull, hpulls]
    rfl

/-- The zero account: what is left of the local accounts is pushed. -/
theorem receivedFrontier_zero (h : At s c k) (latest : BlockHash) :
    ∃ c', receivedFrontier s c 0 latest = .ok c' ∧ c'.promise = some false ∧ c'.pulls = c.pulls ∧
      c'.pushed = (rowsAfter s k).foldl (fun o row => o.judge row.2.head (verdict s [] row))
        c.pushed := by
  obtain ⟨c₁, k₁, l, hrun, hat, _, hsplit, _, hstop, hpulls, hpushed⟩ :=
    skip_loop hmax (P := fun _ => true) (fun _ => (Bool.and_true _).symm) h
  have hend : rowsAfter s k₁ = [] := by
    cases hrows : rowsAfter s k₁ with
    | nil => rfl
    | cons row rest => cases hstop row (by rw [hrows]; rfl)
  refine ⟨{ c₁ with promise := some false }, ?_, rfl, hpulls, ?_⟩
  · unfold receivedFrontier
    rw [if_neg (not_not.mpr rfl), hrun]
    rfl
  · rw [hsplit, hend, List.append_nil]
    exact hpushed

/-- **The whole exchange**, by induction on the frontiers. -/
theorem receive_spec (last : BlockHash) (remote : List (Account × BlockHash)) :
    ∀ {c k}, At s c k → (∀ frontier ∈ remote, k < frontier.1) →
    remote.Pairwise (fun x y => x.1 < y.1) →
    ∃ c', receive s c (remote ++ [(0, last)]) = .ok c' ∧ c'.promise = some false ∧
      c'.pulls = c.pulls ++ remote.filterMap (pullFor s) ∧
      c'.pushed = (rowsAfter s k).foldl
        (fun o row => o.judge row.2.head (verdict s remote row)) c.pushed := by
  induction remote with
  | nil =>
    intro c k h _ _
    obtain ⟨c', hrun, hpromise, hpulls, hpushed⟩ := receivedFrontier_zero hmax h last
    refine ⟨c', ?_, hpromise, ?_, hpushed⟩
    · rw [List.nil_append, receive, hrun]
      rfl
    · rw [hpulls]
      exact (List.append_nil _).symm
  | cons frontier remote ih =>
    intro c k h hk hsorted
    obtain ⟨b, latest⟩ := frontier
    rw [List.pairwise_cons] at hsorted
    have hb : k < b := hk _ List.mem_cons_self
    obtain ⟨c₁, l, hrun, hat, hsplit, hpulls, hpushed⟩ :=
      receivedFrontier_spec hmax h hb latest hsorted.1
    obtain ⟨c', hrest, hpromise, hpulls', hpushed'⟩ := ih hat hsorted.1 hsorted.2
    refine ⟨c', ?_, hpromise, ?_, ?_⟩
    · rw [List.cons_append, receive, hrun, ok_bind, if_neg (ne_zero_of_lt hb)]
      exact hrest
    · rw [hpulls', hpulls, List.append_assoc]
      cases hpull : pullFor s (b, latest) with
      | none => rw [List.filterMap_cons_none hpull]; rfl
      | some pull => rw [List.filterMap_cons_some hpull]; rfl
    · rw [hpushed', hpushed, hsplit, List.foldl_append]
      refine List.foldl_ext _ _ _ fun o row hrow => ?_
      have hlt : b < row.1 :=
        (mem_rowsAfter.mp (show (row.1, row.2) ∈ rowsAfter s b from hrow)).2
      rw [verdict_cons hlt]

end Loops

theorem at_start (s : BlockStore) : At s (start s) 0 := at_next (by decide) rfl

end FrontierReqClient

/-! ## The server -/

namespace FrontierReqServer

open Frontiers
open FrontierReqClient (At at_next rowsAfter_cons rowsAfter_ne_max ne_zero_of_lt)

/-- The account has changed lately enough for the request. -/
def IsYoung (age : BitVec 32) (now : BitVec 64) (info : AccountInfo) : Prop :=
  age = BitVec.allOnes 32 ∨ now - BitVec.ofNat 64 info.modified < age.setWidth 64

instance instDecidableIsYoung (age : BitVec 32) (now : BitVec 64) (info : AccountInfo) :
    Decidable (IsYoung age now info) :=
  inferInstanceAs (Decidable (_ ∨ _))

/-- The server's cursor as that of a client. Both move in the same way. -/
def asClient (c : FrontierReqServer) : FrontierReqClient := { current := c.current, info := c.info }

variable {s : BlockStore} {age : BitVec 32} {now : BitVec 64} {c : FrontierReqServer} {k : Account}

theorem asClient_next (s : BlockStore) (c : FrontierReqServer) :
    (next s c).asClient = FrontierReqClient.next s c.asClient := by
  have hcurrent : c.asClient.current = c.current := rfl
  unfold next FrontierReqClient.next
  rw [hcurrent]
  cases s.latestBegin (c.current + 1) with
  | none => rfl
  | some row => rfl

/-- Where the server goes depends on where `latest_begin` stands. -/
theorem next_congr {c c' : FrontierReqServer}
    (hfirst : s.latestBegin (c.current + 1) = s.latestBegin (c'.current + 1))
    (hinfo : c.info = c'.info) : next s c = next s c' := by
  unfold next
  rw [hfirst, hinfo]

/-! ## The loops -/

section Loops

variable (hmax : s.accountGet (BitVec.allOnes 256) = none)

include hmax

/-- At an account: what the server reads there, and where it is after `next`. -/
theorem At.next {row : Account × AccountInfo} {l : List (Account × AccountInfo)}
    (h : At s c.asClient k) (hrows : rowsAfter s k = row :: l) :
    c.current = row.1 ∧ c.info = row.2 ∧ row.1 ≠ 0 ∧ At s (next s c).asClient row.1 ∧
      rowsAfter s row.1 = l := by
  obtain ⟨hcurrent, hinfo⟩ := h.cons hrows
  obtain ⟨hrest, hlt⟩ := rowsAfter_cons hrows
  have hne := rowsAfter_ne_max hmax (show row ∈ rowsAfter s k by simp [hrows])
  refine ⟨hcurrent, hinfo, ne_zero_of_lt hlt, ?_, hrest⟩
  rw [asClient_next]
  exact at_next hne hcurrent

/-- `skip_old` leaves out the old accounts up to the first that is not. -/
theorem skip_loop {P : AccountInfo → Bool} (l : List (Account × AccountInfo)) :
    ∀ {c : FrontierReqServer} {k : Account} {n : ℕ}, At s c.asClient k → rowsAfter s k = l →
      l.length ≤ n → ∃ c' k', whileLoop Fault.outOfFuel
          (fun c : FrontierReqServer => decide (c.current ≠ 0) && P c.info)
          (fun c => .ok (FrontierReqServer.next s c)) n c = .ok c' ∧
        At s c'.asClient k' ∧ rowsAfter s k' = l.dropWhile fun row => P row.2 := by
  induction l with
  | nil =>
    intro c k n hat hrows _
    have hcurrent : c.current = 0 := hat.nil hrows
    refine ⟨c, k, whileLoop_done ?_ n, hat, hrows⟩
    rw [hcurrent]
    rfl
  | cons row l ih =>
    intro c k n hat hrows hn
    obtain ⟨hcurrent, hinfo, hne, hnext, hrest⟩ := At.next hmax hat hrows
    cases hP : P row.2 with
    | false =>
      refine ⟨c, k, whileLoop_done ?_ n, hat, ?_⟩
      · rw [hinfo, hP, Bool.and_false]
      · rw [hrows, List.dropWhile_cons_of_neg]
        simp [hP]
    | true =>
      obtain ⟨n, rfl⟩ : ∃ m, n = m + 1 := ⟨n - 1, by simp at hn; omega⟩
      obtain ⟨c', k', hrun, hat', hrows'⟩ := ih hnext hrest (Nat.le_of_succ_le_succ hn)
      refine ⟨c', k', ?_, hat', ?_⟩
      · rw [← hrun]
        refine whileLoop_step ?_ ?_ n
        · rw [hinfo, hP, hcurrent, Bool.and_true]
          exact decide_eq_true hne
        · rfl
      · rw [hrows', List.dropWhile_cons_of_pos]
        simp [hP]

/-- `send_next` sends all accounts that are left. -/
theorem send_loop (l : List (Account × AccountInfo)) :
    ∀ {c : FrontierReqServer} {k : Account} {n : ℕ} (sent : List (Account × BlockHash)),
      At s c.asClient k → rowsAfter s k = l → l.length ≤ n →
      ∃ c', whileLoop Fault.outOfFuel
          (fun x : FrontierReqServer × List (Account × BlockHash) => decide (x.1.current ≠ 0))
          (fun x => .ok (FrontierReqServer.next s x.1, x.2 ++ [(x.1.current, x.1.info.head)])) n
          (c, sent) = .ok (c', sent ++ l.map fun row => (row.1, row.2.head)) := by
  induction l with
  | nil =>
    intro c k n sent hat hrows _
    have hcurrent : c.current = 0 := hat.nil hrows
    refine ⟨c, ?_⟩
    rw [List.map_nil, List.append_nil]
    refine whileLoop_done ?_ n
    rw [hcurrent]
    rfl
  | cons row l ih =>
    intro c k n sent hat hrows hn
    obtain ⟨hcurrent, hinfo, hne, hnext, hrest⟩ := At.next hmax hat hrows
    obtain ⟨n, rfl⟩ : ∃ m, n = m + 1 := ⟨n - 1, by simp at hn; omega⟩
    obtain ⟨c', hrun⟩ := ih (sent ++ [(row.1, row.2.head)]) hnext hrest (Nat.le_of_succ_le_succ hn)
    refine ⟨c', ?_⟩
    rw [List.map_cons, List.append_cons, ← hrun]
    refine whileLoop_step ?_ ?_ n
    · rw [hcurrent]
      exact decide_eq_true hne
    · rw [hcurrent, hinfo]

end Loops

/-- The first account of the request, unless it is account 0. -/
theorem at_start {account : Account} (hzero : ¬ (account = 0 ∧ (s.accountGet 0).isSome)) :
    ∃ k, At s (next s ⟨account - 1, .zero⟩).asClient k ∧
      rowsAfter s k = s.accounts.rowsFrom (· ≤ ·) account := by
  by_cases haccount : account = 0
  · -- the number wraps, but without account 0 it makes no difference
    subst haccount
    have hrows : s.accounts.rowsFrom (· ≤ ·) (0 : Account) = rowsAfter s 0 := by
      refine List.filter_congr fun row hrow => ?_
      have hne : row.1 ≠ 0 := by
        intro hrow0
        refine hzero ⟨rfl, Option.isSome_iff_exists.mpr ⟨row.2, ?_⟩⟩
        rw [← hrow0]
        exact Table.mem_rows.mp hrow
      have hle : (0 : Account) ≤ row.1 := Nat.zero_le _
      rw [decide_eq_true hle, decide_eq_true (BitVec.lt_of_le_ne hle hne.symm)]
    have hfirst : s.latestBegin (0 - 1 + 1) = s.latestBegin (0 + 1) := by
      have hone : s.accounts.rowsFrom (· ≤ ·) (0 + 1 : Account) = rowsAfter s 0 :=
        List.filter_congr fun row _ => by
          rw [decide_eq_decide]
          exact add_one_le_iff (by decide)
      unfold BlockStore.latestBegin
      rw [← Table.head?_rowsFrom, ← Table.head?_rowsFrom, hone, ← hrows]
      rfl
    refine ⟨0, ?_, hrows.symm⟩
    have hnext : next s ⟨0 - 1, .zero⟩ = next s ⟨0, .zero⟩ := next_congr hfirst rfl
    rw [hnext, asClient_next]
    exact at_next (by decide) rfl
  · have hback : account - 1 + 1 = account := BitVec.sub_add_cancel account 1
    have hne : account - 1 ≠ BitVec.allOnes 256 := by
      intro h
      rw [h] at hback
      exact haccount (hback.symm.trans (by decide))
    refine ⟨account - 1, ?_, ?_⟩
    · rw [asClient_next]
      exact at_next hne rfl
    · refine List.filter_congr fun row _ => ?_
      rw [decide_eq_decide, ← add_one_le_iff hne, hback]

/-- A request from account 0 on, while there is an account 0, is answered with nothing. -/
theorem run_zero (hzero : (s.accountGet 0).isSome) : run s age now 0 = .ok [(0, 0)] := by
  obtain ⟨info, hinfo⟩ := Option.isSome_iff_exists.mp hzero
  have hcurrent : (next s ⟨0 - 1, .zero⟩).current = 0 := by
    have hwrap : (⟨0 - 1, .zero⟩ : FrontierReqServer).current + 1 = 0 := by decide
    unfold next
    rw [hwrap]
    cases hfirst : s.latestBegin 0 with
    | none => rfl
    | some row =>
      obtain ⟨-, -, hleast⟩ := Table.of_firstFrom_eq_some hfirst
      exact BitVec.le_zero_iff.mp (hleast hinfo (BitVec.le_refl 0))
  have hstart : start s age now 0 = .ok (next s ⟨0 - 1, .zero⟩) := by
    unfold start skipOld
    split
    · refine whileLoop_done ?_ _
      rw [hcurrent]
      rfl
    · rfl
  have hsend : sendAll s (next s ⟨0 - 1, .zero⟩) = .ok (next s ⟨0 - 1, .zero⟩, []) := by
    refine whileLoop_done ?_ _
    rw [hcurrent]
    rfl
  unfold run
  rw [hstart, ok_bind, hsend]
  rfl

/-- What the server writes: from the first young account on, all accounts. -/
theorem run_eq (hmax : s.accountGet (BitVec.allOnes 256) = none) {account : Account}
    (hzero : ¬ (account = 0 ∧ (s.accountGet 0).isSome)) :
    run s age now account = .ok (((s.accounts.rowsFrom (· ≤ ·) account).dropWhile
      fun row => !decide (IsYoung age now row.2)).map (fun row => (row.1, row.2.head)) ++
        [(0, 0)]) := by
  obtain ⟨k, hat, hrows⟩ := at_start (s := s) hzero
  have hfuel : (s.accounts.rowsFrom (· ≤ ·) account).length ≤ fuel s := List.length_filter_le _ _
  have hstart : ∃ c k, start s age now account = .ok c ∧ At s c.asClient k ∧
      rowsAfter s k = (s.accounts.rowsFrom (· ≤ ·) account).dropWhile
        fun row => !decide (IsYoung age now row.2) := by
    unfold start skipOld
    by_cases hage : age = BitVec.allOnes 32
    · rw [if_neg (not_not.mpr hage)]
      refine ⟨_, k, rfl, hat, ?_⟩
      have hyoung : ∀ row : Account × AccountInfo, (!decide (IsYoung age now row.2)) = false := by
        intro row
        have hrow : IsYoung age now row.2 := Or.inl hage
        rw [decide_eq_true hrow]
        rfl
      simp only [hyoung]
      rw [hrows]
      cases s.accounts.rowsFrom (· ≤ ·) account with
      | nil => rfl
      | cons row l => rfl
    · rw [if_pos hage]
      obtain ⟨c, k', hrun, hat', hrows'⟩ := skip_loop hmax (P := isOld age now) _ hat hrows hfuel
      refine ⟨c, k', hrun, hat',
        hrows'.trans (congrArg (List.dropWhile · _) (funext fun row => ?_))⟩
      rw [Bool.eq_iff_iff, Bool.not_eq_true', decide_eq_false_iff_not]
      unfold isOld IsYoung
      rw [decide_eq_true_eq, or_iff_right hage, BitVec.not_lt]
  obtain ⟨c, k', hstart, hat', hrows'⟩ := hstart
  have hlength := List.dropWhile_suffix (l := s.accounts.rowsFrom (· ≤ ·) account)
    fun row => !decide (IsYoung age now row.2)
  obtain ⟨c', hsend⟩ := send_loop hmax _ [] hat' hrows' (hlength.length_le.trans hfuel)
  unfold run
  rw [hstart, ok_bind, sendAll, hsend, List.nil_append]
  rfl

end FrontierReqServer

end RaiBlocks
