import RaiBlocks.Votes.Election

/-!
# What a quorum says

`have_quorum` compares the first key of the tally with the second plus
`node.delta ()`. The tally is a map from totals to blocks, so candidates with
equal totals share one entry, and the sum is taken modulo 2^128. The first part
says exactly when a quorum is a lead in exact arithmetic.

`confirm_if_quorum` confirms `status.winner`, which it replaces by the first
entry of the tally only if `online_weight_minimum` has voted. The second part
says exactly when the block it confirms is the one that has the quorum.
-/

namespace RaiBlocks

open Foundation Tied Ledger Election

/-! ## The lead -/

namespace Votes

/-- The greatest total of the candidates that do not lead, zero without one. -/
structure RunnerUp (w : Weights) (votes : Votes) (n : ℕ) : Prop where
  attained : n = 0 ∨ ∃ c, votes.Candidate c ∧ ¬ votes.Leads w c ∧ votes.total w.of c = n
  greatest : ∀ c, votes.Candidate c → ¬ votes.Leads w c → votes.total w.of c ≤ n

/-- `b` is ahead of every other candidate by more than `δ`. -/
def Ahead (w : Weights) (δ : ℕ) (votes : Votes) (b : Block) : Prop :=
  ∀ c, votes.Candidate c → c ≠ b → votes.total w.of c + δ < votes.total w.of b

/-- Adding `δ` to the total of a candidate behind the lead does not wrap, and if
several candidates share the lead then it is no larger than `δ`, or no larger
than `δ` over a candidate behind it. -/
def Unambiguous (w : Weights) (δ : ℕ) (votes : Votes) : Prop :=
  (∀ c, votes.Candidate c → ¬ votes.Leads w c → votes.total w.of c + δ < 2 ^ 128) ∧
  ((∃! b, votes.Leads w b) ∨ ∀ b, votes.Leads w b → votes.total w.of b ≤ δ ∨
    ∃ c, votes.Candidate c ∧ ¬ votes.Leads w c ∧ votes.total w.of b ≤ votes.total w.of c + δ)

variable {w : Weights} {votes : Votes} {b c : Block} {δ n : ℕ}

theorem Leads.total_eq (hb : votes.Leads w b) (hc : votes.Leads w c) :
    votes.total w.of b = votes.total w.of c :=
  le_antisymm (hc.2 b hb.1) (hb.2 c hc.1)

theorem Leads.total_lt (hb : votes.Leads w b) (hc : votes.Candidate c) (hnot : ¬ votes.Leads w c) :
    votes.total w.of c < votes.total w.of b := by
  refine lt_of_le_of_ne (hb.2 c hc) fun heq => hnot ⟨hc, fun d hd => ?_⟩
  rw [heq]
  exact hb.2 d hd

theorem Ahead.unique (hahead : votes.Ahead w δ b) (hb : votes.Leads w b) :
    ∃! b, votes.Leads w b := by
  refine ⟨b, hb, fun c hc => ?_⟩
  by_contra hne
  have hlt := hahead c hc.1 hne
  rw [hb.total_eq hc] at hlt
  omega

/-- The runner-up plus `δ` does not wrap if no candidate behind the lead does. -/
theorem RunnerUp.add_lt (hn : votes.RunnerUp w n) (hδ : δ < 2 ^ 128)
    (h : ∀ c, votes.Candidate c → ¬ votes.Leads w c → votes.total w.of c + δ < 2 ^ 128) :
    n + δ < 2 ^ 128 := by
  rcases hn.attained with rfl | ⟨c, hc, hnot, rfl⟩
  · omega
  · exact h c hc hnot

/-- The test on machine numbers, against the runner-up. -/
theorem ahead_of_lt_iff (hb : votes.Leads w b) (hn : votes.RunnerUp w n) (hδ : δ < 2 ^ 128) :
    ((n + δ) % 2 ^ 128 < votes.total w.of b → votes.Ahead w δ b) ↔ votes.Unambiguous w δ := by
  have hlt := votes.total_lt w b
  constructor
  · intro h
    have hnowrap : ∀ c, votes.Candidate c → ¬ votes.Leads w c →
        votes.total w.of c + δ < 2 ^ 128 := by
      intro c hc hnot
      by_contra hwrap
      -- After wrapping, the sum is less than the runner-up alone.
      have hc' := hn.greatest c hc hnot
      have hn' : n < votes.total w.of b := by
        rcases hn.attained with rfl | ⟨d, hd, hdnot, rfl⟩
        · exact (Nat.zero_le _).trans_lt (hb.total_lt hc hnot)
        · exact hb.total_lt hd hdnot
      have hmod : (n + δ) % 2 ^ 128 = n + δ - 2 ^ 128 := by
        rw [Nat.mod_eq_sub_mod (by omega)]
        exact Nat.mod_eq_of_lt (by omega)
      have hne : c ≠ b := by
        rintro rfl
        exact hnot hb
      have hahead := h (by omega) c hc hne
      omega
    refine ⟨hnowrap, ?_⟩
    have hmod : (n + δ) % 2 ^ 128 = n + δ := Nat.mod_eq_of_lt (hn.add_lt hδ hnowrap)
    by_cases hq : n + δ < votes.total w.of b
    · have hahead := h (by rwa [hmod])
      exact Or.inl (hahead.unique hb)
    · refine Or.inr fun x hx => ?_
      rw [hx.total_eq hb]
      rcases hn.attained with rfl | ⟨c, hc, hnot, rfl⟩
      · exact Or.inl (by omega)
      · exact Or.inr ⟨c, hc, hnot, by omega⟩
  · rintro ⟨hnowrap, htie⟩ hq c hc hne
    rw [Nat.mod_eq_of_lt (hn.add_lt hδ hnowrap)] at hq
    by_cases hlead : votes.Leads w c
    · rcases htie with hunique | hclose
      · exact absurd (hunique.unique hlead hb) hne
      · rcases hclose b hb with hle | ⟨d, hd, hnot, hle⟩
        · omega
        · have hd' := hn.greatest d hd hnot
          omega
    · have hc' := hn.greatest c hc hlead
      omega

end Votes

section HaveQuorum

variable {w : Weights} {order : Iteration} {votes : Votes} {b : Block}

/-- What `have_quorum` compares. -/
theorem haveQuorum_tally (δ : Uint128) {k : Uint128} {m : List (Uint128 × Block)}
    (h : tally w.of order votes = (k, b) :: m) :
    ∃ n, votes.RunnerUp w n ∧ haveQuorum δ (tally w.of order votes) =
      .ok (decide ((n + δ.toNat) % 2 ^ 128 < votes.total w.of b)) := by
  have hk : k.toNat = votes.total w.of b := toNat_key (by rw [h]; exact List.mem_cons_self)
  cases m with
  | nil =>
    refine ⟨0, ⟨Or.inl rfl, fun c hc hnot => absurd (tally_single h hc) hnot⟩, ?_⟩
    rw [h, haveQuorum, ← hk]
    simp only [gt_iff_lt, BitVec.lt_def, BitVec.toNat_add,
      show BitVec.toNat (0 : Uint128) = 0 from rfl]
  | cons second m =>
    obtain ⟨k', c⟩ := second
    obtain ⟨hc, hnot, hgreatest⟩ := tally_second h
    have hk' : k'.toNat = votes.total w.of c := toNat_key (by rw [h]; simp)
    refine ⟨votes.total w.of c, ⟨Or.inr ⟨c, hc, hnot, rfl⟩, hgreatest⟩, ?_⟩
    rw [h, haveQuorum, ← hk, ← hk']
    simp only [gt_iff_lt, BitVec.lt_def, BitVec.toNat_add]

/-- **A quorum is a real lead exactly for unambiguous totals.** For any votes,
weights and order of iteration: that the first entry of a tally with a quorum is
ahead of every other candidate by more than `node.delta ()`, in exact arithmetic,
holds if and only if no addition wraps and the lead is not shared above `delta`. -/
theorem quorum_ahead_iff (config : NodeConfig) (onlineStakeTotal : Uint128) (w : Weights)
    (order : Iteration) (votes : Votes) :
    (∀ k b m, tally w.of order votes = (k, b) :: m →
      haveQuorum (config.delta onlineStakeTotal) (tally w.of order votes) =
        .ok true → votes.Ahead w (config.delta onlineStakeTotal).toNat b) ↔
    votes.Unambiguous w (config.delta onlineStakeTotal).toNat := by
  obtain ⟨⟨k, b⟩, m, h⟩ : ∃ i m, tally w.of order votes = i :: m :=
    List.exists_cons_of_ne_nil tally_ne_nil
  obtain ⟨n, hn, hquorum⟩ := haveQuorum_tally (config.delta onlineStakeTotal) h
  rw [← Votes.ahead_of_lt_iff (tally_head h) hn (config.delta onlineStakeTotal).isLt]
  constructor
  · intro hall hlt
    exact hall k b m h (by rw [hquorum, decide_eq_true hlt])
  · rintro hlead k' b' m' h' hok
    obtain ⟨hhead, -⟩ := List.cons.inj (h.symm.trans h')
    obtain ⟨-, rfl⟩ := Prod.mk.inj hhead
    rw [hquorum] at hok
    exact hlead (of_decide_eq_true (Except.ok.inj hok))

end HaveQuorum

namespace Tied

def config : NodeConfig := ⟨1000, 50, by decide⟩

end Tied

/-- Two blocks with 600 each share the only entry of the tally: a quorum of 500,
and no lead. -/
theorem quorum_on_tie :
    haveQuorum (config.delta 0)
      (tally weights.of .plain votes) = .ok true ∧
    votes.Candidate (block 7) ∧ votes.Candidate (block 8) ∧ block 7 ≠ block 8 ∧
    votes.total weights.of (block 7) =
      votes.total weights.of (block 8) := by
  refine ⟨by decide +kernel, ⟨7, by decide +kernel⟩, ⟨8, by decide +kernel⟩, by decide, ?_⟩
  decide +kernel

/-- Near the top of the range the sum wraps: 300 against 200 passes for a quorum. -/
example : haveQuorum
    (NodeConfig.delta ⟨0, 100, by decide⟩ (BitVec.allOnes 128))
    (tally (Weights.pair 7 8 200 300 (by decide)).of .plain votes) = .ok true := by
  decide +kernel

/-! ## The confirmed block -/

namespace Election

/-- The first entry of the tally of the votes. -/
def first (m : Moment) (votes : Votes) : Option Block :=
  (tally m.weights.of m.order votes).head?.map Prod.snd

/-- `confirm_once` is reached, and the election is not confirmed yet. -/
def Confirms (p : Env) (config : NodeConfig) (e : Election) (m : Moment) (v : Vote) : Prop :=
  v.validate p = false ∧ e.counts p config m v = true ∧ e.confirmed = false ∧
  haveQuorum (config.delta m.onlineStakeTotal)
    (tally m.weights.of m.order (e.votes.vote v).1) = .ok true

/-- What the call passes to `process_confirmed` is the first entry of its tally. -/
def PassesFirst (p : Env) (config : NodeConfig) (e : Election) (m : Moment) (v : Vote) : Prop :=
  ∀ e' effects replay b, e.vote p config m v = .ok (e', effects, replay) →
    effects.processConfirmed = some b → first m (e.votes.vote v).1 = some b

/-- If the call confirms, then the different totals reach the minimum or the
first entry of the tally has been the winner before. -/
def Weighty (p : Env) (config : NodeConfig) (e : Election) (m : Moment) (v : Vote) : Prop :=
  e.Confirms p config m v →
    config.onlineWeightMinimum.toNat ≤ (e.votes.vote v).1.weighed m.weights.of ∨
    first m (e.votes.vote v).1 = some e.status.winner

/-- `P` holds at every call of a sequence of calls. A failed assertion ends it. -/
def Throughout (p : Env) (config : NodeConfig) (P : Election → Moment → Vote → Prop) :
    Election → List (Moment × Vote) → Prop
  | _, [] => True
  | e, (m, v) :: calls =>
    P e m v ∧ ∀ r, e.vote p config m v = .ok r → Throughout p config P r.1 calls

variable {p : Env} {config : NodeConfig} {e : Election} {m : Moment} {v : Vote}

/-- What is equivalent at every call is equivalent throughout. -/
theorem Throughout.congr {P Q : Election → Moment → Vote → Prop} (h : ∀ e m v, P e m v ↔ Q e m v)
    (calls : List (Moment × Vote)) : ∀ e, Throughout p config P e calls ↔
      Throughout p config Q e calls := by
  induction calls with
  | nil => exact fun _ => Iff.rfl
  | cons call calls ih =>
    obtain ⟨m, v⟩ := call
    intro e
    simp only [Throughout, h e m v]
    apply and_congr_right
    intro _
    exact forall₂_congr fun r _ => ih r.1

theorem switchWinner_winner (config : NodeConfig) (e : Election) (b : Block) (sum : Uint128) :
    (e.switchWinner config b sum).1.status.winner =
      if config.onlineWeightMinimum ≤ sum then b else e.status.winner := by
  unfold switchWinner
  by_cases hsum : config.onlineWeightMinimum ≤ sum
  · by_cases hb : b = e.status.winner
    · simp [hsum, hb]
    · simp [hsum, hb]
  · simp [hsum]

theorem switchWinner_confirmed (config : NodeConfig) (e : Election) (b : Block) (sum : Uint128) :
    (e.switchWinner config b sum).1.confirmed = e.confirmed := by
  unfold switchWinner
  split <;> rfl

/-- The block `confirm_if_quorum` passes on. -/
theorem confirmIfQuorum_passes {k : Uint128} {b : Block} {rest : List (Uint128 × Block)}
    (h : tally m.weights.of m.order e.votes = (k, b) :: rest) {q : Bool}
    (hq : haveQuorum (config.delta m.onlineStakeTotal) ((k, b) :: rest) = .ok q) :
    ∃ e' effects, e.confirmIfQuorum config m = .ok (e', effects) ∧ effects.processConfirmed =
      if q = true ∧ e.confirmed = false then
        some (if config.onlineWeightMinimum.toNat ≤ e.votes.weighed m.weights.of then b
          else e.status.winner)
      else none := by
  have hsum : config.onlineWeightMinimum ≤
      ((k, b) :: rest).foldl (fun sum i => sum + i.1) (0 : Uint128) ↔
        config.onlineWeightMinimum.toNat ≤ e.votes.weighed m.weights.of := by
    rw [← h, BitVec.le_def, sum_tally]
  unfold confirmIfQuorum
  rw [h]
  simp only [hq]
  generalize hs : switchWinner config _ b _ = s
  have hwinner := switchWinner_winner config { e with status.tally := k } b
    (((k, b) :: rest).foldl (fun sum i => sum + i.1) (0 : Uint128))
  have hconfirmed := switchWinner_confirmed config { e with status.tally := k } b
    (((k, b) :: rest).foldl (fun sum i => sum + i.1) (0 : Uint128))
  rw [hs] at hwinner hconfirmed
  simp only [hsum] at hwinner
  cases q with
  | false => exact ⟨s.1, ⟨s.2, none⟩, rfl, by simp⟩
  | true =>
    refine ⟨s.1.confirmOnce.1, ⟨s.2, s.1.confirmOnce.2⟩, rfl, ?_⟩
    by_cases hc : e.confirmed = true
    · simp [confirmOnce, hconfirmed, hc]
    · simp [confirmOnce, hconfirmed, hc, hwinner]

/-- One call: it returns unless the vote is invalid, and passes on the winner
after the switch exactly if it confirms. -/
theorem vote_passes (config : NodeConfig) (e : Election) (m : Moment)
    (hvalid : v.validate p = false) :
    ∃ b e' effects replay, first m (e.votes.vote v).1 = some b ∧
      e.vote p config m v = .ok (e', effects, replay) ∧
      (e.Confirms p config m v → effects.processConfirmed =
        some (if config.onlineWeightMinimum.toNat ≤ (e.votes.vote v).1.weighed m.weights.of then b
          else e.status.winner)) ∧
      (¬ e.Confirms p config m v → effects.processConfirmed = none) := by
  obtain ⟨⟨k, b⟩, rest, h⟩ : ∃ i l, tally m.weights.of m.order (e.votes.vote v).1 = i :: l :=
    List.exists_cons_of_ne_nil tally_ne_nil
  have hfirst : first m (e.votes.vote v).1 = some b := by rw [first, h]; rfl
  obtain ⟨n, -, hq⟩ := haveQuorum_tally (config.delta m.onlineStakeTotal) h
  generalize decide ((n + (config.delta m.onlineStakeTotal).toNat) % 2 ^ 128 <
    (e.votes.vote v).1.total m.weights.of b) = q at hq
  have hconfirms : e.Confirms p config m v ↔
      e.counts p config m v = true ∧ q = true ∧ e.confirmed = false := by
    rw [Confirms, hq]
    simp only [hvalid, Except.ok.injEq, true_and]
    exact and_congr_right fun _ => and_comm
  by_cases hcounts : e.counts p config m v = true
  · rw [h] at hq
    obtain ⟨e', effects, hrun, hpasses⟩ := confirmIfQuorum_passes (e := e.enter p m v) h hq
    refine ⟨b, e', effects, e.replays p config m v, hfirst, ?_, fun hc => ?_, fun hc => ?_⟩
    · simp only [vote, hvalid, Bool.not_false, assertThat_true, hcounts, if_true, hrun]
      rfl
    · exact hpasses.trans (if_pos (hconfirms.mp hc).2)
    · exact hpasses.trans (if_neg fun hc' => hc (hconfirms.mpr ⟨hcounts, hc'⟩))
  · refine ⟨b, e, Effects.none, e.replays p config m v, hfirst, ?_, fun hc => ?_, fun _ => rfl⟩
    · simp only [vote, hvalid, Bool.not_false, assertThat_true, hcounts]
      rfl
    · exact absurd (hconfirms.mp hc).1 hcounts

/-- One call passes on the first entry exactly if it is weighty. -/
theorem passesFirst_iff : e.PassesFirst p config m v ↔ e.Weighty p config m v := by
  by_cases hvalid : v.validate p = false
  · obtain ⟨b, e', effects, replay, hfirst, hrun, hyes, hno⟩ := vote_passes config e m hvalid
    constructor
    · intro hpasses hconfirms
      by_cases hmin : config.onlineWeightMinimum.toNat ≤ (e.votes.vote v).1.weighed m.weights.of
      · exact Or.inl hmin
      · exact Or.inr (hpasses e' effects replay _ hrun (by rw [hyes hconfirms, if_neg hmin]))
    · intro hweighty e₂ effects₂ replay₂ c hrun₂ hc
      obtain ⟨rfl, rfl, rfl⟩ : e' = e₂ ∧ effects = effects₂ ∧ replay = replay₂ := by
        simpa using Except.ok.inj (hrun.symm.trans hrun₂)
      by_cases hconfirms : e.Confirms p config m v
      · rw [hyes hconfirms, Option.some.injEq] at hc
        rcases hweighty hconfirms with hmin | hwinner
        · rwa [← hc, if_pos hmin]
        · have hb : b = e.status.winner := Option.some.inj (hfirst.symm.trans hwinner)
          rw [← hc, hb, ite_self]
          exact hwinner
      · rw [hno hconfirms] at hc
        cases hc
  · constructor
    · exact fun _ hconfirms => absurd hconfirms.1 hvalid
    · intro _ e₂ effects₂ replay₂ c hrun₂ _
      rw [Bool.not_eq_false] at hvalid
      simp [vote, hvalid, assertThat, bind, Except.bind] at hrun₂

/-- **Confirmed means won exactly where the weight suffices.** Over any sequence
of calls to `election::vote`, with weights, stake and clock that change from call
to call: every block passed to `process_confirmed` is the first entry of the tally
that had the quorum if and only if at every call that confirms the different totals
add up to `online_weight_minimum`, or that first entry is the winner already. -/
theorem confirmed_first_iff (p : Env) (config : NodeConfig) (e : Election)
    (calls : List (Moment × Vote)) :
    Throughout p config (PassesFirst p config) e calls ↔
      Throughout p config (Weighty p config) e calls :=
  Throughout.congr (fun _ _ _ => passesFirst_iff) calls e

end Election

namespace Underweight

def env : Env := ⟨fun _ => 0, fun _ _ _ => false, .raiLiveNetwork, false⟩

/-- One representative with 600, below the minimum of 1000. -/
def moment : Moment := ⟨.pair 7 8 600 0 (by decide), 0, 0, 0, .plain⟩

def election : Election := .start 1 (block 7)

/-- It votes for the other block. -/
def vote : Vote := ⟨1, block 8, 7, 0⟩

end Underweight

/-- The only vote with weight is for one block and the other one is confirmed. -/
theorem other_block_confirmed :
    (Underweight.election.vote Underweight.env config Underweight.moment Underweight.vote).map
      (fun r => r.2.1.processConfirmed) = .ok (some (block 7)) ∧
    first Underweight.moment (Underweight.election.votes.vote Underweight.vote).1 = some (block 8) ∧
    block 7 ≠ block 8 ∧ (block 7).root = (block 8).root := by
  refine ⟨by decide +kernel, by decide +kernel, by decide, by decide⟩

end RaiBlocks
