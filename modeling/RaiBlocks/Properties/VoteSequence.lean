import RaiBlocks.Votes.VoteStore

/-!
# Sequence numbers of generated votes

The calls on the highest votes are meant to act on one map from accounts to
votes, `Highest`, of which the cache, the table and the transactions are an
implementation. They do as long as each call sees the newest vote of its
account: it is cached, or the transaction of the call sees the same row as the
newest table, to which the rows of a flush that has not committed belong.

`flush` empties the cache before its transaction commits. Between the two, and
later through a transaction that began before the commit, a call sees an older
vote, and a sequence number is given out twice.
-/

namespace RaiBlocks

open Foundation

/-! ## One map of votes -/

/-- The highest vote of each account. -/
abbrev Highest : Type := Account → Option Vote

/-- The event changes the vote of the account, or may do so. -/
def VoteEvent.Records (a : Account) : VoteEvent → Prop
  | .generated v => v.account = a
  | .passed v => v.account = a
  | _ => False

namespace Highest

/-- How the map answers and changes. -/
inductive Step : Highest → VoteEvent → Highest → Prop where
  | generated {σ : Highest} {v : Vote}
      (hseq : ∀ u, σ v.account = some u → u.sequence.toNat < v.sequence.toNat) :
      Step σ (.generated v) (Function.update σ v.account (some v))
  | passed {σ : Highest} {v : Vote} :
      Step σ (.passed v)
        (Function.update σ v.account (some (higherVote (σ v.account) v)))
  | reported {σ : Highest} {a : Account} : Step σ (.reported a (σ a)) σ
  | silent {σ : Highest} : Step σ .silent σ

inductive Run (σ₀ : Highest) : List VoteEvent → Highest → Prop where
  | start : Run σ₀ [] σ₀
  | step {h : List VoteEvent} {σ σ' : Highest} {e : VoteEvent} (hrun : Run σ₀ h σ)
      (hstep : Step σ e σ') : Run σ₀ (e :: h) σ'

variable {σ₀ σ σ' : Highest} {e : VoteEvent} {h : List VoteEvent}

theorem Step.mono (hstep : Step σ e σ') {a : Account} {x : Vote} (hx : σ a = some x) :
    ∃ y, σ' a = some y ∧ x.sequence.toNat ≤ y.sequence.toNat := by
  cases hstep with
  | @generated v hseq =>
    by_cases ha : a = v.account
    · subst ha
      exact ⟨v, Function.update_self .., (hseq x hx).le⟩
    · exact ⟨x, by rw [Function.update_of_ne ha, hx], le_rfl⟩
  | @passed v =>
    by_cases ha : a = v.account
    · subst ha
      exact ⟨_, Function.update_self .., higherVote_ge hx v⟩
    · exact ⟨x, by rw [Function.update_of_ne ha, hx], le_rfl⟩
  | reported => exact ⟨x, hx, le_rfl⟩
  | silent => exact ⟨x, hx, le_rfl⟩

/-- What a step records is not above the vote it leaves. -/
theorem Step.recorded (hstep : Step σ e σ') {u : Vote} (hu : e = .generated u ∨ e = .passed u) :
    ∃ y, σ' u.account = some y ∧ u.sequence.toNat ≤ y.sequence.toNat := by
  rcases hu with rfl | rfl
  · cases hstep with
    | generated => exact ⟨u, Function.update_self .., le_rfl⟩
  · cases hstep with
    | passed => exact ⟨_, Function.update_self .., le_higherVote _ u⟩

theorem Step.frame (hstep : Step σ e σ') {a : Account} (ha : ¬ e.Records a) : σ' a = σ a := by
  cases hstep with
  | generated => exact Function.update_of_ne (fun h => ha h.symm) ..
  | passed => exact Function.update_of_ne (fun h => ha h.symm) ..
  | reported => rfl
  | silent => rfl

/-- Over a run: every recorded vote is at most the one of its account. -/
theorem Run.recorded (hrun : Run σ₀ h σ) {u : Vote} (hu : .generated u ∈ h ∨ .passed u ∈ h) :
    ∃ y, σ u.account = some y ∧ u.sequence.toNat ≤ y.sequence.toNat := by
  induction hrun with
  | start => simp at hu
  | @step h σ σ' e hrun hstep ih =>
    have hcases : (e = .generated u ∨ e = .passed u) ∨ (.generated u ∈ h ∨ .passed u ∈ h) := by
      simp only [List.mem_cons] at hu
      rcases hu with (hu | hu) | (hu | hu)
      · exact Or.inl (Or.inl hu.symm)
      · exact Or.inr (Or.inl hu)
      · exact Or.inl (Or.inr hu.symm)
      · exact Or.inr (Or.inr hu)
    rcases hcases with hnew | hold
    · exact hstep.recorded hnew
    · obtain ⟨x, hx, hle⟩ := ih hold
      obtain ⟨y, hy, hxy⟩ := hstep.mono hx
      exact ⟨y, hy, hle.trans hxy⟩

/-- What has been reported and not recorded since is still the vote. -/
theorem Run.reported (hrun : Run σ₀ h σ) {l₁ l₂ : List VoteEvent} {a : Account} {r : Option Vote}
    (hh : h = l₁ ++ .reported a r :: l₂) (hl : ∀ e ∈ l₁, ¬ e.Records a) : σ a = r := by
  induction hrun generalizing l₁ with
  | start => simp at hh
  | @step h σ σ' e hrun hstep ih =>
    cases l₁ with
    | nil =>
      obtain ⟨rfl, rfl⟩ := List.cons.inj hh
      cases hstep with
      | reported => rfl
    | cons x l₁ =>
      obtain ⟨rfl, hh'⟩ := List.cons.inj hh
      rw [hstep.frame (hl e List.mem_cons_self)]
      exact ih hh' fun y hy => hl y (List.mem_cons_of_mem _ hy)

end Highest

/-! ## What callers rely on -/

/-- Every generated vote has a greater sequence number than all votes generated
or passed before for its account. -/
def Increasing (h : List VoteEvent) : Prop :=
  ∀ l₁ v l₂, h = l₁ ++ .generated v :: l₂ → ∀ u, .generated u ∈ l₂ ∨ .passed u ∈ l₂ →
    u.account = v.account → u.sequence.toNat < v.sequence.toNat

/-- Two reports of an account agree if its vote is not recorded between them,
whatever else happens, flushes included. -/
def Steady (h : List VoteEvent) : Prop :=
  ∀ l₁ l₂ l₃ a r r', h = l₁ ++ .reported a r' :: (l₂ ++ .reported a r :: l₃) →
    (∀ e ∈ l₂, ¬ e.Records a) → r' = r

theorem Highest.Run.increasing {σ₀ σ : Highest} {h : List VoteEvent} (hrun : Highest.Run σ₀ h σ) :
    Increasing h := by
  induction hrun with
  | start => intro l₁ v l₂ hh; simp at hh
  | @step h σ σ' e hrun hstep ih =>
    intro l₁ v l₂ hh u hu hacc
    cases l₁ with
    | nil =>
      obtain ⟨rfl, rfl⟩ := List.cons.inj hh
      obtain ⟨y, hy, hle⟩ := hrun.recorded hu
      cases hstep with
      | generated hseq => exact hle.trans_lt (hseq y (hacc ▸ hy))
    | cons x l₁ => exact ih l₁ v l₂ (List.cons.inj hh).2 u hu hacc

theorem Highest.Run.steady {σ₀ σ : Highest} {h : List VoteEvent} (hrun : Highest.Run σ₀ h σ) :
    Steady h := by
  induction hrun with
  | start => intro l₁ l₂ l₃ a r r' hh; simp at hh
  | @step h σ σ' e hrun hstep ih =>
    intro l₁ l₂ l₃ a r r' hh hl
    cases l₁ with
    | nil =>
      obtain ⟨rfl, hh'⟩ := List.cons.inj hh
      have hσ := hrun.reported hh' hl
      cases hstep with
      | reported => exact hσ
    | cons x l₁ => exact ih l₁ l₂ l₃ a r r' (List.cons.inj hh).2 hl

/-! ## The store as an implementation of the map -/

namespace VoteStore

/-- The newest table: of the write transaction, else the committed one. -/
def tip (s : VoteStore) : VoteTable := s.writer.getD s.vote

def latest (s : VoteStore) : Highest := fun a => (s.cache.get a).or (s.tip.get a)

/-- The account's vote is cached, or the transaction sees the newest row. -/
def Sees (s : VoteStore) (t : Txn) (a : Account) : Prop :=
  s.cache.get a ≠ none ∨ ∀ table, s.view t = some table → table.get a = s.tip.get a

/-- The call sees the newest vote of its account. -/
def Sighted (s : VoteStore) : VoteAction → Prop
  | .generate t a _ _ => s.Sees t a
  | .max t v => s.Sees t v.account
  | .current t a => s.Sees t a
  | _ => True

/-- A generated vote does not go past the last sequence number. -/
def Unexhausted (s : VoteStore) : VoteAction → Prop
  | .generate t a _ _ => ∀ table u, s.view t = some table →
      voteCurrent s.cache table a = some u → u.sequence.toNat < 2 ^ 64 - 1
  | _ => True

variable {s s' : VoteStore} {t : Txn} {a : Account} {table : VoteTable}

theorem Sees.voteCurrent_eq (hsees : s.Sees t a) (ht : s.view t = some table) :
    voteCurrent s.cache table a = s.latest a := by
  unfold voteCurrent latest
  rcases hsees with hcached | hrow
  · obtain ⟨v, hv⟩ := Option.ne_none_iff_exists'.mp hcached
    simp only [hv, Option.some_or]
  · rw [hrow table ht]

theorem latest_put (s : VoteStore) (v : Vote) :
    ({ s with cache := s.cache.put v } : VoteStore).latest =
      Function.update s.latest v.account (some v) := by
  funext a
  unfold latest
  rw [VoteTable.get_put]
  by_cases ha : a = v.account
  · subst ha
    simp
  · rw [if_neg ha, Function.update_of_ne ha]
    rfl

theorem nextSequence_gt {current : Option Vote} {u : Vote} (h : current = some u)
    (hlt : u.sequence.toNat < 2 ^ 64 - 1) : u.sequence.toNat < (nextSequence current).toNat := by
  subst h
  have hadd : (nextSequence (some u)).toNat = (u.sequence.toNat + 1) % 2 ^ 64 := BitVec.toNat_add ..
  rw [hadd, Nat.mod_eq_of_lt (by omega)]
  omega

/-- **Sighted actions act on the map.** Beginning and ending transactions, flushing
and committing leave it alone. -/
theorem step_refines {p : Env} {act : VoteAction} {e : VoteEvent}
    (hstep : s.step p act = some (s', e)) (hsighted : s.Sighted act)
    (hfits : s.Unexhausted act) : Highest.Step s.latest e s'.latest := by
  cases act with
  | beginRead n =>
    simp only [step] at hstep
    split_ifs at hstep
    obtain ⟨rfl, rfl⟩ := Prod.mk.inj (Option.some.inj hstep)
    exact .silent
  | endRead n =>
    obtain ⟨rfl, rfl⟩ := Prod.mk.inj (Option.some.inj hstep)
    exact .silent
  | beginWrite =>
    simp only [step] at hstep
    split_ifs at hstep with hw
    obtain ⟨rfl, rfl⟩ := Prod.mk.inj (Option.some.inj hstep)
    -- The new transaction starts with the committed table.
    have htip : s.tip = s.vote := by rw [tip, Option.isNone_iff_eq_none.mp hw]; rfl
    have hlatest : s.latest = ({ s with writer := some s.vote } : VoteStore).latest := by
      funext a
      unfold latest
      rw [htip]
      rfl
    rw [hlatest]
    exact .silent
  | flush =>
    cases hw : s.writer with
    | none => simp [step, hw] at hstep
    | some table =>
      simp only [step, hw] at hstep
      obtain ⟨rfl, rfl⟩ := Prod.mk.inj (Option.some.inj hstep)
      have hlatest : s.latest = ({ s with
          cache := .empty, writer := some (s.cache.above table) } : VoteStore).latest := by
        funext a
        simp [latest, tip, hw]
      rw [hlatest]
      exact .silent
  | commit =>
    cases hw : s.writer with
    | none => simp [step, hw] at hstep
    | some table =>
      simp only [step, hw] at hstep
      obtain ⟨rfl, rfl⟩ := Prod.mk.inj (Option.some.inj hstep)
      have hlatest : s.latest =
          ({ s with vote := table, writer := none } : VoteStore).latest := by
        funext a
        simp [latest, tip, hw]
      rw [hlatest]
      exact .silent
  | generate t a sign b =>
    cases ht : s.view t with
    | none => simp [step, ht] at hstep
    | some table =>
      simp only [step, ht] at hstep
      obtain ⟨rfl, rfl⟩ := Prod.mk.inj (Option.some.inj hstep)
      have hcurrent := Sees.voteCurrent_eq hsighted ht
      rw [show (voteGenerate p sign s.cache table a b).2 =
        s.cache.put (voteGenerate p sign s.cache table a b).1 from rfl, latest_put]
      refine .generated fun u hu => ?_
      have hu' : voteCurrent s.cache table a = some u := hcurrent.trans hu
      exact nextSequence_gt hu' (hfits table u ht hu')
  | max t v =>
    cases ht : s.view t with
    | none => simp [step, ht] at hstep
    | some table =>
      simp only [step, ht] at hstep
      obtain ⟨rfl, rfl⟩ := Prod.mk.inj (Option.some.inj hstep)
      have hcurrent := Sees.voteCurrent_eq hsighted ht
      rw [show (voteMax s.cache table v).2 = s.cache.put (voteMax s.cache table v).1 from rfl,
        latest_put, voteMax_account, voteMax, hcurrent]
      exact .passed
  | current t a =>
    cases ht : s.view t with
    | none => simp [step, ht] at hstep
    | some table =>
      simp only [step, ht] at hstep
      obtain ⟨rfl, rfl⟩ := Prod.mk.inj (Option.some.inj hstep)
      rw [Sees.voteCurrent_eq hsighted ht]
      exact .reported

theorem run_refines {p : Env} {s₀ : VoteStore} {h : List VoteEvent}
    (hrun : VoteRun p (fun s act => s.Unexhausted act ∧ s.Sighted act) s₀ h s) :
    Highest.Run s₀.latest h s.latest := by
  induction hrun with
  | start => exact .start
  | step hrun act hG hstep ih => exact ih.step (step_refines hstep hG.2 hG.1)

/-- **Sequence numbers increase while every call sees the newest vote.** In every
interleaving of transactions, flushes and calls in which no sequence number is
exhausted and each call finds the newest vote of its account in the cache or in
its snapshot, generated votes have increasing sequence numbers and no flush
changes what is reported. -/
theorem generated_increase (p : Env) (s₀ s : VoteStore) (h : List VoteEvent)
    (hrun : VoteRun p (fun s act => s.Unexhausted act ∧ s.Sighted act) s₀ h s) :
    Increasing h ∧ Steady h :=
  ⟨(run_refines hrun).increasing, (run_refines hrun).steady⟩

end VoteStore

namespace Flushed

def env : Env := ⟨fun _ => 0, fun _ _ _ => false, .raiTestNetwork, false⟩

def block : Block := .changeBlock ⟨⟨5, 7⟩, 0, 0⟩

/-- The vote of account 7 with the given sequence number. -/
def vote (n : Uint64) : Vote := .make env (fun _ => 0) 7 n block

def generate (n : ℕ) : VoteAction := .generate (.read n) 7 (fun _ => 0) block

/-- Nothing stored, no transaction open. -/
def start : VoteStore := ⟨.empty, .empty, fun _ => none, none⟩

/-- Generate, flush and commit, then generate in a new transaction. -/
def orderly : List VoteEvent :=
  [.generated (vote 2), .reported 7 (some (vote 1)), .silent, .silent, .silent,
    .generated (vote 1), .reported 7 none, .silent, .silent]

theorem orderly_run : ∃ s,
    VoteRun env (fun s act => s.Unexhausted act ∧ s.Sighted act) start orderly s := by
  have h : VoteRun env (fun s act => s.Unexhausted act ∧ s.Sighted act) start [] start := .start
  have h := h.step (.beginRead 0) ⟨trivial, trivial⟩ rfl
  have h := h.step .beginWrite ⟨trivial, trivial⟩ rfl
  have h := h.step (.current (.read 0) 7)
    ⟨trivial, Or.inr (by rintro table ⟨⟩; rfl)⟩ rfl
  have h := h.step (generate 0)
    ⟨by rintro table u ⟨⟩ ⟨⟩, Or.inr (by rintro table ⟨⟩; rfl)⟩ rfl
  have h := h.step .flush ⟨trivial, trivial⟩ rfl
  have h := h.step .commit ⟨trivial, trivial⟩ rfl
  have h := h.step (.beginRead 1) ⟨trivial, trivial⟩ rfl
  have h := h.step (.current (.read 1) 7)
    ⟨trivial, Or.inr (by rintro table ⟨⟩; rfl)⟩ rfl
  have h := h.step (generate 1)
    ⟨by rintro table u ⟨⟩ ⟨⟩; decide, Or.inr (by rintro table ⟨⟩; rfl)⟩ rfl
  exact ⟨_, h⟩

/-- Generate, then flush, and generate once more before the flush commits. -/
def overlapping : List VoteEvent :=
  [.generated (vote 1), .silent, .generated (vote 1), .silent, .silent]

theorem overlapping_run : ∃ s, VoteRun env VoteStore.Unexhausted start overlapping s := by
  have h : VoteRun env VoteStore.Unexhausted start [] start := .start
  have h := h.step (.beginRead 0) trivial rfl
  have h := h.step .beginWrite trivial rfl
  have h := h.step (generate 0) (by rintro table u ⟨⟩ ⟨⟩) rfl
  have h := h.step .flush trivial rfl
  have h := h.step (generate 0) (by rintro table u ⟨⟩ ⟨⟩) rfl
  exact ⟨_, h⟩

end Flushed

theorem generated_increase_orderly :
    (∃ s, VoteRun Flushed.env (fun s act => s.Unexhausted act ∧ s.Sighted act) Flushed.start
      Flushed.orderly s) ∧ Increasing Flushed.orderly ∧ Steady Flushed.orderly := by
  obtain ⟨s, hrun⟩ := Flushed.orderly_run
  exact ⟨⟨s, hrun⟩, VoteStore.generated_increase Flushed.env Flushed.start s _ hrun⟩

/-- A sequence number given out twice: the second call sees neither the cache
that the flush has emptied nor the table that it has not committed. -/
theorem sequence_given_twice :
    (∃ s, VoteRun Flushed.env VoteStore.Unexhausted Flushed.start Flushed.overlapping s) ∧
    ¬ Increasing Flushed.overlapping := by
  refine ⟨Flushed.overlapping_run, fun hincreasing => ?_⟩
  have hlt := hincreasing [] (Flushed.vote 1)
    [.silent, .generated (Flushed.vote 1), .silent, .silent] rfl (Flushed.vote 1)
    (Or.inl (by simp)) rfl
  exact absurd hlt (lt_irrefl _)

end RaiBlocks
