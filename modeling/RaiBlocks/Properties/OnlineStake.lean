import RaiBlocks.Votes.Election
import RaiBlocks.Votes.OnlineReps

/-!
# The stake that is online

A representative is online if it has been heard within the last five minutes. The entries of
`online_reps` are in the order of the time they were last heard, so that those that are too
old come first, and the total is the sum of the weights of the entries at all times. It is at
most the sum of all weights, so it does not overflow.
-/

namespace RaiBlocks

open Foundation RepLastHeardInfo

/-! ## What was heard -/

namespace OnlineCall

/-- When the call says that the account is online. -/
def heardAt (a : Account) : OnlineCall → Option ℕ
  | .vote rep now => if rep = a then some now else none
  | .recalculateStake => none

def time? : OnlineCall → Option ℕ
  | .vote _ now => some now
  | .recalculateStake => none

end OnlineCall

/-- When the account was last heard. -/
def lastHeard (calls : List OnlineCall) (a : Account) : Option ℕ :=
  calls.reverse.findSome? (OnlineCall.heardAt a)

/-- The calls are made one after the other. -/
def InOrder (calls : List OnlineCall) : Prop :=
  (calls.filterMap OnlineCall.time?).Pairwise (· ≤ ·)

/-- The time of the last vote. -/
def lastTime (calls : List OnlineCall) : ℕ :=
  (calls.filterMap OnlineCall.time?).getLast?.getD 0

theorem lastHeard_append (calls : List OnlineCall) (c : OnlineCall) (a : Account) :
    lastHeard (calls ++ [c]) a = (c.heardAt a).or (lastHeard calls a) := by
  rw [lastHeard, List.reverse_append, List.reverse_singleton, List.singleton_append,
    List.findSome?_cons]
  cases c.heardAt a with
  | none => rfl
  | some t => rfl

theorem mem_of_lastHeard {calls : List OnlineCall} {a : Account} {time : ℕ}
    (h : lastHeard calls a = some time) : OnlineCall.vote a time ∈ calls := by
  obtain ⟨c, hc, hheard⟩ := List.exists_of_findSome?_eq_some h
  rw [List.mem_reverse] at hc
  cases c with
  | vote rep now =>
    rw [OnlineCall.heardAt] at hheard
    split_ifs at hheard with hrep
    obtain rfl := Option.some.inj hheard
    exact hrep ▸ hc
  | recalculateStake => cases hheard

theorem lastTime_append_vote (calls : List OnlineCall) (rep : Account) (now : ℕ) :
    lastTime (calls ++ [OnlineCall.vote rep now]) = now := by
  rw [lastTime, List.filterMap_append]
  simp [OnlineCall.time?]

namespace InOrder

variable {calls : List OnlineCall} {c : OnlineCall} {rep : Account} {time now : ℕ}

theorem of_append (h : InOrder (calls ++ [c])) : InOrder calls := by
  rw [InOrder, List.filterMap_append] at h
  exact (List.pairwise_append.mp h).1

theorem le_of_mem (h : InOrder (calls ++ [OnlineCall.vote rep now]))
    (htime : time ∈ calls.filterMap OnlineCall.time?) : time ≤ now := by
  rw [InOrder, List.filterMap_append] at h
  exact (List.pairwise_append.mp h).2.2 time htime now List.mem_cons_self

theorem lastTime_le (h : InOrder (calls ++ [OnlineCall.vote rep now])) : lastTime calls ≤ now := by
  rw [lastTime]
  cases hlast : (calls.filterMap OnlineCall.time?).getLast? with
  | none => exact Nat.zero_le now
  | some time => exact h.le_of_mem (List.mem_of_getLast? hlast)

theorem le_of_vote {a : Account} (h : InOrder (calls ++ [OnlineCall.vote rep now]))
    (hmem : OnlineCall.vote a time ∈ calls ++ [OnlineCall.vote rep now]) : time ≤ now := by
  rcases List.mem_append.mp hmem with hmem | hmem
  · exact h.le_of_mem (List.mem_filterMap.mpr ⟨_, hmem, rfl⟩)
  · cases List.mem_singleton.mp hmem
    exact le_rfl

/-- An account that was heard at some time was last heard then or later. -/
theorem exists_lastHeard (h : InOrder calls) {a : Account}
    (hmem : OnlineCall.vote a time ∈ calls) :
    ∃ last, lastHeard calls a = some last ∧ time ≤ last := by
  induction calls using List.reverseRecOn with
  | nil => cases hmem
  | append_singleton calls c ih =>
    rw [lastHeard_append]
    cases hheard : c.heardAt a with
    | none =>
      refine ih h.of_append ?_
      rcases List.mem_append.mp hmem with hmem | hmem
      · exact hmem
      · obtain rfl := List.mem_singleton.mp hmem
        simp [OnlineCall.heardAt] at hheard
    | some last =>
      refine ⟨last, rfl, ?_⟩
      cases c with
      | recalculateStake => cases hheard
      | vote rep now =>
        rw [OnlineCall.heardAt] at hheard
        split_ifs at hheard
        obtain rfl := Option.some.inj hheard
        exact h.le_of_vote hmem

end InOrder

namespace OnlineReps

variable {l : List RepLastHeardInfo} {o : OnlineReps} {weight : Uint128} {now : ℕ}

/-! ## The total -/

/-- The sum of the weights of some entries. -/
def stakeOf (weight : Account → Uint128) (l : List RepLastHeardInfo) : ℕ :=
  (l.map fun x => (weight x.representative).toNat).sum

theorem stakeOf_lt (w : Weights) (h : (l.map representative).Nodup) : stakeOf w.of l < 2 ^ 128 := by
  have hsum := w.bounded (l.map representative).toFinset
  rw [List.sum_toFinset _ h, List.map_map] at hsum
  exact hsum

theorem stakeOf_congr {weight : Account → Uint128} {l' : List RepLastHeardInfo}
    (h : (l.map representative).Perm (l'.map representative)) :
    stakeOf weight l = stakeOf weight l' := by
  have hsum := (h.map fun a => (weight a).toNat).sum_eq
  rwa [List.map_map, List.map_map] at hsum

/-- The total is right, and no branch has been taken that makes it wrong. -/
def Exact (weight : Account → Uint128) (o : OnlineReps) : Prop :=
  o.onlineStakeTotal.toNat = stakeOf weight o.reps.entries ∧ o.clamped = false

theorem subtract_eq (h : weight.toNat ≤ o.onlineStakeTotal.toNat) :
    o.subtract weight = { o with onlineStakeTotal := o.onlineStakeTotal - weight } ∧
      (o.onlineStakeTotal - weight).toNat = o.onlineStakeTotal.toNat - weight.toNat := by
  have hsub : (o.onlineStakeTotal - weight).toNat = o.onlineStakeTotal.toNat - weight.toNat :=
    BitVec.toNat_sub_of_le (BitVec.le_def.mpr h)
  refine ⟨if_neg ?_, hsub⟩
  rw [BitVec.lt_def, hsub]
  omega

theorem add_eq (h : o.onlineStakeTotal.toNat + weight.toNat < 2 ^ 128) :
    o.add weight = { o with onlineStakeTotal := o.onlineStakeTotal + weight } ∧
      (o.onlineStakeTotal + weight).toNat = o.onlineStakeTotal.toNat + weight.toNat := by
  have hadd : (o.onlineStakeTotal + weight).toNat = o.onlineStakeTotal.toNat + weight.toNat :=
    BitVec.toNat_add_of_lt h
  refine ⟨if_neg ?_, hadd⟩
  rw [BitVec.lt_def, hadd]
  omega

/-! ## Old entries -/

section Steps

variable {weight : Account → Uint128} {n : ℕ} {x : RepLastHeardInfo} {rest : List RepLastHeardInfo}

theorem evict_of_nil (h : o.reps.entries = []) : evict weight now n o = o := by
  cases n with
  | zero => rfl
  | succ n => rw [evict, h, List.head?_nil]

theorem evict_of_recent (h : o.reps.entries = x :: rest) (hx : ¬ x.lastHeard + nodeCutoff < now) :
    evict weight now n o = o := by
  cases n with
  | zero => rfl
  | succ n =>
    rw [evict, h, List.head?_cons]
    exact if_neg hx

theorem evict_of_old (h : o.reps.entries = x :: rest) (hx : x.lastHeard + nodeCutoff < now)
    (hexact : Exact weight o) :
    ∃ o', evict weight now (n + 1) o = evict weight now n o' ∧ Exact weight o' ∧
      o'.reps.entries = rest := by
  have hstake : stakeOf weight o.reps.entries =
      (weight x.representative).toNat + stakeOf weight rest := by
    rw [h]
    rfl
  have hle : (weight x.representative).toNat ≤ o.onlineStakeTotal.toNat := by
    rw [hexact.1, hstake]
    exact Nat.le_add_right ..
  obtain ⟨hsub, htotal⟩ := subtract_eq hle
  have htail : o.reps.tail.entries = rest := congrArg List.tail h
  refine ⟨{ o with onlineStakeTotal := o.onlineStakeTotal - weight x.representative,
                   reps := o.reps.tail }, ?_, ⟨?_, hexact.2⟩, htail⟩
  · rw [evict, h, List.head?_cons]
    exact (if_pos hx).trans (by rw [hsub])
  · rw [htail, htotal, hexact.1, hstake]
    exact Nat.add_sub_cancel_left ..

theorem evict_spec (now n : ℕ) (hexact : Exact weight o)
    (hlen : o.reps.entries.length ≤ n) :
    Exact weight (evict weight now n o) ∧
      (evict weight now n o).reps.entries =
        o.reps.entries.dropWhile fun x => x.lastHeard + nodeCutoff < now := by
  induction n generalizing o with
  | zero =>
    have hnil : o.reps.entries = [] := List.eq_nil_of_length_eq_zero (Nat.le_zero.mp hlen)
    rw [evict_of_nil hnil, hnil]
    exact ⟨hexact, rfl⟩
  | succ n ih =>
    cases hentries : o.reps.entries with
    | nil =>
      rw [evict_of_nil hentries, hentries]
      exact ⟨hexact, rfl⟩
    | cons x rest =>
      by_cases hold : x.lastHeard + nodeCutoff < now
      · obtain ⟨o', hstep, hexact', hrest⟩ := evict_of_old (n := n) hentries hold hexact
        rw [hentries, List.length_cons] at hlen
        rw [hstep, List.dropWhile_cons_of_pos (by simpa using hold), ← hrest]
        exact ih hexact' (by rw [hrest]; omega)
      · rw [evict_of_recent hentries hold, hentries,
          List.dropWhile_cons_of_neg (by simpa using hold)]
        exact ⟨hexact, rfl⟩

end Steps

/-! ## Votes -/

/-- What holds after a vote at the time `t`, with the times at which the accounts were last
heard. -/
structure Inv (weight : Account → Uint128) (heard : Account → Option ℕ) (t : ℕ)
    (o : OnlineReps) : Prop where
  exact : Exact weight o
  mem_iff : ∀ x, x ∈ o.reps.entries ↔
    heard x.representative = some x.lastHeard ∧ t ≤ x.lastHeard + nodeCutoff

variable {w : Weights} {heard : Account → Option ℕ} {t : ℕ}

theorem Inv.evict (h : Inv w.of heard t o) (hnow : t ≤ now) :
    Inv w.of heard now (evict w.of now o.reps.entries.length o) := by
  obtain ⟨hexact, hentries⟩ := evict_spec now o.reps.entries.length h.exact le_rfl
  refine ⟨hexact, fun x => ?_⟩
  have hkey : (fun x : RepLastHeardInfo => decide (x.lastHeard + nodeCutoff < now)) =
      fun x => decide (x.lastHeard < now - nodeCutoff) := by
    funext x
    exact decide_eq_decide.mpr (by omega)
  rw [hentries, hkey, Index.mem_dropWhile_iff o.reps.sorted, h.mem_iff]
  constructor
  · rintro ⟨⟨hheard, -⟩, hrecent⟩
    exact ⟨hheard, by omega⟩
  · rintro ⟨hheard, hrecent⟩
    exact ⟨⟨hheard, by omega⟩, by omega⟩

/-- The account that votes is heard now. -/
def hear (heard : Account → Option ℕ) (rep : Account) (now : ℕ) (a : Account) : Option ℕ :=
  if rep = a then some now else heard a

theorem Inv.vote (h : Inv w.of heard t o) (rep : Account) (hnow : t ≤ now) :
    Inv w.of (hear heard rep now) now (o.vote w.of rep now) := by
  have hevict := h.evict hnow
  rw [OnlineReps.vote]
  generalize OnlineReps.evict w.of now o.reps.entries.length o = o at hevict ⊢
  -- in both cases the entries are the others and the new one
  have hmem : ∀ x : RepLastHeardInfo,
      (x = ⟨now, rep⟩ ∨ x ∈ o.reps.entries ∧ x.representative ≠ rep) ↔
        hear heard rep now x.representative = some x.lastHeard ∧
          now ≤ x.lastHeard + nodeCutoff := by
    intro x
    by_cases hrep : rep = x.representative
    · rw [hear, if_pos hrep]
      constructor
      · rintro (rfl | ⟨-, hne⟩)
        · exact ⟨rfl, Nat.le_add_right ..⟩
        · exact absurd hrep.symm hne
      · rintro ⟨htime, -⟩
        left
        obtain ⟨time, representative⟩ := x
        obtain rfl := Option.some.inj htime
        obtain rfl : rep = representative := hrep
        rfl
    · rw [hear, if_neg hrep, ← hevict.mem_iff]
      constructor
      · rintro (rfl | ⟨hx, -⟩)
        · exact absurd rfl hrep
        · exact hx
      · exact fun hx => Or.inr ⟨hx, Ne.symm hrep⟩
  cases hfind : o.reps.find? rep with
  | none =>
    have hnew : rep ∉ o.reps.entries.map representative :=
      Index.find?_eq_none_iff.mp hfind
    have hperm := Index.perm_insert (t := o.reps) (x := ⟨now, rep⟩) hnew
    have hstake : stakeOf w.of (o.reps.insert ⟨now, rep⟩).entries =
        o.onlineStakeTotal.toNat + (w.of rep).toNat := by
      rw [stakeOf_congr (hperm.map _), hevict.exact.1, Nat.add_comm]
      rfl
    have hlt := stakeOf_lt w (o.reps.insert ⟨now, rep⟩).unique
    rw [hstake] at hlt
    obtain ⟨hadd, htotal⟩ := add_eq hlt
    simp only [hadd]
    refine ⟨⟨htotal.trans hstake.symm, hevict.exact.2⟩, fun x => ?_⟩
    rw [Index.mem_insert hnew, ← hmem]
    refine or_congr_right ⟨fun hx => ⟨hx, ?_⟩, And.left⟩
    rintro rfl
    exact hnew (List.mem_map_of_mem hx)
  | some old =>
    obtain ⟨hold, hrep⟩ := Index.find?_eq_some_iff.mp hfind
    have hknown : rep ∈ o.reps.entries.map representative :=
      hrep ▸ List.mem_map_of_mem hold
    have hstake : stakeOf w.of (o.reps.replace ⟨now, rep⟩).entries = stakeOf w.of o.reps.entries :=
      stakeOf_congr Index.perm_map_replace
    refine ⟨⟨hevict.exact.1.trans hstake.symm, hevict.exact.2⟩, fun x => ?_⟩
    rw [Index.mem_replace hknown, ← hmem]

theorem foldl_stake (w : Weights) (l : List RepLastHeardInfo) (total : Uint128)
    (h : total.toNat + stakeOf w.of l < 2 ^ 128) :
    (l.foldl (fun total it => total + w.of it.representative) total).toNat =
      total.toNat + stakeOf w.of l := by
  induction l generalizing total with
  | nil => rfl
  | cons x l ih =>
    have hcons : stakeOf w.of (x :: l) = (w.of x.representative).toNat + stakeOf w.of l := rfl
    rw [hcons] at h ⊢
    have hadd : (total + w.of x.representative).toNat =
        total.toNat + (w.of x.representative).toNat := BitVec.toNat_add_of_lt (by omega)
    rw [List.foldl_cons, ih _ (by rw [hadd]; omega), hadd, Nat.add_assoc]

theorem Inv.recalculateStake (h : Inv w.of heard t o) :
    Inv w.of heard t (o.recalculateStake w.of) := by
  refine ⟨⟨?_, h.exact.2⟩, h.mem_iff⟩
  have hzero : (0 : Uint128).toNat = 0 := rfl
  have hfold := foldl_stake w o.reps.entries 0
  rw [hzero, Nat.zero_add] at hfold
  exact hfold (stakeOf_lt w o.reps.unique)

/-! ## Runs -/

/-- **What holds after every call.** -/
theorem Inv.run (w : Weights) {calls : List OnlineCall} (h : InOrder calls) :
    Inv w.of (lastHeard calls) (lastTime calls) (OnlineReps.run w.of calls) := by
  induction calls using List.reverseRecOn with
  | nil =>
    refine ⟨⟨rfl, rfl⟩, fun x => iff_of_false List.not_mem_nil ?_⟩
    rintro ⟨hheard, -⟩
    cases hheard
  | append_singleton calls c ih =>
    have hprev := ih h.of_append
    rw [OnlineReps.run, List.foldl_append]
    cases c with
    | vote rep now =>
      have hheard : lastHeard (calls ++ [OnlineCall.vote rep now]) =
          hear (lastHeard calls) rep now := by
        funext a
        rw [lastHeard_append, OnlineCall.heardAt, hear]
        split
        · rfl
        · rfl
      rw [hheard, lastTime_append_vote]
      exact hprev.vote rep h.lastTime_le
    | recalculateStake =>
      have hheard : lastHeard (calls ++ [.recalculateStake]) = lastHeard calls := by
        funext a
        rw [lastHeard_append]
        rfl
      have htime : lastTime (calls ++ [.recalculateStake]) = lastTime calls := by
        rw [lastTime, List.filterMap_append]
        simp [OnlineCall.time?, lastTime]
      rw [hheard, htime]
      exact hprev.recalculateStake

end OnlineReps

/-- **The online stake is the weight of who was heard lately.** After a vote there is one entry
for each account that was heard in the interval that ends now, with the time it was last
heard. The total is the sum of their weights, and it has never been out of range. -/
theorem online_stake_recent (w : Weights) (calls : List OnlineCall) (rep : Account) (now : ℕ)
    (h : InOrder (calls ++ [OnlineCall.vote rep now])) :
    let o := OnlineReps.run w.of (calls ++ [OnlineCall.vote rep now])
    (o.reps.entries.map representative).Nodup ∧
      (∀ x ∈ o.reps.entries,
        lastHeard (calls ++ [OnlineCall.vote rep now]) x.representative = some x.lastHeard) ∧
      (∀ a, a ∈ o.reps.entries.map representative ↔
        ∃ time, OnlineCall.vote a time ∈ calls ++ [OnlineCall.vote rep now] ∧ time ≤ now ∧
          now ≤ time + nodeCutoff) ∧
      o.onlineStakeTotal.toNat = (o.reps.entries.map fun x => (w.of x.representative).toNat).sum ∧
      o.clamped = false := by
  intro o
  have hinv := OnlineReps.Inv.run w h
  rw [lastTime_append_vote] at hinv
  refine ⟨o.reps.unique, fun x hx => ((hinv.mem_iff x).mp hx).1, fun a => ?_, hinv.exact.1,
    hinv.exact.2⟩
  constructor
  · intro ha
    obtain ⟨x, hx, rfl⟩ := List.mem_map.mp ha
    obtain ⟨hheard, hrecent⟩ := (hinv.mem_iff x).mp hx
    have hmem := mem_of_lastHeard hheard
    exact ⟨x.lastHeard, hmem, h.le_of_vote hmem, hrecent⟩
  · rintro ⟨time, hmem, -, hrecent⟩
    obtain ⟨last, hlast, hle⟩ := h.exists_lastHeard hmem
    have hx := (hinv.mem_iff ⟨last, a⟩).mpr
      ⟨hlast, hrecent.trans (Nat.add_le_add_right hle nodeCutoff)⟩
    exact List.mem_map.mpr ⟨_, hx, rfl⟩

/-- Two representatives that are heard six minutes apart. -/
theorem online_stake_recent_apart : let w := Weights.pair 7 8 600 500 (by decide)
    let calls : List OnlineCall := [.vote 7 0, .recalculateStake]
    InOrder (calls ++ [OnlineCall.vote 8 (360 * 10 ^ 9)]) ∧
      (∀ x ∈ (OnlineReps.run w.of (calls ++ [OnlineCall.vote 8 (360 * 10 ^ 9)])).reps.entries,
        lastHeard (calls ++ [OnlineCall.vote 8 (360 * 10 ^ 9)]) x.representative =
          some x.lastHeard) ∧
      (OnlineReps.run w.of (calls ++ [OnlineCall.vote 8 (360 * 10 ^ 9)])).onlineStakeTotal =
        500 := by
  intro w calls
  have h : InOrder (calls ++ [OnlineCall.vote 8 (360 * 10 ^ 9)]) := by
    rw [InOrder]
    decide
  exact ⟨h, (online_stake_recent w calls 8 _ h).2.1, by decide +kernel⟩

end RaiBlocks
