import Mathlib.Order.Basic
import Mathlib.Order.Nat
import Mathlib.Tactic.SplitIfs

/-!
# A search whose end moves

The numbers from 1 on are searched. Where the search ends depends on the last number it has found:
after the number `j` it ends before `limit j`. `lastFound_cut` compares the search with one that
stops early, as a search does whose limits are computed in too few bits.
-/

namespace RaiBlocks.Foundation

/-- The last number that is found among the numbers 1 to `k`, and 0 if there is none. -/
def lastFound (limit : ℕ → ℕ) (used : ℕ → Prop) [DecidablePred used] : ℕ → ℕ
  | 0 => 0
  | k + 1 =>
    let j := lastFound limit used k
    if k + 1 < limit j ∧ used (k + 1) then k + 1 else j

variable {limit : ℕ → ℕ} {used : ℕ → Prop} [DecidablePred used] {j k : ℕ}

theorem lastFound_succ (limit : ℕ → ℕ) (used : ℕ → Prop) [DecidablePred used] (k : ℕ) :
    lastFound limit used (k + 1) =
      if k + 1 < limit (lastFound limit used k) ∧ used (k + 1) then k + 1
      else lastFound limit used k := rfl

theorem lastFound_le (k : ℕ) : lastFound limit used k ≤ k := by
  induction k with
  | zero => exact le_rfl
  | succ k ih =>
    rw [lastFound_succ]
    split_ifs
    · exact le_rfl
    · exact ih.trans (Nat.le_succ k)

theorem lastFound_of_end (h : limit (lastFound limit used k) ≤ k + 1) {k' : ℕ} (hk : k ≤ k') :
    lastFound limit used k' = lastFound limit used k := by
  induction k', hk using Nat.le_induction with
  | base => rfl
  | succ k' hk ih =>
    rw [lastFound_succ, ih, if_neg fun hlt => ?_]
    omega

theorem lastFound_mono {k' : ℕ} (hk : k ≤ k') :
    lastFound limit used k ≤ lastFound limit used k' := by
  induction k', hk using Nat.le_induction with
  | base => exact le_rfl
  | succ k' hk ih =>
    refine ih.trans ?_
    rw [lastFound_succ]
    split_ifs
    · exact (lastFound_le k').trans (Nat.le_succ k')
    · exact le_rfl

theorem used_lastFound (h : lastFound limit used k ≠ 0) : used (lastFound limit used k) := by
  induction k with
  | zero => exact absurd rfl h
  | succ k ih =>
    rw [lastFound_succ] at h ⊢
    split_ifs at h ⊢ with hfound
    · exact hfound.2
    · exact ih h

/-- A number within the limit of the one found before is found. -/
theorem le_lastFound (hj : j + 1 ≤ k) (hlt : j + 1 < limit (lastFound limit used j))
    (hused : used (j + 1)) : j + 1 ≤ lastFound limit used k := by
  refine le_trans (le_of_eq ?_) (lastFound_mono hj)
  rw [lastFound_succ, if_pos ⟨hlt, hused⟩]

/-- Where the search has passed a number of its kind, it was over. -/
theorem limit_le_of_lastFound_lt (hlt : lastFound limit used k < j) (hj : j ≤ k) (hused : used j) :
    limit (lastFound limit used k) ≤ j := by
  obtain ⟨i, rfl⟩ := Nat.exists_eq_succ_of_ne_zero (Nat.ne_of_gt (Nat.zero_lt_of_lt hlt))
  by_cases hend : limit (lastFound limit used i) ≤ i + 1
  · rw [lastFound_of_end hend (Nat.le_of_succ_le hj)]
    exact hend
  · exact absurd hlt (not_lt.mpr (le_lastFound hj (not_le.mp hend) hused))

/-- **Stopping early.** Some limits are replaced by ones that end the search at once. Either none of
these is in use before the end, and the same is found. Or the search ends with the first number that
has such a limit. -/
theorem lastFound_cut {limit' : ℕ → ℕ} (used : ℕ → Prop) [DecidablePred used]
    (hzero : limit' 0 = limit 0)
    (hcut : ∀ j, limit' j = limit j ∨ limit' j ≤ j + 1) (k : ℕ) :
    (lastFound limit' used k = lastFound limit used k ∧
      ∀ j < lastFound limit used k, used j → limit' j = limit j) ∨
    (lastFound limit' used k < lastFound limit used k ∧ used (lastFound limit' used k) ∧
      limit' (lastFound limit' used k) ≠ limit (lastFound limit' used k) ∧
      ∀ j < lastFound limit used k, used j → limit' j ≠ limit j → lastFound limit' used k ≤ j) := by
  induction k with
  | zero => exact Or.inl ⟨rfl, fun j hj => absurd hj (Nat.not_lt_zero j)⟩
  | succ k ih =>
    have hle : lastFound limit used k ≤ k := lastFound_le k
    rcases ih with ⟨hsame, hbefore⟩ | ⟨hlt, hused, hne, hfirst⟩
    · rw [lastFound_succ limit', lastFound_succ limit, hsame]
      by_cases heq : limit' (lastFound limit used k) = limit (lastFound limit used k)
      · -- The same limit: the next number is found by both or by none.
        refine Or.inl ⟨by rw [heq], fun j hj hjused => ?_⟩
        split_ifs at hj with hfound
        · rcases lt_trichotomy j (lastFound limit used k) with hlt | rfl | hgt
          · exact hbefore j hlt hjused
          · exact heq
          · have := limit_le_of_lastFound_lt hgt (Nat.lt_succ_iff.mp hj) hjused
            omega
        · exact hbefore j hj hjused
      · -- The search that stops early is over.
        have hend := (hcut _).resolve_left heq
        rw [if_neg fun h => absurd (h.1.trans_le hend) (by omega)]
        split_ifs
        · have hpos : lastFound limit used k ≠ 0 := fun h0 => heq (by rw [h0, hzero])
          refine Or.inr ⟨by omega, used_lastFound hpos, heq, fun j _ hjused hj => ?_⟩
          by_contra hlt
          exact hj (hbefore j (not_le.mp hlt) hjused)
        · exact Or.inl ⟨rfl, hbefore⟩
    · have hend := (hcut _).resolve_left hne
      have hstay : lastFound limit' used (k + 1) = lastFound limit' used k :=
        lastFound_of_end (hend.trans (by omega)) (Nat.le_succ k)
      have hmono : lastFound limit used k ≤ lastFound limit used (k + 1) :=
        lastFound_mono (Nat.le_succ k)
      rw [hstay]
      refine Or.inr ⟨hlt.trans_le hmono, hused, hne, fun j _ hjused hj => ?_⟩
      by_contra hjlt
      exact hjlt (hfirst j ((not_le.mp hjlt).trans hlt) hjused hj)

end RaiBlocks.Foundation
