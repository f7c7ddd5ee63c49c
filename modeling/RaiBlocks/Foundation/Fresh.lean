import Mathlib.Data.List.Perm.Subperm
import Mathlib.Data.Nat.Find
import Mathlib.Data.Set.Function
import Mathlib.Order.Interval.Set.Defs
import Mathlib.Order.Nat

/-!
# Handing out numbers

Every number below `N` has a key, and some keys are taken. Numbers are handed out in
ascending order, those with a taken key left out, and a number that is handed out takes
its key. `freshNumbers` lists the numbers that are handed out until none is left;
`freshNumbers_of_cons` is the rule for the first one.
-/

namespace RaiBlocks.Foundation

variable {κ : Type} [DecidableEq κ] {key : ℕ → κ} {N i m : ℕ} {taken : κ → Bool} {rest : List ℕ}

/-- The numbers below `N` with a key that is neither taken nor that of a smaller number. -/
def freshNumbers (key : ℕ → κ) (N : ℕ) (taken : κ → Bool) : List ℕ :=
  (List.range N).filter fun i => !taken (key i) && (List.range i).all fun j => key j ≠ key i

theorem mem_freshNumbers : i ∈ freshNumbers key N taken ↔
    i < N ∧ taken (key i) = false ∧ ∀ j < i, key j ≠ key i := by
  simp [freshNumbers]

theorem pairwise_freshNumbers : (freshNumbers key N taken).Pairwise (· < ·) :=
  List.pairwise_lt_range.filter _

theorem exists_freshNumber (hi : i < N) (hfree : taken (key i) = false) :
    ∃ j ≤ i, j ∈ freshNumbers key N taken ∧ key j = key i := by
  have hex : ∃ j, key j = key i := ⟨i, rfl⟩
  have hle : Nat.find hex ≤ i := Nat.find_min' hex rfl
  refine ⟨Nat.find hex, hle, mem_freshNumbers.mpr ⟨hle.trans_lt hi, ?_, fun j hj => ?_⟩,
    Nat.find_spec hex⟩
  · rw [Nat.find_spec hex]
    exact hfree
  · rw [Nat.find_spec hex]
    exact Nat.find_min hex hj

theorem taken_of_freshNumbers_nil (h : freshNumbers key N taken = []) (hi : i < N) :
    taken (key i) = true := by
  by_contra hfree
  obtain ⟨j, -, hj, -⟩ := exists_freshNumber hi (eq_false_of_ne_true hfree)
  rw [h] at hj
  cases hj

/-- If different numbers have different keys, the fresh numbers are those with a free key. -/
theorem freshNumbers_of_injOn (hkey : Set.InjOn key (Set.Iio N)) :
    freshNumbers key N taken = (List.range N).filter fun i => !taken (key i) := by
  apply List.filter_congr
  intro i hi
  have hiN := List.mem_range.mp hi
  have hall : ((List.range i).all fun j => key j ≠ key i) = true := by
    rw [List.all_eq_true]
    intro j hj
    have hji := List.mem_range.mp hj
    refine decide_eq_true fun heq => ?_
    exact absurd (hkey (hji.trans hiN) hiN heq) hji.ne
  rw [hall, Bool.and_true]

theorem pairwise_of_cons (h : freshNumbers key N taken = m :: rest) :
    (∀ i ∈ rest, m < i) ∧ rest.Pairwise (· < ·) := by
  rw [← List.pairwise_cons, ← h]
  exact pairwise_freshNumbers

theorem freshNumbers_head (h : freshNumbers key N taken = m :: rest) :
    m < N ∧ taken (key m) = false ∧ ∀ j < m, key j ≠ key m :=
  mem_freshNumbers.mp (by rw [h]; exact List.mem_cons_self)

/-- Before the first number that is handed out, all keys are taken. -/
theorem taken_of_lt_head (h : freshNumbers key N taken = m :: rest) {j : ℕ} (hj : j < m) :
    taken (key j) = true := by
  by_contra hfree
  obtain ⟨i, hle, hi, -⟩ :=
    exists_freshNumber (hj.trans (freshNumbers_head h).1) (eq_false_of_ne_true hfree)
  rw [h] at hi
  rcases List.mem_cons.mp hi with rfl | hrest
  · exact absurd hj (not_lt.mpr hle)
  · exact absurd ((pairwise_of_cons h).1 i hrest) (not_lt.mpr (hle.trans hj.le))

/-- **Handing out the first number** takes its key and leaves the others. -/
theorem freshNumbers_of_cons (h : freshNumbers key N taken = m :: rest) {taken' : κ → Bool}
    (htaken : ∀ k, taken' k = true ↔ taken k = true ∨ k = key m) :
    freshNumbers key N taken' = rest := by
  obtain ⟨-, -, hfirst⟩ := freshNumbers_head h
  -- Of the fresh numbers only `m` has the key of `m`.
  have hfilter : freshNumbers key N taken' = (freshNumbers key N taken).filter (· ≠ m) := by
    unfold freshNumbers
    rw [List.filter_filter]
    apply List.filter_congr
    intro i _
    rw [Bool.eq_iff_iff]
    simp only [Bool.and_eq_true, Bool.not_eq_true', List.all_eq_true, List.mem_range,
      decide_eq_true_eq, ← Bool.not_eq_true, htaken, not_or]
    constructor
    · rintro ⟨⟨hi, hne⟩, hall⟩
      exact ⟨fun him => hne (by rw [him]), hi, hall⟩
    · rintro ⟨him, hi, hall⟩
      refine ⟨⟨hi, fun heq => ?_⟩, hall⟩
      rcases lt_or_gt_of_ne him with hlt | hgt
      · exact hfirst i hlt heq
      · exact hall m hgt heq.symm
  rw [hfilter, h, List.filter_cons_of_neg (by simp)]
  exact List.filter_eq_self.mpr fun i hi => decide_eq_true ((pairwise_of_cons h).1 i hi).ne'

/-- **When all numbers up to `m` have been dealt with** once `n` numbers are handed out: their keys
were taken before, but for at most `n` of them. -/
theorem covered_iff (hm : m < N) (n : ℕ) :
    (∀ i ≤ m, taken (key i) = true ∨ key i ∈ ((freshNumbers key N taken).take n).map key) ↔
      ((freshNumbers key N taken).filter (· ≤ m)).length ≤ n := by
  have hsorted : (freshNumbers key N taken).Pairwise (· < ·) := pairwise_freshNumbers
  have hsplit := List.take_append_drop n (freshNumbers key N taken)
  rw [← hsplit, List.pairwise_append] at hsorted
  have hlength : ((freshNumbers key N taken).filter (· ≤ m)).length =
      (((freshNumbers key N taken).take n).filter (· ≤ m)).length +
        (((freshNumbers key N taken).drop n).filter (· ≤ m)).length := by
    rw [← List.length_append, ← List.filter_append, hsplit]
  have htake : (((freshNumbers key N taken).take n).filter (· ≤ m)).length ≤ n :=
    (List.length_filter_le _ _).trans (List.length_take_le n _)
  constructor
  · intro h
    -- None of the others is up to `m`.
    have hdrop : ((freshNumbers key N taken).drop n).filter (· ≤ m) = [] := by
      rw [List.filter_eq_nil_iff]
      intro i hi hle
      obtain ⟨-, hfree, hfirst⟩ := mem_freshNumbers.mp (List.mem_of_mem_drop hi)
      rcases h i (of_decide_eq_true hle) with htaken | hmem
      · rw [hfree] at htaken
        cases htaken
      · obtain ⟨j, hj, heq⟩ := List.mem_map.mp hmem
        exact hfirst j (hsorted.2.2 j hj i hi) heq
    rw [hlength, hdrop]
    exact htake
  · intro h i hi
    by_cases htaken : taken (key i) = true
    · exact Or.inl htaken
    · obtain ⟨j, hji, hj, heq⟩ := exists_freshNumber (hi.trans_lt hm) (eq_false_of_ne_true htaken)
      rw [← hsplit, List.mem_append] at hj
      rcases hj with hj | hj
      · exact Or.inr (List.mem_map.mpr ⟨j, hj, heq⟩)
      · -- There are `n` numbers before it, and all of them are up to `m`.
        have hall : ((freshNumbers key N taken).take n).filter (· ≤ m) =
            (freshNumbers key N taken).take n :=
          List.filter_eq_self.mpr fun x hx =>
            decide_eq_true ((hsorted.2.2 x hx j hj).le.trans (hji.trans hi))
        have hpos : 0 < (((freshNumbers key N taken).drop n).filter (· ≤ m)).length :=
          List.length_pos_of_mem (List.mem_filter.mpr ⟨hj, decide_eq_true (hji.trans hi)⟩)
        have hdrop := List.length_pos_of_mem hj
        rw [List.length_drop] at hdrop
        rw [hlength, hall, List.length_take] at h
        omega

/-- There are at most `m + 1` numbers up to `m`. -/
theorem length_freshNumbers_le (m : ℕ) :
    ((freshNumbers key N taken).filter (· ≤ m)).length ≤ m + 1 := by
  rw [← List.length_range (n := m + 1)]
  refine (List.Nodup.subperm ?_ fun i hi => ?_).length_le
  · exact (pairwise_freshNumbers.filter _).imp fun h => h.ne
  · exact List.mem_range.mpr (Nat.lt_succ_of_le (of_decide_eq_true (List.mem_filter.mp hi).2))

end RaiBlocks.Foundation
