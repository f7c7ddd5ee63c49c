import Mathlib.Algebra.BigOperators.Group.Finset.Piecewise
import Mathlib.Algebra.GroupWithZero.Nat
import Mathlib.Data.List.TakeWhile
import Mathlib.Order.Basic

/-!
# Lists

Facts about lists that the walks over tables and queues use.
-/

namespace RaiBlocks.Foundation

/-! ## Ascending lists -/

section Ascending

variable {α : Type} [LinearOrder α] {l l' : List α} {P : α → Bool}

/-- How far a walk comes that ends at the first element without `P`. -/
theorem mem_takeWhile_iff (hl : l.Pairwise (· < ·)) {a : α} :
    a ∈ l.takeWhile P ↔ a ∈ l ∧ ∀ b ∈ l, b ≤ a → P b = true := by
  induction l with
  | nil => simp
  | cons x l ih =>
    obtain ⟨hx, hl⟩ := List.pairwise_cons.mp hl
    cases hP : P x with
    | false =>
      rw [List.takeWhile_cons_of_neg (by simp [hP])]
      refine iff_of_false List.not_mem_nil ?_
      rintro ⟨ha, hall⟩
      have hle : x ≤ a := by
        rcases List.mem_cons.mp ha with rfl | ha
        · exact le_refl _
        · exact (hx a ha).le
      rw [hall x List.mem_cons_self hle] at hP
      cases hP
    | true =>
      rw [List.takeWhile_cons_of_pos hP, List.mem_cons, ih hl, List.mem_cons]
      constructor
      · rintro (rfl | ⟨ha, hall⟩)
        · refine ⟨Or.inl rfl, fun b hb hba => ?_⟩
          rcases List.mem_cons.mp hb with rfl | hb
          · exact hP
          · exact absurd (hx b hb) (not_lt.mpr hba)
        · refine ⟨Or.inr ha, fun b hb hba => ?_⟩
          rcases List.mem_cons.mp hb with rfl | hb
          · exact hP
          · exact hall b hb hba
      · rintro ⟨rfl | ha, hall⟩
        · exact Or.inl rfl
        · exact Or.inr ⟨ha, fun b hb => hall b (List.mem_cons_of_mem _ hb)⟩

/-- Part of a list has the same first elements if it has those. -/
theorem take_eq_take_of_subset (n : ℕ) (hl : l.Pairwise (· < ·)) (hl' : l'.Pairwise (· < ·))
    (hsub : ∀ a ∈ l, a ∈ l') (hfirst : ∀ a ∈ l'.take n, a ∈ l) : l.take n = l'.take n := by
  induction n generalizing l l' with
  | zero => rw [List.take_zero, List.take_zero]
  | succ n ih =>
    cases l' with
    | nil =>
      cases l with
      | nil => rfl
      | cons a l => cases hsub a List.mem_cons_self
    | cons b l' =>
      have hb : b ∈ l := hfirst b List.mem_cons_self
      cases l with
      | nil => cases hb
      | cons a l =>
        obtain ⟨ha, hl⟩ := List.pairwise_cons.mp hl
        obtain ⟨hbmin, htail⟩ := List.pairwise_cons.mp hl'
        have hab : a = b := by
          rcases List.mem_cons.mp hb with heq | hb
          · exact heq.symm
          · rcases List.mem_cons.mp (hsub a List.mem_cons_self) with heq | hmem
            · exact heq
            · exact absurd (ha b hb) (lt_asymm (hbmin a hmem))
        subst hab
        rw [List.take_succ_cons, List.take_succ_cons]
        refine congrArg _ (ih hl htail ?_ ?_)
        · intro x hx
          exact (List.mem_cons.mp (hsub x (List.mem_cons_of_mem _ hx))).resolve_left
            (ha x hx).ne'
        · intro x hx
          exact (List.mem_cons.mp (hfirst x (List.mem_cons_of_mem _ hx))).resolve_left
            (hbmin x (List.mem_of_mem_take hx)).ne'

end Ascending

/-! ## Leaving out the first ones and leaving out all -/

section Lists

variable {α β : Type} {P : α → Bool} {l : List α}

theorem filter_sublist_dropWhile (P : α → Bool) (l : List α) :
    (l.filter P).Sublist (l.dropWhile fun x => !P x) := by
  induction l with
  | nil => exact List.Sublist.slnil
  | cons a l ih =>
    cases ha : P a with
    | false =>
      rw [List.filter_cons_of_neg (by simp [ha]), List.dropWhile_cons_of_pos (by simp [ha])]
      exact ih
    | true =>
      rw [List.filter_cons_of_pos ha, List.dropWhile_cons_of_neg (by simp [ha])]
      exact List.filter_sublist.cons_cons a

/-- The two give the same exactly if after an element that stays all stay. -/
theorem dropWhile_eq_filter_iff :
    l.dropWhile (fun x => !P x) = l.filter P ↔ l.Pairwise fun x y => P x = true → P y = true := by
  induction l with
  | nil => exact iff_of_true rfl List.Pairwise.nil
  | cons a l ih =>
    rw [List.pairwise_cons]
    cases ha : P a with
    | false =>
      rw [List.filter_cons_of_neg (by simp [ha]), List.dropWhile_cons_of_pos (by simp [ha]), ih]
      simp
    | true =>
      rw [List.filter_cons_of_pos ha, List.dropWhile_cons_of_neg (by simp [ha]),
        List.cons.injEq, eq_comm (a := l), List.filter_eq_self]
      constructor
      · rintro ⟨-, hall⟩
        exact ⟨fun y hy _ => hall y hy, List.pairwise_of_forall_mem_list
          fun x _ y hy _ => hall y hy⟩
      · rintro ⟨hall, -⟩
        exact ⟨rfl, fun y hy => hall y hy rfl⟩

/-- The images under `f` agree only if the lists do. -/
theorem map_dropWhile_eq_map_filter_iff (f : α → β) :
    (l.dropWhile fun x => !P x).map f = (l.filter P).map f ↔
      l.Pairwise fun x y => P x = true → P y = true := by
  rw [← dropWhile_eq_filter_iff]
  constructor
  · intro h
    have hlength := congrArg List.length h
    rw [List.length_map, List.length_map] at hlength
    exact ((filter_sublist_dropWhile P l).eq_of_length hlength.symm).symm
  · exact congrArg _

theorem mem_map_eraseIdx {f : α → β} {i : ℕ} {x : α} (hx : l[i]? = some x) {y : β} :
    y ∈ l.map f ↔ y = f x ∨ y ∈ (l.eraseIdx i).map f := by
  obtain ⟨hi, rfl⟩ := List.getElem?_eq_some_iff.mp hx
  rw [← ((List.getElem_cons_eraseIdx_perm hi).map f).mem_iff, List.map_cons, List.mem_cons]

theorem mem_of_lookup [BEq α] [LawfulBEq α] {l : List (α × β)} {a : α} {b : β}
    (h : l.lookup a = some b) : (a, b) ∈ l := by
  obtain ⟨l₁, l₂, rfl, -⟩ := List.lookup_eq_some_iff.mp h
  exact List.mem_append_right _ List.mem_cons_self

/-- What the values of each class add up to, over classes that include all, is
what all values add up to. -/
theorem sum_fiberwise [DecidableEq β] (f : α → β) (g : α → ℕ) {s : List β} (hs : s.Nodup)
    (hl : ∀ i ∈ l, f i ∈ s) :
    (s.map fun k => (l.map fun i => if f i = k then g i else 0).sum).sum = (l.map g).sum := by
  induction l with
  | nil => simp
  | cons i l ih =>
    have hone : (s.map fun k => if f i = k then g i else 0).sum = g i := by
      rw [← List.sum_toFinset _ hs, Finset.sum_ite_eq, if_pos]
      exact List.mem_toFinset.mpr (hl i List.mem_cons_self)
    simp only [List.map_cons, List.sum_cons]
    rw [List.sum_map_add, hone, ih fun j hj => hl j (List.mem_cons_of_mem _ hj)]

end Lists

end RaiBlocks.Foundation
