import Mathlib.Order.Lattice
import Mathlib.Tactic

/-!
# Maps in decreasing order of their keys

A map as the list of its entries, the greatest key first. `put` overwrites, so
of several values put under one key the last one stays; which keys the map
holds depends on nothing but the keys that were put.
-/

namespace RaiBlocks.Foundation

/-- Machine numbers as keys. -/
instance bitVecLinearOrder (n : ℕ) : LinearOrder (BitVec n) where
  le_refl := BitVec.le_refl
  le_trans _ _ _ := BitVec.le_trans
  le_antisymm _ _ := BitVec.le_antisymm
  le_total := BitVec.le_total
  toDecidableLE := inferInstance
  toDecidableEq := inferInstance
  toDecidableLT := inferInstance
  lt_iff_le_not_ge a b := by
    simp only [BitVec.lt_def, BitVec.le_def]
    omega

namespace Descending

variable {κ α : Type} [LinearOrder κ] {k : κ} {a : α} {m : List (κ × α)} {l : List (α × κ)}

/-- The keys decrease. -/
def Sorted (m : List (κ × α)) : Prop := m.Pairwise fun x y => y.1 < x.1

def put (k : κ) (a : α) : List (κ × α) → List (κ × α)
  | [] => [(k, a)]
  | (k', a') :: m =>
    if k' < k then (k, a) :: (k', a') :: m
    else if k' = k then (k, a) :: m
    else (k', a') :: put k a m

/-- Put all values of a list under their keys, one after the other. -/
def putAll (l : List (α × κ)) (m : List (κ × α)) : List (κ × α) :=
  l.foldl (fun m i => put i.2 i.1 m) m

theorem mem_put {x : κ × α} (h : x ∈ put k a m) : x = (k, a) ∨ x ∈ m := by
  induction m with
  | nil => simpa [put] using h
  | cons y m ih =>
    rw [put] at h
    split_ifs at h with hlt heq
    · simpa using h
    · rcases List.mem_cons.mp h with rfl | h
      · exact Or.inl rfl
      · exact Or.inr (List.mem_cons_of_mem _ h)
    · rcases List.mem_cons.mp h with rfl | h
      · exact Or.inr List.mem_cons_self
      · rcases ih h with rfl | h
        · exact Or.inl rfl
        · exact Or.inr (List.mem_cons_of_mem _ h)

theorem mem_put_self : (k, a) ∈ put k a m := by
  induction m with
  | nil => simp [put]
  | cons y m ih =>
    rw [put]
    split_ifs with hlt heq
    · exact List.mem_cons_self
    · exact List.mem_cons_self
    · exact List.mem_cons_of_mem _ ih

theorem key_put {k' : κ} : (∃ b, (k', b) ∈ put k a m) ↔ k' = k ∨ ∃ b, (k', b) ∈ m := by
  induction m with
  | nil => simp [put]
  | cons y m ih =>
    obtain ⟨ky, ay⟩ := y
    rw [put]
    split_ifs with hlt heq
    · simp [exists_or]
    · subst heq
      simp [exists_or]
    · simp only [List.mem_cons, exists_or, ih]
      exact or_left_comm

theorem Sorted.put (hm : Sorted m) : Sorted (Descending.put k a m) := by
  induction m with
  | nil => simp [Descending.put, Sorted]
  | cons y m ih =>
    obtain ⟨hy, hm'⟩ := List.pairwise_cons.mp hm
    rw [Descending.put]
    split_ifs with hlt heq
    · refine List.pairwise_cons.mpr ⟨fun z hz => ?_, hm⟩
      rcases List.mem_cons.mp hz with rfl | hz
      · exact hlt
      · exact (hy z hz).trans hlt
    · subst heq
      exact List.pairwise_cons.mpr ⟨hy, hm'⟩
    · refine List.pairwise_cons.mpr ⟨fun z hz => ?_, ih hm'⟩
      rcases mem_put hz with rfl | hz
      · exact lt_of_le_of_ne (not_lt.mp hlt) fun h => heq h.symm
      · exact hy z hz

theorem Sorted.putAll : ∀ {m : List (κ × α)}, Sorted m →
    Sorted (Descending.putAll l m) := by
  induction l with
  | nil => exact fun hm => hm
  | cons i l ih => exact fun hm => ih hm.put

theorem mem_putAll {x : κ × α} : ∀ {m : List (κ × α)}, x ∈ putAll l m →
    (x.2, x.1) ∈ l ∨ x ∈ m := by
  induction l with
  | nil => exact fun h => Or.inr h
  | cons i l ih =>
    intro m h
    rcases ih h with h | h
    · exact Or.inl (List.mem_cons_of_mem _ h)
    · rcases mem_put h with rfl | h
      · exact Or.inl List.mem_cons_self
      · exact Or.inr h

theorem key_putAll : ∀ {m : List (κ × α)},
    (∃ b, (k, b) ∈ putAll l m) ↔ (∃ b, (b, k) ∈ l) ∨ ∃ b, (k, b) ∈ m := by
  induction l with
  | nil => simp [putAll]
  | cons i l ih =>
    intro m
    rw [putAll, List.foldl_cons, ← putAll, ih, key_put]
    have hcons : (∃ b, (b, k) ∈ i :: l) ↔ k = i.2 ∨ ∃ b, (b, k) ∈ l := by
      obtain ⟨a, k'⟩ := i
      simp [exists_or, eq_comm]
    rw [hcons, or_assoc]
    exact or_left_comm

/-- The map a list of values leaves when put into the empty map. -/
def ofList (l : List (α × κ)) : List (κ × α) := putAll l []

section OfList

theorem ofList_sorted : Sorted (ofList l) := Sorted.putAll List.Pairwise.nil

theorem mem_of_mem_ofList (h : (k, a) ∈ ofList l) : (a, k) ∈ l := by
  rcases mem_putAll h with h | h
  · exact h
  · simp at h

theorem mem_ofList_append : (k, a) ∈ ofList (l ++ [(a, k)]) := by
  rw [ofList, putAll, List.foldl_append]
  exact mem_put_self

theorem key_ofList : (∃ a, (k, a) ∈ ofList l) ↔ ∃ a, (a, k) ∈ l := by
  simp [ofList, key_putAll]

theorem ofList_ne_nil (hl : l ≠ []) : ofList l ≠ [] := by
  obtain ⟨i, l', rfl⟩ := List.exists_cons_of_ne_nil hl
  obtain ⟨a, ha⟩ := key_ofList.mpr ⟨i.1, List.mem_cons_self (a := i) (l := l')⟩
  exact List.ne_nil_of_mem ha

theorem le_head {m : List (κ × α)} (hm : ofList l = (k, a) :: m) {b : α} {k' : κ}
    (hb : (b, k') ∈ l) : k' ≤ k := by
  obtain ⟨c, hc⟩ := key_ofList.mpr ⟨b, hb⟩
  have hsorted := ofList_sorted (l := l)
  rw [hm] at hc hsorted
  rcases List.mem_cons.mp hc with heq | hc
  · exact (Prod.mk.inj heq).1.le
  · exact ((List.pairwise_cons.mp hsorted).1 _ hc).le

/-- The second entry has the greatest key below the first. -/
theorem le_second {k' : κ} {a' : α} {m : List (κ × α)} (hm : ofList l = (k, a) :: (k', a') :: m)
    {b : α} {k'' : κ} (hb : (b, k'') ∈ l) (hlt : k'' < k) : k'' ≤ k' := by
  obtain ⟨c, hc⟩ := key_ofList.mpr ⟨b, hb⟩
  have hsorted := ofList_sorted (l := l)
  rw [hm] at hc hsorted
  rcases List.mem_cons.mp hc with heq | hc
  · exact absurd (Prod.mk.inj heq).1 hlt.ne
  · rcases List.mem_cons.mp hc with heq | hc
    · exact (Prod.mk.inj heq).1.le
    · exact ((List.pairwise_cons.mp (List.pairwise_cons.mp hsorted).2).1 _ hc).le

end OfList

end Descending

end RaiBlocks.Foundation
