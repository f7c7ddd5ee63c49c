import Mathlib.Data.Finmap
import Mathlib.Algebra.BigOperators.Group.Multiset.Basic
import Mathlib.Algebra.Order.BigOperators.Group.Multiset
import Mathlib.Tactic

/-!
# Key/value tables

A table of an embedded database: one value for each of finitely many keys.
The representation is Mathlib's `Finmap`, so two tables with the same lookups
are equal. What is added here is the accounting side: the sum of a quantity
over all rows, or what another operation makes of them, and how writing or
deleting one row changes it.
-/

namespace RaiBlocks.Foundation

/-- A table with keys in `K` and rows in `V`. -/
abbrev Table (K V : Type) : Type := Finmap fun _ : K => V

namespace Table

variable {K V M : Type} [DecidableEq K] {t : Table K V} {k : K}

theorem lookup_insert_ite (t : Table K V) (k k' : K) (v : V) :
    (t.insert k v).lookup k' = if k' = k then some v else t.lookup k' := by
  by_cases h : k' = k
  · subst h
    rw [if_pos rfl, Finmap.lookup_insert]
  · rw [if_neg h, Finmap.lookup_insert_of_ne _ h]

theorem lookup_erase_ite (t : Table K V) (k k' : K) :
    (t.erase k).lookup k' = if k' = k then none else t.lookup k' := by
  by_cases h : k' = k
  · subst h
    rw [if_pos rfl, Finmap.lookup_erase]
  · rw [if_neg h, Finmap.lookup_erase_ne h]

theorem erase_of_lookup_none (h : t.lookup k = none) : t.erase k = t := by
  apply Finmap.ext_lookup
  intro x
  rw [lookup_erase_ite]
  split
  · rename_i hx
    rw [hx, h]
  · rfl

theorem insert_erase_self {v : V} (h : t.lookup k = some v) : (t.erase k).insert k v = t := by
  apply Finmap.ext_lookup
  intro x
  rw [lookup_insert_ite, lookup_erase_ite]
  by_cases hx : x = k
  · subst hx
    rw [if_pos rfl, h]
  · rw [if_neg hx, if_neg hx]

theorem insert_erase (t : Table K V) (k : K) (v : V) : (t.erase k).insert k v = t.insert k v := by
  apply Finmap.ext_lookup
  intro x
  rw [lookup_insert_ite, lookup_insert_ite, lookup_erase_ite]
  by_cases hx : x = k
  · rw [if_pos hx, if_pos hx]
  · rw [if_neg hx, if_neg hx, if_neg hx]

/-! ## Sums over the rows -/

section Sum

variable [AddCommMonoid M] {v : V} {f : K → V → M}

/-- The sum of `f` over all rows of the table. -/
def sum (t : Table K V) (f : K → V → M) : M :=
  (t.entries.map fun row => f row.1 row.2).sum

omit [DecidableEq K] in
theorem sum_empty (f : K → V → M) : sum (∅ : Table K V) f = 0 := rfl

theorem mem_entries_iff : (⟨k, v⟩ : Sigma fun _ : K => V) ∈ t.entries ↔ t.lookup k = some v := by
  induction t using Finmap.induction_on with
  | H a =>
    rw [Finmap.lookup_toFinmap]
    exact (AList.mem_lookup_iff (s := a)).symm

theorem sum_congr {g : K → V → M} (h : ∀ k v, t.lookup k = some v → f k v = g k v) :
    sum t f = sum t g := by
  unfold sum
  refine congrArg Multiset.sum (Multiset.map_congr rfl ?_)
  rintro ⟨k, v⟩ hrow
  exact h k v (mem_entries_iff.mp hrow)

theorem sum_insert_of_lookup_none (h : t.lookup k = none) (v : V) (f : K → V → M) :
    sum (t.insert k v) f = f k v + sum t f := by
  have hk : k ∉ t := Finmap.lookup_eq_none.mp h
  rw [sum, sum, Finmap.entries_insert_of_notMem hk, Multiset.map_cons, Multiset.sum_cons]

theorem sum_erase_of_lookup_some (h : t.lookup k = some v) (f : K → V → M) :
    f k v + sum (t.erase k) f = sum t f := by
  have hnone : (t.erase k).lookup k = none := Finmap.lookup_erase k t
  rw [← sum_insert_of_lookup_none hnone v f, insert_erase_self h]

/-- A written row contributes its new value, the other rows what they did. -/
theorem sum_insert_eq (t : Table K V) (k : K) (v : V) (f : K → V → M) :
    sum (t.insert k v) f = f k v + sum (t.erase k) f := by
  rw [← insert_erase, sum_insert_of_lookup_none (Finmap.lookup_erase k t) v f]

/-- Overwriting a row exchanges the old contribution for the new one. -/
theorem sum_insert_of_lookup_some {old : V} (h : t.lookup k = some old) (v : V) (f : K → V → M) :
    f k old + sum (t.insert k v) f = f k v + sum t f := by
  rw [sum_insert_eq, ← sum_erase_of_lookup_some h f, add_left_comm]

theorem sum_eq_zero (h : ∀ k v, t.lookup k = some v → f k v = 0) : sum t f = 0 := by
  rw [sum_congr h]
  exact Multiset.sum_map_zero

theorem sum_single (h : t.lookup k = some v) (hf : ∀ k' v', k' ≠ k → f k' v' = 0) :
    sum t f = f k v := by
  rw [← sum_erase_of_lookup_some h f, sum_eq_zero, add_zero]
  intro k' v' hk'
  refine hf k' v' ?_
  rintro rfl
  rw [Finmap.lookup_erase] at hk'
  cases hk'

theorem sum_eq_keys (t : Table K V) (f : K → V → M) :
    sum t f = ∑ k ∈ t.keys, (t.lookup k).elim 0 (f k) := by
  calc sum t f
      = sum t fun k _ => (t.lookup k).elim 0 (f k) := by
        refine sum_congr fun k v hv => ?_
        rw [hv]
        rfl
    _ = ((t.entries.map Sigma.fst).map fun k => (t.lookup k).elim 0 (f k)).sum := by
        rw [Multiset.map_map]
        rfl

/-- Tables that agree up to what `f` does not look at have the same sum. -/
theorem sum_congr_map {W : Type} {t' : Table K V} (g : V → W)
    (h : ∀ k, (t.lookup k).map g = (t'.lookup k).map g)
    (hf : ∀ k v v', g v = g v' → f k v = f k v') : sum t f = sum t' f := by
  have hkeys : t.keys = t'.keys := by
    ext k
    rw [Finmap.mem_keys, Finmap.mem_keys, ← Finmap.lookup_isSome, ← Finmap.lookup_isSome,
      ← Option.isSome_map (f := g), h, Option.isSome_map]
  rw [sum_eq_keys, sum_eq_keys, hkeys]
  refine Finset.sum_congr rfl fun k _ => ?_
  have hk := h k
  cases hv : t.lookup k with
  | none =>
    rw [hv] at hk
    rw [Option.map_eq_none_iff.mp hk.symm]
  | some v =>
    rw [hv] at hk
    obtain ⟨v', hv', hg⟩ := Option.map_eq_some_iff.mp hk.symm
    rw [hv']
    exact hf k v v' hg.symm

omit [DecidableEq K] in
theorem sum_comm {J W : Type} (t : Table K V) (u : Table J W) (f : K → V → J → W → M) :
    sum t (fun k v => sum u fun j w => f k v j w) = sum u fun j w => sum t fun k v => f k v j w :=
  Multiset.sum_map_sum_map _ _

end Sum

/-! ## Folds over the rows -/

section Fold

variable {α : Type} (op : α → α → α) [Std.Commutative op] [Std.Associative op] (b : α)

/-- All rows combined by an operation that does not mind their order. -/
def fold (t : Table K V) (f : V → α) : α := (t.entries.map fun row => f row.2).fold op b

omit [DecidableEq K] in
theorem fold_empty (f : V → α) : fold op b (∅ : Table K V) f = b := rfl

theorem fold_insert_of_lookup_none {t : Table K V} {k : K} (h : t.lookup k = none) (v : V)
    (f : V → α) : fold op b (t.insert k v) f = op (f v) (fold op b t f) := by
  have hk : k ∉ t := Finmap.lookup_eq_none.mp h
  rw [fold, fold, Finmap.entries_insert_of_notMem hk, Multiset.map_cons, Multiset.fold_cons_left]

theorem fold_erase_of_lookup_some {t : Table K V} {k : K} {v : V} (h : t.lookup k = some v)
    (f : V → α) : op (f v) (fold op b (t.erase k) f) = fold op b t f := by
  rw [← fold_insert_of_lookup_none op b (Finmap.lookup_erase k t), insert_erase_self h]

theorem fold_insert_eq (t : Table K V) (k : K) (v : V) (f : V → α) :
    fold op b (t.insert k v) f = op (f v) (fold op b (t.erase k) f) := by
  rw [← insert_erase, fold_insert_of_lookup_none op b (Finmap.lookup_erase k t)]

end Fold

theorem le_sum {v : V} (h : t.lookup k = some v) (f : K → V → ℕ) : f k v ≤ sum t f := by
  rw [← sum_erase_of_lookup_some h f]
  exact Nat.le_add_right _ _

omit [DecidableEq K] in
theorem sum_le_sum (t : Table K V) {f g : K → V → ℕ} (h : ∀ k v, f k v ≤ g k v) :
    sum t f ≤ sum t g :=
  Multiset.sum_map_le_sum_map _ _ fun row _ => h row.1 row.2

/-- **Sums along a partition.** When every row of `u` holds what the rows of `t`
with its key add up to, the two tables add up to the same. -/
theorem sum_partition {J W : Type} [DecidableEq J] {u : Table J W} (key : V → Option J)
    (f : V → ℕ) (g : W → ℕ)
    (hu : ∀ j, (u.lookup j).elim 0 g = sum t fun _ v => if key v = some j then f v else 0)
    (hkey : ∀ k v, t.lookup k = some v → ∃ j, key v = some j) :
    sum u (fun _ w => g w) = sum t fun _ v => f v := by
  calc sum u (fun _ w => g w)
      = sum u fun j _ => sum t fun _ v => if key v = some j then f v else 0 := by
        refine sum_congr fun j w hw => ?_
        rw [← hu, hw]
        rfl
    _ = sum t fun _ v => sum u fun j _ => if key v = some j then f v else 0 := sum_comm _ _ _
    _ = sum t fun _ v => f v := by
        refine sum_congr fun k v hv => ?_
        obtain ⟨j, hj⟩ := hkey k v hv
        cases hw : u.lookup j with
        | some w =>
          rw [sum_single hw, if_pos hj]
          intro j' _ hne
          rw [if_neg]
          exact fun hj' => hne (Option.some.inj (hj'.symm.trans hj))
        | none =>
          -- nothing is recorded for this key, so the row holds nothing
          have hle := le_sum hv fun _ v => if key v = some j then f v else 0
          rw [← hu, hw, if_pos hj] at hle
          rw [Nat.le_zero.mp hle]
          refine sum_eq_zero fun j' w' _ => ?_
          split <;> rfl

end Table

end RaiBlocks.Foundation
