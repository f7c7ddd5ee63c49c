import Mathlib.Order.Nat
import Mathlib.Order.ConditionallyCompleteLattice.Basic
import RaiBlocks.Foundation.Machine

/-!
# Infinite runs of a machine

An execution makes moves for ever. Its prefixes are runs, so what holds after every
run holds at every point of it. What has to happen some time rests on moves that are
made again and again: `exists_turn` is the rule for one such move, `exists_constant`
says that a bounded counter comes to a halt.
-/

namespace RaiBlocks.Foundation.Machine

variable {σ μ ε : Type}

/-- An infinite run. -/
structure Execution (step : σ → μ → Except ε σ) where
  state : ℕ → σ
  move : ℕ → μ
  next : ∀ i, step (state i) (move i) = .ok (state (i + 1))

namespace Execution

variable {step : σ → μ → Except ε σ} (x : Execution step)

/-- The first moves lead from the first state to the state they should. -/
theorem run_prefix (i : ℕ) :
    run step (x.state 0) ((List.range i).map x.move) = .ok (x.state i) := by
  induction i with
  | zero => rfl
  | succ i ih =>
    rw [List.range_succ, List.map_append, run_append, ih, ok_bind, List.map_singleton, run,
      x.next i, ok_bind, run]

/-- Moves with a property are made again and again. -/
def Recurs (M : μ → Prop) : Prop := ∀ i, ∃ j, i ≤ j ∧ M (x.move j)

variable {x}

/-- **The next turn.** What all other moves preserve still holds when the next of the
recurring moves is made. -/
theorem exists_turn {M : μ → Prop} (hM : x.Recurs M) {P : ℕ → Prop} {i : ℕ} (hi : P i)
    (hstay : ∀ j, i ≤ j → P j → ¬ M (x.move j) → P (j + 1)) : ∃ j, i ≤ j ∧ P j ∧ M (x.move j) := by
  classical
  -- the first turn from `i` on, counted from there
  have hex : ∃ d, M (x.move (i + d)) := by
    obtain ⟨j, hij, hj⟩ := hM i
    exact ⟨j - i, by rwa [Nat.add_sub_cancel' hij]⟩
  have hupto : ∀ d, d ≤ Nat.find hex → P (i + d) := by
    intro d
    induction d with
    | zero => exact fun _ => hi
    | succ d ih =>
      intro hd
      exact hstay (i + d) (Nat.le_add_right i d) (ih (Nat.le_of_succ_le hd)) (Nat.find_min hex hd)
  exact ⟨i + Nat.find hex, Nat.le_add_right _ _, hupto _ le_rfl, Nat.find_spec hex⟩

end Execution

/-- A bounded counter that never goes down comes to a halt. -/
theorem exists_constant {f : ℕ → ℕ} (hmono : Monotone f) {bound : ℕ} (hbound : ∀ i, f i < bound)
    (i : ℕ) : ∃ j, i ≤ j ∧ ∀ k, j ≤ k → f k = f j := by
  have hbdd : BddAbove (Set.range f) := ⟨bound, by rintro _ ⟨k, rfl⟩; exact (hbound k).le⟩
  obtain ⟨m, hm⟩ := Nat.sSup_mem (Set.range_nonempty f) hbdd
  refine ⟨max i m, le_max_left _ _, fun k hk => ?_⟩
  have hle : f k ≤ f m := hm ▸ le_csSup hbdd ⟨k, rfl⟩
  exact le_antisymm (hle.trans (hmono (le_max_right i m))) (hmono hk)

end RaiBlocks.Foundation.Machine
