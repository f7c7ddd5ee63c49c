import RaiBlocks.Refinement.Reachable
import RaiBlocks.Spec.Validity

/-!
# The opponent of a fork

What `ledger::forked_block` finds, in terms of the lattice. It asserts that there is something
to find, and for a state block on top of another account's chain there is not.
-/

namespace RaiBlocks

open Foundation

variable {p : Env} {U : Set Block} {s : BlockStore} {Λ : Lattice p}

/-- The block `c` stands where `b` wants to be. -/
structure Opponent (p : Env) (s : BlockStore) (b c : Block) : Prop where
  stored : s.blockGet (c.hash p) = some c
  root : c.root = b.root
  ne : c.hash p ≠ b.hash p

/-- The place of `b` is a state block's on top of the last block of a chain. -/
def StateOnLast (s : BlockStore) (b : Block) : Prop :=
  b.isLegacy = false ∧ s.blockExists b.previous = true ∧ BlockSet.Last s.blockGet b.previous

theorem Lattice.opponent (hr : Refines U s Λ) {b : Block} {x : BlockHash} {e : Entry}
    (hfresh : Λ.entry (b.hash p) = none) (he : Λ.entry x = some e)
    (hroot : e.block.root = b.root) : Opponent p s b e.block := by
  refine ⟨?_, hroot, fun heq => ?_⟩
  · rw [Λ.hash_eq he]
    exact hr.blocks.blockGet_some he
  · rw [← heq, Λ.hash_eq he, he] at hfresh
    cases hfresh

section Fork

variable (hr : Refines U s Λ) {b : Block} (hfresh : Λ.entry (b.hash p) = none)

include hr hfresh

/-- The predecessor has a successor: that is the opponent. -/
theorem forkedBlock_followed {q : Entry} (hq : Λ.entry b.previous = some q)
    (hh : ¬ Λ.IsHead b.previous) :
    ∃ c, Ledger.forkedBlock p s b = .ok c ∧ Opponent p s b c := by
  obtain ⟨y, ey, hy, hp⟩ := Lattice.exists_next_of_not_isHead hh
  have hroot : b.root = b.previous := Block.root_of_previous_ne (Λ.ne_zero hq)
  have hsucc := hr.blocks.successor_of_previous hy hp (Λ.ne_zero hq)
  refine ⟨ey.block, ?_, Lattice.opponent hr hfresh hy ?_⟩
  · unfold Ledger.forkedBlock
    dsimp only
    rw [hroot, hr.blocks.blockExists_false hfresh, hr.blocks.blockExists_true hq, Bool.true_or,
      hsucc, hr.blocks.blockGet_some hy]
    rfl
  · rw [hroot, Block.root_of_previous_ne (hp ▸ Λ.ne_zero hq), hp]

/-- The account is open: its first block is the opponent. -/
theorem forkedBlock_opened (hass : HashAssumptions p U) (hU : b ∈ U) {a : Account}
    (hp : b.previous = 0) (ha : b.account? = some a) (hopen : ¬ Λ.Unopened a) :
    ∃ c, Ledger.forkedBlock p s b = .ok c ∧ Opponent p s b c := by
  have hroot : b.root = a := Block.root_of_previous_eq hp ha
  have hunstored := hr.account_unstored hass hU ha
  cases hi : s.accountGet a with
  | none => exact absurd (hr.accounts.lookup_none_iff.mp hi) hopen
  | some info =>
    obtain ⟨e, hd⟩ := hr.accounts.sound hi
    obtain ⟨o, ho, hown, hp'⟩ := hd.opened
    refine ⟨o.block, ?_, Lattice.opponent hr hfresh ho ?_⟩
    · unfold Ledger.forkedBlock
      dsimp only
      have hexists : s.accountExists a = true := by
        unfold BlockStore.accountExists
        rw [show s.accounts.lookup a = some info from hi]
        rfl
      rw [hroot, hr.blocks.blockExists_false hfresh, hexists, Bool.or_true,
        hr.blocks.blockSuccessor_none hunstored, hr.blocks.blockGet, Λ.entry_zero, hi]
      dsimp only [Option.map_none]
      rw [hr.blocks.blockGet_some ho]
      rfl
    · rw [hroot, (Lattice.first_of_previous_eq ho hp').root, hown]

/-- A state block on top of another account's head: there is no successor and
no account to look up. -/
theorem forkedBlock_foreign {q : Entry} (hq : Λ.entry b.previous = some q)
    (hh : Λ.IsHead b.previous) : Ledger.forkedBlock p s b = .error .assertion := by
  have hroot : b.root = b.previous := Block.root_of_previous_ne (Λ.ne_zero hq)
  have hnone : s.accountGet b.previous = none := by
    refine hr.accounts.lookup_none_iff.mpr fun x ex hx hown => ?_
    rw [← hown, Λ.owner_unstored hx] at hq
    cases hq
  unfold Ledger.forkedBlock
  dsimp only
  rw [hroot, hr.blocks.blockExists_false hfresh, hr.blocks.blockExists_true hq, Bool.true_or,
    hr.blocks.successor_of_isHead hq hh, hr.blocks.blockGet, Λ.entry_zero, hnone]
  rfl

end Fork

end RaiBlocks
