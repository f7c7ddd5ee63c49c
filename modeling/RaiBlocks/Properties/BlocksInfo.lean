import RaiBlocks.Refinement.Tower

/-!
# The block info table

`change_latest` writes a row for every block at a position divisible by 32, unless
it is told that the block is a state block, and the rollback of one of the older
kinds deletes the row again. Rolling back a state block calls `change_latest` for
its predecessor without saying what that is, so a row appears if the predecessor
is a state block as well, and nothing deletes it.
-/

namespace RaiBlocks

open Foundation Tower Ledger

variable {p : Env} {U : Set Block} {s : BlockStore}

/-- A call that uncovers no state block. -/
def Ledger.Call.Covered {p : Env} {U : Set Block} (s : BlockStore) : Ledger.Call p U → Prop
  | .process .. => True
  | .rollback _ h _ => ¬ Uncovers p s h

/-- **When the block info table is exact.** In a run that starts with
`genesis::initialize`, the table is exact at every point if and only if no rollback
uncovers a state block at a position divisible by 32. -/
theorem block_info_exact_iff (hass : HashAssumptions p U) {now : ℕ}
    (hinit : genesisInitialize p now .empty = .ok s) (calls : List (Ledger.Call p U)) :
    Machine.Always Ledger.Call.apply (InfoExact p) s calls ↔
      Machine.Guarded Ledger.Call.apply Ledger.Call.Covered s calls := by
  refine Machine.always_iff_guarded (I := Reachable p U)
    (fun s c s' hs hrun => hs.step (Ledger.Call.step hrun)) ?_ ⟨now, s, hinit, .refl⟩
    (infoExact_genesis hass hinit) calls
  intro s c hs hexact
  obtain ⟨Λ, hv⟩ := Reachable.valid hass s hs
  cases c with
  | process now b hb =>
    refine iff_of_true trivial fun s' hrun => ?_
    obtain ⟨r, hprocess, hrun⟩ := bind_eq_ok hrun
    obtain rfl := Except.ok.inj hrun
    exact hv.infoExact_process hass hexact hb hprocess
  | rollback now h hg =>
    constructor
    · intro hcovered s' hrun
      exact (hv.infoExact_rollback_iff hass hexact hg hrun).mpr hcovered
    · intro hall hun
      -- only a stored block uncovers anything, and a stored block can be rolled back
      obtain ⟨x, e, _, hrest, he, _⟩ := hv.refines.uncovers_iff.mp hun
      obtain ⟨eh, heh⟩ := hrest.stored he
      obtain ⟨s', _, hrun, _⟩ := hv.rollback hass (hv.refines.blocks.blockExists_true heh) hg now
      exact (hv.infoExact_rollback_iff hass hexact hg hrun).mp (hall s' hrun) hun

/-- A tower of 33 blocks is built and its last block is rolled back. The block at
position 32 is a state block, and has a row now. -/
theorem block_info_left_behind : ∃ s₀ s s', genesisInitialize env 0 .empty = .ok s₀ ∧
    Machine.run Ledger.Call.apply s₀ (build .still 32 (by decide)) = .ok s ∧
    InfoExact env s ∧ rollback env 0 s (hash 32) = .ok s' ∧
    s'.blockGet (hash 31) = some (block .still 31) ∧
    (s'.blockInfoGet (hash 31)).isSome = true ∧ ¬ InfoExact env s' := by
  obtain ⟨s₀, Λ₀, hinit, h₀⟩ := first_built .still
  obtain ⟨s, Λ, hrun, hb⟩ := run_build h₀ 32 (by decide)
  obtain ⟨s', hrollback, -, hblock, hrow⟩ := hb.rollback (by decide)
  refine ⟨s₀, s, s', hinit, hrun, hb.exact, hrollback, hblock, hrow (by decide), fun hexact => ?_⟩
  obtain ⟨info, hinfo⟩ := Option.isSome_iff_exists.mp (hrow (by decide))
  obtain ⟨b, hb, hlegacy⟩ := ((hexact _ _).mp hinfo).legacy
  obtain rfl := Option.some.inj (hblock.symm.trans hb)
  cases hlegacy

/-- A tower of 41 blocks is built, with a state block at position 32, and its last block is
rolled back. -/
theorem block_info_exact_iff_high : ∃ s₀, genesisInitialize env 0 .empty = .ok s₀ ∧
    Machine.Always Ledger.Call.apply (InfoExact env) s₀
      (build .still 40 (by decide) ++
        [.rollback 0 (hash 40) (hash_ne_genesis (by decide) (by decide))]) := by
  obtain ⟨s₀, Λ₀, hinit, h₀⟩ := first_built .still
  obtain ⟨s, Λ, hrun, hb⟩ := run_build h₀ 40 (by decide)
  refine ⟨s₀, hinit, (block_info_exact_iff (assumptions .still) hinit _).mpr ?_⟩
  refine (Machine.guarded_append_iff hrun).mpr ⟨.of_forall fun c hc s => ?_, ?_, fun _ _ => trivial⟩
  · obtain ⟨b, hU, rfl⟩ := of_mem_build hc
    exact trivial
  · exact hb.not_uncovers (by decide) (by decide)

end RaiBlocks
