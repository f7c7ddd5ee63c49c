import RaiBlocks.Ledger.Trapping
import RaiBlocks.Refinement.Determined

/-!
# Money and weights

In every reachable ledger the accounts and the pending table together hold
exactly the supply, no balance arithmetic wraps, and the representation table
holds the exact weights.
-/

namespace RaiBlocks

open Foundation Ledger Sample Reachable

variable {p : Env} {U : Set Block} {s : BlockStore}

/-! ## Supply -/

/-- Hashing does not depend on how arithmetic is done. -/
theorem HashAssumptions.trapping (hass : HashAssumptions p U) : HashAssumptions p.trapping U :=
  ⟨hass.genesis_mem, hass.collision_free, hass.ne_zero, hass.ne_one, hass.ne_account⟩

/-- With checked arithmetic a reachable ledger faults neither when it processes
a block nor when it rolls one back, and both do what they do without. -/
theorem Ledger.Reachable.checked (hass : HashAssumptions p U)
    (hs : Reachable p.trapping U s) :
    (∀ now, ∀ b ∈ U, ∃ r, process p.trapping now s b = .ok r ∧ process p now s b = .ok r) ∧
    ∀ now h, s.blockExists h = true → h ≠ p.genesisHash →
      ∃ s', rollback p.trapping now s h = .ok s' ∧ rollback p now s h = .ok s' := by
  obtain ⟨Λ, hv⟩ := valid hass.trapping s hs
  constructor
  · intro now b hU
    obtain ⟨r, hrun, _⟩ := hv.process hass.trapping hU now
    exact ⟨r, hrun, process_trapping now b r hrun⟩
  · intro now h hh hg
    obtain ⟨s', _, hrun, _⟩ := hv.rollback hass.trapping hh hg now
    exact ⟨s', hrun, rollback_trapping now h s' hrun⟩

/-- The stores reached are the same with checked arithmetic. -/
theorem Ledger.Reachable.trapping (hass : HashAssumptions p U) :
    ∀ s, Reachable p U s → Reachable p.trapping U s := by
  refine induction ?_ ?_
  · intro now s hinit
    exact ⟨now, s, hinit, .refl⟩
  · intro s s' _ hs hstep
    obtain ⟨hprocess, hrollback⟩ := checked hass hs
    cases hstep with
    | process now hU hrun =>
      obtain ⟨r, hchecked, hplain⟩ := hprocess now _ hU
      obtain rfl := Except.ok.inj (hplain.symm.trans hrun)
      exact hs.step (.process now hU hchecked)
    | rollback now hh hg hrun =>
      obtain ⟨r, hchecked, hplain⟩ := hrollback now _ hh hg
      obtain rfl := Except.ok.inj (hplain.symm.trans hrun)
      exact hs.step (.rollback now hh hg hchecked)

/-- **Conservation of supply.** In every reachable ledger the account balances
and the pending amounts add up to 2^128 - 1, as exact numbers. No addition or
subtraction of balances wraps: processing any block and rolling back any stored
block but genesis succeed with checked arithmetic, with the same result. -/
theorem supply_conserved (hass : HashAssumptions p U) (hs : Reachable p U s) :
    totalBalance s.accounts + totalPending s.pending = 2 ^ 128 - 1 ∧
    (∀ now, ∀ b ∈ U, ∃ r, process p.trapping now s b = .ok r ∧ process p now s b = .ok r) ∧
    ∀ now h, s.blockExists h = true → h ≠ p.genesisHash →
      ∃ s', rollback p.trapping now s h = .ok s' ∧ rollback p now s h = .ok s' := by
  obtain ⟨Λ, hv⟩ := valid hass s hs
  exact ⟨hv.supply, checked hass (trapping hass s hs)⟩

theorem supply_conserved_sample :
    totalBalance store.accounts + totalPending store.pending = 2 ^ 128 - 1 ∧
    ∃ s', rollback env.trapping 3 store sendHash = .ok s' := by
  obtain ⟨hsupply, _, hrollback⟩ := supply_conserved assumptions reachable
  obtain ⟨s', hrun, _⟩ := hrollback 3 sendHash send_stored.1
    send_stored.2.1
  exact ⟨hsupply, s', hrun⟩

/-! ## Weights -/

/-- **Representation weights are exact.** In every reachable ledger
`representation_get (r)` is the sum of the balances of exactly the accounts
whose representative block is a stored block with representative `r`. Hence the
weights of all representatives add up to the balances of all accounts. -/
theorem representation_exact (hass : HashAssumptions p U) (hs : Reachable p U s) :
    (∀ r, (s.representationGet r).toNat = s.weightOf r) ∧
    (s.representation.sum fun _ weight => weight.toNat) = totalBalance s.accounts := by
  obtain ⟨Λ, hv⟩ := valid hass s hs
  refine ⟨hv.representationGet, ?_⟩
  refine Table.sum_partition
    (fun info : AccountInfo => (s.blockGet info.repBlock).map Block.representative)
    (fun info => info.balance.toNat) BitVec.toNat (fun r => ?_) fun a info hi => ?_
  · rw [show Table.sum s.accounts _ = s.weightOf r from rfl, ← hv.representationGet]
    unfold BlockStore.representationGet
    cases s.representation.lookup r with
    | none => rfl
    | some w => rfl
  · -- every account has a representative block
    obtain ⟨e, hd⟩ := hv.refines.accounts.sound hi
    obtain ⟨rep, hrep, _⟩ := Lattice.rep_entry _ e hd.head
    rw [hd.rep, hv.refines.blocks.blockGet_some hrep]
    exact ⟨_, rfl⟩

theorem representation_exact_sample :
    (store.representationGet account).toNat = store.weightOf account ∧
    (store.representation.sum fun _ weight => weight.toNat) =
      totalBalance store.accounts := by
  obtain ⟨hweight, hsum⟩ := representation_exact assumptions reachable
  exact ⟨hweight _, hsum⟩

end RaiBlocks
