import RaiBlocks.Refinement.Acceptance

/-!
# Rolling back, and histories

A rollback removes a block and what depends on it, nothing else. The tables of
a ledger are a function of its blocks, whatever the history; so processing and
rolling back are inverse, and blocks can be accepted in any order.
-/

namespace RaiBlocks

open Foundation Sample Ledger

variable {p : Env} {U : Set Block} {s : BlockStore}

/-! ## What a rollback removes -/

/-- **Rollback removes exactly the dependents.** In every reachable ledger
rolling back a stored block other than genesis ends without a failed
assertion. The blocks afterwards are those before without `h` and without the
blocks that transitively depend on `h`. Genesis stays. -/
theorem rollback_removes_dependents (hass : HashAssumptions p U) (hs : Reachable p U s)
    {h : BlockHash} (hh : s.blockExists h = true) (hg : h ≠ p.genesisHash) (now : ℕ) :
    ∃ s', rollback p now s h = .ok s' ∧
      (∀ x b, s'.blockGet x = some b ↔
        s.blockGet x = some b ∧ ¬ BlockSet.Dependents p s.blockGet x h) ∧
      s'.blockExists p.genesisHash = true := by
  obtain ⟨Λ, hv⟩ := Reachable.valid hass s hs
  obtain ⟨s', Λ', hrun, hv', ht, hgone⟩ := hv.rollback hass hh hg now
  refine ⟨s', hrun, fun x b => ?_, hv'.refines.blocks.blockExists_true Λ'.genesis⟩
  rw [hv.refines.blockGet_eq, hv'.refines.blockGet_eq, Lattice.dependents_iff]
  constructor
  · intro hb
    obtain ⟨e, he, rfl⟩ := Lattice.of_blocks hb
    obtain ⟨hx, hrest⟩ := (ht.entry_iff hgone).mp he
    exact ⟨Lattice.blocks_some hx, hrest⟩
  · rintro ⟨hb, hrest⟩
    obtain ⟨e, he, rfl⟩ := Lattice.of_blocks hb
    exact Lattice.blocks_some ((ht.entry_iff hgone).mpr ⟨he, hrest⟩)

/-- The send can be rolled back although another account has received it. -/
theorem rollback_removes_dependents_sample :
    ∃ s', rollback env 3 store sendHash = .ok s' ∧
      s'.blockExists env.genesisHash = true := by
  obtain ⟨s', hrun, _, hgenesis⟩ := rollback_removes_dependents assumptions reachable
    (h := sendHash) send_stored.1 send_stored.2.1 3
  exact ⟨s', hrun, hgenesis⟩

/-! ## The tables are a function of the blocks -/

/-- **The ledger is a function of its blocks.** Two reachable ledgers with the
same stored blocks agree on the account rows up to `modified`, the frontiers,
the pending entries, the successors and the weights. In particular processing a
block with result `progress` and rolling it back restores them all, and two
orders of accepting the same blocks lead to the same tables. -/
theorem tables_determined (hass : HashAssumptions p U) (hs : Reachable p U s) :
    (∀ s', Reachable p U s' → (∀ h, s.blockGet h = s'.blockGet h) → SameTables s s') ∧
    (∀ now now' s₁ ret, ∀ b ∈ U, process p now s b = .ok (s₁, ret) → ret.code = .progress →
      ∃ s₂, rollback p now' s₁ (b.hash p) = .ok s₂ ∧ SameTables s s₂) ∧
    ∀ (blocks blocks' : List (ℕ × Block)) (s₁ s₂ : BlockStore) (codes codes' : List ProcessResult),
      (∀ x ∈ blocks, x.2 ∈ U) → (blocks.map Prod.snd).Perm (blocks'.map Prod.snd) →
      processAll p s blocks = .ok (s₁, codes) → (∀ c ∈ codes, c = .progress) →
      processAll p s blocks' = .ok (s₂, codes') → (∀ c ∈ codes', c = .progress) →
      SameTables s₁ s₂ := by
  obtain ⟨Λ, hv⟩ := Reachable.valid hass s hs
  refine ⟨fun s' hs' hblocks => ?_, fun now now' s₁ ret b hU hrun hcode => ?_,
    fun blocks blocks' s₁ s₂ codes codes' hU hperm hrun₁ hcodes₁ hrun₂ hcodes₂ => ?_⟩
  · obtain ⟨Λ', hv'⟩ := Reachable.valid hass s' hs'
    exact hv.sameTables hv' (funext hblocks)
  · obtain ⟨e, ad, hblock, hv₁⟩ := hv.progress hass hU hrun hcode
    obtain ⟨s₂, Λ₂, hrun₂, hv₂, ht, hgone⟩ := hv₁.rollback hass
      (hv₁.refines.blocks.blockExists_true (Lattice.insert_entry_self ad))
      (ad.ne_of_stored Λ.genesis).symm now'
    refine ⟨s₂, hrun₂, hv.sameTables hv₂ ?_⟩
    rw [hv.refines.blockGet_eq, hv₂.refines.blockGet_eq, ad.trimmed_blocks ht hgone]
  · have hU' : ∀ x ∈ blocks', x.2 ∈ U := by
      intro x hx
      obtain ⟨y, hy, heq⟩ := List.mem_map.mp (hperm.mem_iff.mpr (List.mem_map_of_mem hx))
      exact heq ▸ hU y hy
    obtain ⟨Λ₁, hv₁, hiff₁⟩ := hv.processAll hass hU hrun₁ hcodes₁
    obtain ⟨Λ₂, hv₂, hiff₂⟩ := hv.processAll hass hU' hrun₂ hcodes₂
    refine hv₁.sameTables hv₂ ?_
    rw [hv₁.refines.blockGet_eq, hv₂.refines.blockGet_eq]
    funext x
    refine Option.ext fun b => ?_
    rw [hiff₁, hiff₂, hperm.mem_iff]

/-- Processing the send on the genesis ledger and rolling it back. -/
theorem tables_determined_sample :
    ∃ s₁ s₂ ret, process env 1 first send = .ok (s₁, ret) ∧
      rollback env 2 s₁ (send.hash env) = .ok s₂ ∧
      SameTables first s₂ := by
  have hrun := eq_ok_getD (x := process env 1 first send)
    (by decide +kernel) (.empty, .of .old)
  obtain ⟨s₂, hback, hsame⟩ := (tables_determined assumptions first_reachable).2.1
    1 2 _ _ send send_mem hrun (by decide +kernel)
  exact ⟨_, s₂, _, hrun, hback, hsame⟩

end RaiBlocks
