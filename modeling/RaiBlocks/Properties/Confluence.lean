import RaiBlocks.Refinement.Agreement

/-!
# Ledgers that grow apart and together

Which blocks a ledger can still take in does not depend on its history, nor on how far it has grown:
a block that was acceptable once stays so until a block that conflicts with it is stored. Two
ledgers without conflicts can be brought together by processing blocks, and two with a conflict
cannot.
-/

namespace RaiBlocks

open Foundation Sample Ledger RaiBlocks.Lattice Reachable

variable {p : Env} {U : Set Block} {s s' t : BlockStore} {b : Block}

/-- **When two ledgers can be brought together.** Two reachable ledgers have no conflict exactly if
the blocks that one of them lacks can be listed so that it accepts them all, one after the other
and at any times, and then has the blocks of both. -/
theorem ledgers_merge_iff (hass : HashAssumptions p U) (hs : Reachable p U s)
    (ht : Reachable p U t) :
    BlockSet.Compatible p s.blockGet t.blockGet ↔
      ∃ order : List Block, (∀ b, b ∈ order ↔ t.blockGet (b.hash p) = some b ∧
          s.blockExists (b.hash p) = false) ∧
        ∀ stamped : List (ℕ × Block), stamped.map Prod.snd = order →
          ∃ u codes, processAll p s stamped = .ok (u, codes) ∧ (∀ c ∈ codes, c = .progress) ∧
            ∀ h b, u.blockGet h = some b ↔ s.blockGet h = some b ∨ t.blockGet h = some b := by
  obtain ⟨Λ₁, hv₁⟩ := valid hass s hs
  obtain ⟨Λ₂, hv₂⟩ := valid hass t ht
  rw [← hv₁.agree_iff hass hv₂]
  constructor
  · intro ha
    have hU : ∀ {h e}, ha.union.entry h = some e → e.block ∈ U := fun he =>
      (ha.either_iff.mp he).elim hv₁.refines.known hv₂.refines.known
    obtain ⟨order, hext, hgrows⟩ := hv₁.grows hass ha.within_left hU
    refine ⟨order, fun b => hv₁.lacks_iff hv₂ ha hext, fun stamped hst => ?_⟩
    obtain ⟨u, codes, hrun, hcodes, hv⟩ := hgrows stamped hst
    refine ⟨u, codes, hrun, hcodes, fun h b => ?_⟩
    rw [hv.refines.blockGet_eq, hv₁.refines.blockGet_eq, hv₂.refines.blockGet_eq]
    exact ha.union_blocks
  · rintro ⟨order, hmem, hgrows⟩
    obtain ⟨u, codes, hrun, -, hblocks⟩ := hgrows (order.map fun b => (0, b)) (by simp)
    have hu : Reachable p U u := by
      refine hs.processAll (fun x hx => ?_) hrun
      obtain ⟨b, hb, rfl⟩ := List.mem_map.mp hx
      obtain ⟨e, he, rfl⟩ := hv₂.refines.stored_iff.mp ((hmem b).mp hb).1
      exact hv₂.refines.known he
    obtain ⟨Λ, hv⟩ := valid hass u hu
    exact agree_of_within (hv₁.within hv fun h b hb => (hblocks h b).mpr (.inl hb))
      (hv₂.within hv fun h b hb => (hblocks h b).mpr (.inr hb))

/-- The genesis ledger takes in what the sample has. -/
theorem ledgers_merge_iff_sample :
    ∃ order u codes, processAll env first order = .ok (u, codes) ∧
      u.blockGet openHash = some opens := by
  obtain ⟨order, -, hrun⟩ := (ledgers_merge_iff assumptions first_reachable
    reachable).mp compatible
  obtain ⟨u, codes, hrun, -, hblocks⟩ := hrun (order.map fun b => (3, b)) (by simp)
  exact ⟨_, u, codes, hrun, (hblocks _ _).mpr (.inr open_stored.2)⟩

/-- **Every ledger can be replayed.** From any reachable ledger whose blocks a reachable ledger has,
for instance from the genesis block or from what a rollback has left, the missing blocks can be
listed so that all of them are accepted again, at any times, and all tables are restored. -/
theorem ledger_replays {s₀ : BlockStore} (hass : HashAssumptions p U)
    (hs₀ : Reachable p U s₀) (hs : Reachable p U s)
    (hsub : ∀ h b, s₀.blockGet h = some b → s.blockGet h = some b) :
    ∃ order : List Block, (∀ b, b ∈ order ↔ s.blockGet (b.hash p) = some b ∧
        s₀.blockExists (b.hash p) = false) ∧
      ∀ stamped : List (ℕ × Block), stamped.map Prod.snd = order →
        ∃ u codes, processAll p s₀ stamped = .ok (u, codes) ∧
          (∀ c ∈ codes, c = .progress) ∧ (∀ h, u.blockGet h = s.blockGet h) ∧ SameTables s u := by
  obtain ⟨Λ₀, hv₀⟩ := valid hass s₀ hs₀
  obtain ⟨Λ, hv⟩ := valid hass s hs
  obtain ⟨order, hext, hgrows⟩ := hv₀.grows hass (hv₀.within hv hsub) hv.refines.known
  refine ⟨order, fun b => ?_, fun stamped hst => ?_⟩
  · rw [hext.mem_iff, hv.refines.stored_iff, hv₀.refines.unstored_iff, and_comm]
  · obtain ⟨u, codes, hrun, hcodes, hv'⟩ := hgrows stamped hst
    have hblocks : s.blockGet = u.blockGet := by
      rw [hv.refines.blockGet_eq, hv'.refines.blockGet_eq]
    exact ⟨u, codes, hrun, hcodes, fun h => (congrFun hblocks h).symm, hv.sameTables hv' hblocks⟩

/-- The blocks of the sample, from the genesis block on. -/
theorem ledger_replays_sample :
    ∃ order : List Block, send ∈ order ∧ ∀ stamped : List (ℕ × Block),
      stamped.map Prod.snd = order → ∃ u codes, processAll env first stamped = .ok (u, codes) ∧
        SameTables store u := by
  obtain ⟨order, hmem, hreplay⟩ := ledger_replays assumptions first_reachable
    reachable first_subset
  refine ⟨order, (hmem _).mpr (by decide +kernel), fun stamped hst => ?_⟩
  obtain ⟨u, codes, hrun, -, -, hsame⟩ := hreplay stamped hst
  exact ⟨u, codes, hrun, hsame⟩

/-- **A valid block stays valid until a conflict is stored.** Let a reachable ledger accept a block.
A larger reachable ledger accepts it exactly if it does not have the block yet and none of its
blocks is in conflict with it. Nothing else that has happened in between matters. -/
theorem validity_persists (hass : HashAssumptions p U) (hs : Reachable p U s)
    (ht : Reachable p U t) (hst : ∀ h b, s.blockGet h = some b → t.blockGet h = some b)
    (hU : b ∈ U) {now : ℕ} {ret : ProcessReturn}
    (hrun : process p now s b = .ok (s', ret)) (hcode : ret.code = .progress) (later : ℕ) :
    ∃ t' ret', process p later t b = .ok (t', ret') ∧
      (ret'.code = .progress ↔ t.blockExists (b.hash p) = false ∧
        ∀ c, t.blockGet (c.hash p) = some c →
          ¬ BlockSet.Conflict p s'.blockGet t.blockGet b c) := by
  obtain ⟨Λ, hv⟩ := valid hass s hs
  obtain ⟨Λ₂, hv₂⟩ := valid hass t ht
  obtain ⟨e, ad, rfl, hv'⟩ := hv.progress hass hU hrun hcode
  have hself := insert_entry_self ad
  have hsub := hv.within hv₂ hst
  obtain ⟨⟨t', ret'⟩, hrun₂, hout⟩ := hv₂.process hass hU later
  refine ⟨t', ret', hrun₂, ?_⟩
  constructor
  · intro hcode'
    obtain ⟨e', ad', hblock, hv₂'⟩ := hv₂.progress hass hU hrun₂ hcode'
    have hgrown := within_insert ad'
    have hall : (Λ.insert ad).Within (Λ₂.insert ad') := by
      refine within_of_blocks fun x c hc => ?_
      rcases (insert_blocks ad).mp hc with hc | ⟨rfl, rfl⟩
      · obtain ⟨q, hq, rfl⟩ := of_blocks hc
        exact blocks_some (hgrown (hsub hq))
      · exact (blocks_some (insert_entry_self ad')).trans (congrArg some hblock)
    refine ⟨hv₂.refines.unstored_iff.mpr ad'.fresh, fun c hc => ?_⟩
    exact (hv'.agree_iff hass hv₂).mp (agree_of_within hall hgrown) _ c
      (hv'.refines.stored_iff.mpr ⟨e, hself, rfl⟩) hc
  · rintro ⟨hfresh, hno⟩
    -- the blocks below were there before, and did not stand against each other
    have hcompatible : BlockSet.Compatible p s'.blockGet t.blockGet := by
      rintro x c hx hc ⟨hne, hconf⟩
      by_cases hxe : x = e.block
      · subst hxe
        exact hno c hc ⟨hne, hconf⟩
      rw [hv'.refines.blockGet_eq] at hx hconf
      have hx' : Λ.blocks (x.hash p) = some x :=
        ((insert_blocks ad).mp hx).resolve_right fun h => hxe h.1.symm
      rw [← hv.refines.blockGet_eq] at hx'
      refine (hv.agree_iff hass hv₂).mp (agree_of_within hsub (.refl _)) x c hx' hc
        ⟨hne, hconf.imp_right (Or.imp_right fun ⟨y, hy, hy'⟩ => ⟨y, ?_, hy'⟩)⟩
      obtain ⟨q, hq, hrec⟩ := receives_iff.mp hy
      obtain ⟨q', hq', -⟩ := hv.refines.stored_iff.mp hx'
      rw [insert_entry_of_stored ad hq'] at hq
      rw [hv.refines.blockGet_eq]
      exact receives_iff.mpr ⟨q, hq ▸ hq', hrec⟩
    have ha := (hv'.agree_iff hass hv₂).mpr hcompatible
    have hfresh₂ := hv₂.refines.unstored_iff.mp hfresh
    have ad₂ : Λ₂.Admissible (e.block.hash p) e := by
      refine ha.within_right.admissible (ha.within_left hself) hfresh₂ fun x h0 hd => ?_
      obtain ⟨q, hq⟩ := dep_of_dependsOn hself hd h0
      have hx : x ≠ e.block.hash p := by
        rintro rfl
        exact lt_irrefl _ (Dep.rank_lt ⟨e, e, hself, hself, hd⟩ hself hself)
      rw [insert_entry_of_ne ad hx] at hq
      exact ⟨q, hsub hq⟩
    cases hout with
    | refused _ hnone _ => exact absurd ad₂ (hnone e rfl)
    | accepted _ _ hcode' => exact hcode'

/-- The rival of the send is valid at first, and no longer when the send is stored. -/
theorem validity_persists_rival :
    ∃ t' ret', process env 4 store rival = .ok (t', ret') ∧
      ret'.code ≠ .progress := by
  have hrun := eq_ok_getD (x := process env 3 first rival)
    (by decide +kernel) (.empty, .of .old)
  obtain ⟨t', ret', hrun', hiff⟩ := validity_persists assumptions first_reachable
    reachable first_subset rival_mem hrun (by decide +kernel) 4
  refine ⟨t', ret', hrun', fun hcode => ?_⟩
  exact (hiff.mp hcode).2 send (by decide +kernel) ⟨by decide, .inr (.inl rfl)⟩

end RaiBlocks
