import RaiBlocks.Lattice.Union
import RaiBlocks.Refinement.Acceptance

/-!
# Ledgers without conflicts

Two lattices agree if no block of one is in conflict with a block of the other. Then they have a
union, and a ledger that refines one of them can be grown to it.
-/

namespace RaiBlocks

open Foundation RaiBlocks.Lattice

namespace BlockSet

variable (p : Env) (S S' : BlockSet)

/-- A block of one set and a block of another one that cannot be in the same ledger: two blocks with
one hash, in one place, or for one send. -/
def Conflict (b c : Block) : Prop :=
  b ≠ c ∧ (b.hash p = c.hash p ∨ b.root = c.root ∨
    ∃ x, Receives p S (b.hash p) x ∧ Receives p S' (c.hash p) x)

/-- No block of one set is in conflict with a block of the other. -/
def Compatible : Prop :=
  ∀ b c, S (b.hash p) = some b → S' (c.hash p) = some c → ¬ Conflict p S S' b c

end BlockSet

variable {p : Env} {U : Set Block} {s s' t : BlockStore} {Λ Λ' Λ₁ Λ₂ : Lattice p} {b : Block}

/-- Inclusion of the stored blocks is inclusion of the lattices. -/
theorem Valid.within (hv : Valid U s Λ₁) (hv' : Valid U t Λ₂)
    (hst : ∀ h b, s.blockGet h = some b → t.blockGet h = some b) : Λ₁.Within Λ₂ := by
  rw [hv.refines.blockGet_eq, hv'.refines.blockGet_eq] at hst
  exact within_of_blocks hst

theorem Refines.stored_iff (hr : Refines U s Λ) : s.blockGet (b.hash p) = some b ↔
    ∃ e, Λ.entry (b.hash p) = some e ∧ e.block = b := by
  rw [hr.blockGet_eq]
  constructor
  · exact of_blocks
  · rintro ⟨e, he, rfl⟩
    exact blocks_some he

theorem Refines.unstored_iff (hr : Refines U s Λ) {h : BlockHash} :
    s.blockExists h = false ↔ Λ.entry h = none := by
  rw [hr.blocks.blockExists]
  exact Option.isSome_eq_false_iff.trans Option.isNone_iff_eq_none

/-! ## Conflicts -/

theorem Valid.agree_iff (hass : HashAssumptions p U) (hv : Valid U s Λ₁) (hv' : Valid U t Λ₂) :
    Λ₁.Agree Λ₂ ↔ BlockSet.Compatible p s.blockGet t.blockGet := by
  rw [hv.refines.blockGet_eq, hv'.refines.blockGet_eq]
  constructor
  · rintro ha b c hb hc ⟨hne, hconf⟩
    obtain ⟨e, he, rfl⟩ := of_blocks hb
    obtain ⟨e', he', rfl⟩ := of_blocks hc
    have hsame : e.block.hash p ≠ e'.block.hash p := fun heq => hne (ha.hash he (heq ▸ he'))
    rcases hconf with heq | hroot | ⟨x, hx, hx'⟩
    · exact hsame heq
    · exact hsame (ha.root he he' hroot)
    · obtain ⟨q, hq, hx⟩ := receives_iff.mp hx
      obtain ⟨q', hq', hx'⟩ := receives_iff.mp hx'
      exact hsame (ha.source hq hq' hx hx')
  · intro hc
    have heq : ∀ {h h' e e'}, Λ₁.entry h = some e → Λ₂.entry h' = some e' →
        (e.block.hash p = e'.block.hash p ∨ e.block.root = e'.block.root ∨
          ∃ x, Λ₁.blocks.Receives p (e.block.hash p) x ∧
            Λ₂.blocks.Receives p (e'.block.hash p) x) → e.block = e'.block := by
      intro h h' e e' he he' hconf
      by_contra hne
      have hb := blocks_some he
      have hb' := blocks_some he'
      rw [← Λ₁.hash_eq he] at hb
      rw [← Λ₂.hash_eq he'] at hb'
      exact hc _ _ hb hb' ⟨hne, hconf⟩
    have hash : ∀ {h h' e e'}, Λ₁.entry h = some e → Λ₂.entry h' = some e' →
        e.block = e'.block → h = h' := fun he he' hblock => by
      rw [← Λ₁.hash_eq he, ← Λ₂.hash_eq he', hblock]
    refine ⟨fun he he' => heq he he' (.inl ((Λ₁.hash_eq he).trans (Λ₂.hash_eq he').symm)),
      fun he he' hroot => hash he he' (heq he he' (.inr (.inl hroot))), ?_, ?_, ?_⟩
    · intro h h' e e' x he he' hx hx'
      refine hash he he' (heq he he' (.inr (.inr ⟨x, ?_, ?_⟩)))
      · exact receives_iff.mpr ⟨e, (Λ₁.hash_eq he).symm ▸ he, hx⟩
      · exact receives_iff.mpr ⟨e', (Λ₂.hash_eq he').symm ▸ he', hx'⟩
    · intro h e he
      refine Option.eq_none_iff_forall_ne_some.mpr fun q hq => ?_
      exact hv.refines.owner_ne_hash hass (hv'.refines.known hq) he (Λ₂.hash_eq hq).symm
    · intro h e he
      refine Option.eq_none_iff_forall_ne_some.mpr fun q hq => ?_
      exact hv'.refines.owner_ne_hash hass (hv.refines.known hq) he (Λ₁.hash_eq hq).symm

/-! ## Bringing ledgers together -/

section Merge

variable (hass : HashAssumptions p U)

include hass

/-- Blocks that can be added to the lattice are accepted by the ledger. -/
theorem Valid.builds {order : List Block} (hb : Builds Λ order Λ')
    (hU : ∀ b ∈ order, b ∈ U) : ∀ {s}, Valid U s Λ → ∀ stamped : List (ℕ × Block),
    stamped.map Prod.snd = order → ∃ u codes, Ledger.processAll p s stamped = .ok (u, codes) ∧
      (∀ c ∈ codes, c = .progress) ∧ Valid U u Λ' := by
  induction hb with
  | done =>
    intro s hv stamped hst
    obtain rfl := List.map_eq_nil_iff.mp hst
    exact ⟨s, [], rfl, by simp, hv⟩
  | @add Λ Λ' h e l ad _ ih =>
    intro s hv stamped hst
    obtain ⟨⟨now, b⟩, rest, rfl, rfl, hrest⟩ := List.map_eq_cons_iff.mp hst
    obtain rfl := ad.hash_eq
    obtain ⟨r, hrun, hout⟩ := hv.process hass (hU _ List.mem_cons_self) now
    cases hout with
    | refused _ hno _ => exact absurd ad (hno e rfl)
    | @accepted s' ret e' ad' hblock hcode _ _ hins =>
      obtain rfl : e' = e := ad'.justified.unique Λ.entry_zero ad.justified hblock
      obtain ⟨u, codes, hall, hcodes, hv'⟩ := ih (fun b hb => hU b (List.mem_cons_of_mem _ hb))
        (hv.accepted hass ad' (hU _ List.mem_cons_self) hins) rest hrest
      refine ⟨u, ret.code :: codes, ?_, ?_, hv'⟩
      · unfold Ledger.processAll
        rw [hrun, ok_bind]
        dsimp only
        rw [hall, ok_bind]
        rfl
      · simpa [hcode] using hcodes

/-- A ledger grows into a larger one by processing what is missing. -/
theorem Valid.grows (hv : Valid U s Λ) (hsub : Λ.Within Λ') (hU : ∀ {h e}, Λ'.entry h = some e →
    e.block ∈ U) : ∃ order : List Block, Λ.Extends Λ' order ∧
      ∀ stamped : List (ℕ × Block), stamped.map Prod.snd = order →
        ∃ u codes, Ledger.processAll p s stamped = .ok (u, codes) ∧
          (∀ c ∈ codes, c = .progress) ∧ Valid U u Λ' := by
  obtain ⟨order, hb⟩ := hsub.builds
  refine ⟨order, hb.extends, fun stamped => Valid.builds hass hb (fun b hmem => ?_) hv stamped⟩
  obtain ⟨-, e, he, rfl⟩ := hb.extends.added b hmem
  exact hU he

end Merge

theorem Lattice.Extends.mem_iff {l : List Block} (hext : Λ.Extends Λ' l) : b ∈ l ↔
    Λ.entry (b.hash p) = none ∧ ∃ e, Λ'.entry (b.hash p) = some e ∧ e.block = b := by
  refine ⟨hext.added b, ?_⟩
  rintro ⟨hfresh, e, he, rfl⟩
  exact (hext.only _ e he).resolve_left fun hx => by cases hfresh.symm.trans hx

theorem Valid.lacks_iff (hv₁ : Valid U s Λ₁) (hv₂ : Valid U t Λ₂) (ha : Λ₁.Agree Λ₂)
    {l : List Block} (hext : Λ₁.Extends ha.union l) :
    b ∈ l ↔ t.blockGet (b.hash p) = some b ∧ s.blockExists (b.hash p) = false := by
  rw [hext.mem_iff, hv₂.refines.stored_iff, hv₁.refines.unstored_iff, and_comm]
  refine and_congr_left fun hfresh => exists_congr fun e => and_congr_left fun _ => ?_
  exact ha.either_iff.trans (or_iff_right fun he => by cases hfresh.symm.trans he)

namespace Sample

theorem first_subset : ∀ h b, first.blockGet h = some b → store.blockGet h = some b := by
  have hU : ∀ x ∈ [(1, send), (2, opens)], x.2 ∈ all := by simp [all]
  obtain ⟨Λ, hv⟩ := Ledger.Reachable.valid assumptions first first_reachable
  obtain ⟨Λ', hv', hiff⟩ :=
    hv.processAll assumptions hU (eq_ok_getD runs_isOk.2 (.empty, [])) (by decide +kernel)
  intro h b hb
  rw [hv.refines.blockGet_eq] at hb
  exact (congrFun hv'.refines.blockGet_eq h).trans ((hiff h b).mpr (.inl hb))

theorem compatible : BlockSet.Compatible env first.blockGet store.blockGet := by
  obtain ⟨Λ₁, hv₁⟩ := Ledger.Reachable.valid assumptions _ first_reachable
  obtain ⟨Λ₂, hv₂⟩ := Ledger.Reachable.valid assumptions _ reachable
  exact (hv₁.agree_iff assumptions hv₂).mp
    (agree_of_within (hv₁.within hv₂ first_subset) (.refl _))

end Sample

end RaiBlocks
