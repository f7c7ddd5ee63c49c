import RaiBlocks.Lattice.Within
import RaiBlocks.Spec.Bridge

/-!
# The union of two lattices

Two lattices agree if no two blocks of them have one hash, stand in one place or receive one send,
other than a block that is in both. This is said of pairs of blocks only, and it is enough: lattices
that agree give a block in both the same entry, and all their blocks together are a lattice again.
-/

namespace RaiBlocks.Lattice

variable {p : Env} {Λ Λ₁ Λ₂ : Lattice p} {h x : BlockHash} {e e' : Entry}

/-- No block of one lattice stands against a block of the other. -/
structure Agree (Λ₁ Λ₂ : Lattice p) : Prop where
  hash : ∀ {h e e'}, Λ₁.entry h = some e → Λ₂.entry h = some e' → e.block = e'.block
  root : ∀ {h h' e e'}, Λ₁.entry h = some e → Λ₂.entry h' = some e' →
    e.block.root = e'.block.root → h = h'
  source : ∀ {h h' e e' x}, Λ₁.entry h = some e → Λ₂.entry h' = some e' →
    e.receives p = some x → e'.receives p = some x → h = h'
  owner : ∀ {h e}, Λ₁.entry h = some e → Λ₂.entry e.owner = none
  owner' : ∀ {h e}, Λ₂.entry h = some e → Λ₁.entry e.owner = none

/-- A lattice is within another one if its blocks are. -/
theorem within_of_blocks (hb : ∀ h b, Λ₁.blocks h = some b → Λ₂.blocks h = some b) :
    Λ₁.Within Λ₂ := by
  refine rank_induction ?_
  intro h e he ih
  obtain ⟨e', he', hblock⟩ := of_blocks (hb h e.block (blocks_some he))
  have hj : Justified p Λ₂.entry h e := (Λ₁.justified he).transfer fun x q hd hq =>
    ih x q hq (Dep.rank_lt ⟨e, q, he, hq, hd⟩ he hq)
  rw [he', hj.unique Λ₂.entry_zero (Λ₂.justified he') hblock.symm]

theorem agree_of_within (h₁ : Λ₁.Within Λ) (h₂ : Λ₂.Within Λ) : Λ₁.Agree Λ₂ where
  hash he he' := by rw [Option.some.inj ((h₁ he).symm.trans (h₂ he'))]
  root he he' := Λ.root_inj (h₁ he) (h₂ he')
  source he he' := Λ.receives_inj (h₁ he) (h₂ he')
  owner he := Option.eq_none_iff_forall_ne_some.mpr fun q hq =>
    absurd ((Λ.owner_unstored (h₁ he)).symm.trans (h₂ hq)) (Option.some_ne_none q).symm
  owner' he := Option.eq_none_iff_forall_ne_some.mpr fun q hq =>
    absurd ((Λ.owner_unstored (h₂ he)).symm.trans (h₁ hq)) (Option.some_ne_none q).symm

/-! ## One block, one entry -/

/-- What a block receives is in the block, once it is known what was there before. -/
theorem receives_eq (he : Λ₁.entry h = some e) (he' : Λ₂.entry h = some e')
    (hblock : e.block = e'.block) (hprior : e.prior = e'.prior) :
    e.receives p = e'.receives p := by
  unfold Entry.receives
  rw [← hblock, ← hprior]
  cases hb : e.block with
  | stateBlock b =>
    have hbal := (Λ₁.justified he).balance?_toNat (x := b.hashables.balance) (by rw [hb]; rfl)
    have hbal' := (Λ₂.justified he').balance?_toNat (x := b.hashables.balance)
      (by rw [← hblock, hb]; rfl)
    rw [← hbal, ← hbal']
  | _ => rfl

namespace Agree

variable (ha : Λ₁.Agree Λ₂)

include ha

theorem entry_eq : ∀ h e, Λ₁.entry h = some e → ∀ e', Λ₂.entry h = some e' → e = e' := by
  refine rank_induction ?_
  intro h e he ih e' he'
  have hblock := ha.hash he he'
  -- from the predecessor to what the block receives, and then to all that it rests on
  have hprevious : ∀ q, Λ₁.entry e.block.previous = some q →
      Λ₂.entry e.block.previous = some q ∧ e'.Follows q := by
    intro q hq
    obtain ⟨q', hq', hfol⟩ := follows_of_previous_ne he' (hblock ▸ Λ₁.ne_zero hq)
    rw [← hblock] at hq'
    obtain rfl := ih _ q hq (Dep.rank_lt ⟨e, q, he, hq, .inl rfl⟩ he hq) q' hq'
    exact ⟨hq', hfol⟩
  have hprior : e.prior = e'.prior := by
    rcases first_or_follows he with hf | ⟨q, hq, hfol⟩
    · rw [hf.prior, (first_of_previous_eq he' (hblock ▸ hf.previous)).prior]
    · rw [hfol.prior, (hprevious q hq).2.prior]
  have hj : Justified p Λ₂.entry h e := by
    refine (Λ₁.justified he).transfer fun x q hd hq => ?_
    rcases id hd with rfl | hx
    · exact (hprevious q hq).1
    · obtain ⟨q', hq', -⟩ :=
        (Λ₂.justified he').takes ((receives_eq he he' hblock hprior).symm.trans hx)
      rw [ih x q hq (Dep.rank_lt ⟨e, q, he, hq, hd⟩ he hq) q' hq', hq']
  exact hj.unique Λ₂.entry_zero (Λ₂.justified he') hblock

theorem either_iff :
    (Λ₁.entry h).or (Λ₂.entry h) = some e ↔ Λ₁.entry h = some e ∨ Λ₂.entry h = some e := by
  rw [Option.or_eq_some_iff]
  refine ⟨Or.imp_right And.right, fun he => he.elim .inl fun he => ?_⟩
  cases hq : Λ₁.entry h with
  | none => exact .inr ⟨rfl, he⟩
  | some q => exact .inl (by rw [ha.entry_eq h q hq e he])

/-- **The union.** -/
def union : Lattice p where
  entry h := (Λ₁.entry h).or (Λ₂.entry h)
  finite := by
    refine (Λ₁.finite.union Λ₂.finite).subset fun h hh => ?_
    obtain ⟨e, he⟩ := Option.isSome_iff_exists.mp hh
    exact (ha.either_iff.mp he).imp (fun he => Option.isSome_iff_exists.mpr ⟨e, he⟩)
      fun he => Option.isSome_iff_exists.mpr ⟨e, he⟩
  hash_eq he := (ha.either_iff.mp he).elim Λ₁.hash_eq Λ₂.hash_eq
  justified := by
    intro h e he
    rcases ha.either_iff.mp he with he | he
    · exact (Λ₁.justified he).transfer fun x q _ hq => ha.either_iff.mpr (.inl hq)
    · exact (Λ₂.justified he).transfer fun x q _ hq => ha.either_iff.mpr (.inr hq)
  genesis := ha.either_iff.mpr (.inl Λ₁.genesis)
  root_inj := by
    intro h h' e e' he he' hroot
    rcases ha.either_iff.mp he with he | he <;> rcases ha.either_iff.mp he' with he' | he'
    · exact Λ₁.root_inj he he' hroot
    · exact ha.root he he' hroot
    · exact (ha.root he' he hroot.symm).symm
    · exact Λ₂.root_inj he he' hroot
  receives_inj := by
    intro h h' e e' x he he' hx hx'
    rcases ha.either_iff.mp he with he | he <;> rcases ha.either_iff.mp he' with he' | he'
    · exact Λ₁.receives_inj he he' hx hx'
    · exact ha.source he he' hx hx'
    · exact (ha.source he' he hx' hx).symm
    · exact Λ₂.receives_inj he he' hx hx'
  signed he := (ha.either_iff.mp he).elim Λ₁.signed Λ₂.signed
  ne_zero he := (ha.either_iff.mp he).elim Λ₁.ne_zero Λ₂.ne_zero
  ne_one he := (ha.either_iff.mp he).elim Λ₁.ne_one Λ₂.ne_one
  owner_unstored := by
    intro h e he
    rw [Option.or_eq_none_iff]
    rcases ha.either_iff.mp he with he | he
    · exact ⟨Λ₁.owner_unstored he, ha.owner he⟩
    · exact ⟨ha.owner' he, Λ₂.owner_unstored he⟩

theorem within_left : Λ₁.Within ha.union := fun _ _ he => ha.either_iff.mpr (.inl he)

theorem within_right : Λ₂.Within ha.union := fun _ _ he => ha.either_iff.mpr (.inr he)

theorem union_blocks {b : Block} :
    ha.union.blocks h = some b ↔ Λ₁.blocks h = some b ∨ Λ₂.blocks h = some b := by
  constructor
  · intro hb
    obtain ⟨e, he, rfl⟩ := of_blocks hb
    exact (ha.either_iff.mp he).imp blocks_some blocks_some
  · rintro (hb | hb) <;> obtain ⟨e, he, rfl⟩ := of_blocks hb
    · exact blocks_some (ha.within_left he)
    · exact blocks_some (ha.within_right he)

end Agree

/-! ## From a lattice to a larger one -/

/-- Blocks that can be added one after the other. -/
inductive Builds : Lattice p → List Block → Lattice p → Prop
  | done {Λ : Lattice p} : Builds Λ [] Λ
  | add {Λ Λ' : Lattice p} {h : BlockHash} {e : Entry} {l : List Block} (ad : Λ.Admissible h e) :
      Builds (Λ.insert ad) l Λ' → Builds Λ (e.block :: l) Λ'

theorem Builds.extends {Λ' : Lattice p} {l : List Block} (hb : Builds Λ l Λ') :
    Λ.Extends Λ' l := by
  induction hb with
  | done => exact .refl _
  | add ad _ ih => exact .cons ad ih

/-- What is missing can be added, the lowest rank first. -/
theorem Within.builds {Λ Λ' : Lattice p} (hsub : Λ.Within Λ') : ∃ l, Builds Λ l Λ' := by
  have hfin : {h | (Λ'.entry h).isSome ∧ Λ.entry h = none}.Finite :=
    Λ'.finite.subset fun h hh => hh.1
  induction hn : {h | (Λ'.entry h).isSome ∧ Λ.entry h = none}.ncard generalizing Λ with
  | zero =>
    have hnone := Set.eq_empty_iff_forall_notMem.mp ((Set.ncard_eq_zero hfin).mp hn)
    obtain rfl : Λ = Λ' := by
      refine eq_of_blocks (funext fun h => ?_)
      cases he : Λ.entry h with
      | some e => rw [blocks_some he, blocks_some (hsub he)]
      | none =>
        rw [blocks_none.mpr he, eq_comm, blocks_none]
        by_contra he'
        exact hnone h ⟨Option.isSome_iff_ne_none.mpr he', he⟩
    exact ⟨[], .done⟩
  | succ n ih =>
    obtain ⟨h, ⟨hsome, hfresh⟩, hleast⟩ := Set.exists_min_image _
      (fun h => ((Λ'.entry h).map Entry.rank).getD 0) hfin
      (Set.nonempty_of_ncard_ne_zero (by omega))
    obtain ⟨e, he⟩ := Option.isSome_iff_exists.mp hsome
    have ad : Λ.Admissible h e := by
      refine hsub.admissible he hfresh fun x h0 hd => ?_
      obtain ⟨q, hq⟩ := dep_of_dependsOn he hd h0
      refine Option.ne_none_iff_exists'.mp fun hx => ?_
      have hle := hleast x ⟨by rw [hq]; rfl, hx⟩
      rw [he, hq] at hle
      exact absurd (Dep.rank_lt ⟨e, q, he, hq, hd⟩ he hq) (Nat.not_lt.mpr hle)
    have hset : {x | (Λ'.entry x).isSome ∧ (Λ.insert ad).entry x = none} =
        {x | (Λ'.entry x).isSome ∧ Λ.entry x = none} \ {h} := by
      ext x
      by_cases hx : x = h
      · simp [hx, insert_entry_self ad]
      · simp [hx, insert_entry_of_ne ad hx]
    have hmem : h ∈ {x | (Λ'.entry x).isSome ∧ Λ.entry x = none} := ⟨hsome, hfresh⟩
    obtain ⟨l, hl⟩ := ih (hsub.insert ad he) (hset ▸ hfin.sdiff) (by
      rw [hset, Set.ncard_sdiff_singleton_of_mem hmem, hn]
      rfl)
    exact ⟨_, .add ad hl⟩

end RaiBlocks.Lattice
