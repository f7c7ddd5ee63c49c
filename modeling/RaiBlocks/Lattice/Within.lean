import RaiBlocks.Lattice.Update

/-!
# Lattices within lattices

Blocks that can all be added in some order lead to one larger lattice. Adding
them in another order passes through lattices within it. At any point on the
way, a block of the larger lattice that is missing can be added as soon as what
it depends on is there: nothing else can have taken its place or its source.
-/

namespace RaiBlocks.Lattice

variable {p : Env} {Λ Λ' Λ'' : Lattice p} {h x : BlockHash} {e q : Entry}

/-- Every entry of the first lattice is one of the second. -/
def Within (Λ Λ' : Lattice p) : Prop := ∀ ⦃h e⦄, Λ.entry h = some e → Λ'.entry h = some e

theorem Within.refl (Λ : Lattice p) : Λ.Within Λ := fun _ _ he => he

theorem Within.trans (hsub : Λ.Within Λ') (hsub' : Λ'.Within Λ'') : Λ.Within Λ'' :=
  fun _ _ he => hsub' (hsub he)

theorem ne_genesis_of_unstored (hn : Λ.entry h = none) : h ≠ p.genesisHash := by
  rintro rfl
  cases hn.symm.trans Λ.genesis

theorem within_insert (ad : Λ.Admissible h e) : Λ.Within (Λ.insert ad) :=
  fun _ _ he => insert_entry_of_stored ad he

namespace Within

variable (hsub : Λ.Within Λ')

include hsub

theorem insert (ad : Λ.Admissible h e) (he : Λ'.entry h = some e) : (Λ.insert ad).Within Λ' := by
  intro x q hq
  by_cases hx : x = h
  · subst hx
    rw [insert_entry_self] at hq
    rw [he, hq]
  · rw [insert_entry_of_ne ad hx] at hq
    exact hsub hq

theorem entry_eq (hq : Λ.entry x = some q) (he : Λ'.entry x = some e) : q = e :=
  Option.some.inj ((hsub hq).symm.trans he)

variable (he : Λ'.entry h = some e)

include he

theorem follows (hq : Λ.entry e.block.previous = some q) : e.Follows q := by
  obtain ⟨q', hq', hfol⟩ := follows_of_previous_ne he (Λ.ne_zero hq)
  rw [hsub.entry_eq hq hq']
  exact hfol

variable (hn : Λ.entry h = none)

include hn

/-- No block has taken the place on top of the predecessor. -/
theorem isHead (h0 : e.block.previous ≠ 0) : Λ.IsHead e.block.previous := by
  intro h' e' he' hp
  have heq := previous_inj he (hsub he') hp.symm h0
  rw [← heq, hn] at he'
  cases he'

/-- A first block that is missing leaves its account unopened. -/
theorem unopened (h0 : e.block.previous = 0) : Λ.Unopened e.owner := by
  intro h' e' he' hown
  obtain ⟨x, o, hx, hxo, hheight, _⟩ := exists_below 1 le_rfl h' e' he' (height_pos he')
  have heq : h = x := by
    refine height_inj h e he x o (hsub hx) (hown.symm.trans hxo.symm) ?_
    rw [(first_of_previous_eq he h0).height, hheight]
  rw [← heq, hn] at hx
  cases hx

theorem not_received (hrec : e.receives p = some x) : ¬ Λ.Received x := by
  rintro ⟨h', e', he', hrec'⟩
  have heq := Λ'.receives_inj he (hsub he') hrec hrec'
  rw [← heq, hn] at he'
  cases he'

/-- **A missing block can be added when its dependencies are there.** -/
theorem admissible (hdeps : ∀ x, x ≠ 0 → e.DependsOn p x → ∃ q, Λ.entry x = some q) :
    Λ.Admissible h e where
  fresh := hn
  hash_eq := Λ'.hash_eq he
  justified := by
    refine (Λ'.justified he).transfer fun x q hd hq => ?_
    obtain ⟨q', hq'⟩ := hdeps x (Λ'.ne_zero hq) hd
    rw [hsub.entry_eq hq' hq] at hq'
    exact hq'
  head := hsub.isHead he hn
  unopened := hsub.unopened he hn
  unreceived := fun _ => hsub.not_received he hn
  signed := Λ'.signed he (ne_genesis_of_unstored hn)
  ne_zero := Λ'.ne_zero he
  ne_one := Λ'.ne_one he
  ne_owner := by
    intro h' e' he' hown
    have hno := Λ'.owner_unstored (hsub he')
    rw [hown, he] at hno
    cases hno
  ne_own := by
    intro hown
    have hno := Λ'.owner_unstored he
    rw [hown, he] at hno
    cases hno
  owner_unstored := by
    cases hx : Λ.entry e.owner with
    | none => rfl
    | some q => cases (Λ'.owner_unstored he).symm.trans (hsub hx)

end Within

/-! ## Adding blocks one after the other -/

/-- The second lattice has the listed blocks in addition. -/
structure Extends (Λ Λ' : Lattice p) (l : List Block) : Prop where
  within : Λ.Within Λ'
  added : ∀ b ∈ l, Λ.entry (b.hash p) = none ∧ ∃ e, Λ'.entry (b.hash p) = some e ∧ e.block = b
  only : ∀ h e, Λ'.entry h = some e → Λ.entry h = some e ∨ e.block ∈ l

theorem Extends.refl (Λ : Lattice p) : Λ.Extends Λ [] :=
  ⟨Within.refl Λ, (fun b hb => by cases hb), fun _ _ he => Or.inl he⟩

theorem Extends.cons {l : List Block} (ad : Λ.Admissible h e)
    (hext : (Λ.insert ad).Extends Λ' l) : Λ.Extends Λ' (e.block :: l) := by
  refine ⟨(within_insert ad).trans hext.within, fun b hb => ?_, fun x q hq => ?_⟩
  · rcases List.mem_cons.mp hb with rfl | hb
    · rw [ad.hash_eq]
      exact ⟨ad.fresh, e, hext.within (insert_entry_self ad), rfl⟩
    · obtain ⟨hfresh, hadded⟩ := hext.added b hb
      refine ⟨?_, hadded⟩
      cases hx : Λ.entry (b.hash p) with
      | none => rfl
      | some q => cases hfresh.symm.trans (insert_entry_of_stored ad hx)
  · rcases hext.only x q hq with hx | hx
    · by_cases hxh : x = h
      · subst hxh
        rw [insert_entry_self] at hx
        rw [Option.some.inj hx]
        exact Or.inr List.mem_cons_self
      · rw [insert_entry_of_ne ad hxh] at hx
        exact Or.inl hx
    · exact Or.inr (List.mem_cons_of_mem _ hx)

theorem Extends.insert {l : List Block} (hext : Λ.Extends Λ' l) (ad : Λ'.Admissible h e) :
    Λ.Extends (Λ'.insert ad) (e.block :: l) := by
  refine ⟨hext.within.trans (within_insert ad), fun b hb => ?_, fun x q hq => ?_⟩
  · rcases List.mem_cons.mp hb with rfl | hb
    · rw [ad.hash_eq]
      refine ⟨?_, e, insert_entry_self ad, rfl⟩
      cases hx : Λ.entry h with
      | none => rfl
      | some q => cases ad.fresh.symm.trans (hext.within hx)
    · obtain ⟨hfresh, q, hq, hblock⟩ := hext.added b hb
      exact ⟨hfresh, q, insert_entry_of_stored ad hq, hblock⟩
  · by_cases hxh : x = h
    · subst hxh
      rw [insert_entry_self] at hq
      rw [Option.some.inj hq]
      exact Or.inr List.mem_cons_self
    · rw [insert_entry_of_ne ad hxh] at hq
      exact (hext.only x q hq).imp_right fun hl => List.mem_cons_of_mem _ hl

end RaiBlocks.Lattice
