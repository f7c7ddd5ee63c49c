import RaiBlocks.Lattice.Chain

/-!
# Growing and shrinking a lattice

`insert` puts a block on top of its account's chain, `erase` takes the head of
a chain away once nothing rests on it. They are the two ways in which
processing and rollback change the lattice.
-/

namespace RaiBlocks.Lattice

variable {p : Env} {Λ : Lattice p} {h x : BlockHash} {e : Entry}

theorem isHead_of_unstored (hn : Λ.entry h = none) (h0 : h ≠ 0) : Λ.IsHead h := by
  intro h' e' he' hp
  obtain ⟨q, hq, _⟩ := follows_of_previous_ne he' (hp ▸ h0)
  rw [hp, hn] at hq
  cases hq

theorem not_received_of_unstored (hn : Λ.entry h = none) : ¬ Λ.Received h := by
  rintro ⟨h', e', he', hr⟩
  obtain ⟨src, hs, _⟩ := (Λ.justified he').takes hr
  rw [hn] at hs
  cases hs

/-! ## Insertion -/

/-- What allows the entry `e` to be added at `h`. -/
structure Admissible (Λ : Lattice p) (h : BlockHash) (e : Entry) : Prop where
  fresh : Λ.entry h = none
  hash_eq : e.block.hash p = h
  justified : Justified p Λ.entry h e
  head : e.block.previous ≠ 0 → Λ.IsHead e.block.previous
  unopened : e.block.previous = 0 → Λ.Unopened e.owner
  unreceived : ∀ x, e.receives p = some x → ¬ Λ.Received x
  signed : p.validateMessage e.owner h e.block.blockSignature = false
  ne_zero : h ≠ 0
  ne_one : h ≠ 1
  ne_owner : ∀ h' e', Λ.entry h' = some e' → e'.owner ≠ h
  ne_own : e.owner ≠ h
  owner_unstored : Λ.entry e.owner = none

namespace Admissible

variable (ad : Λ.Admissible h e)

include ad

theorem ne_of_stored {h' : BlockHash} {e' : Entry} (he' : Λ.entry h' = some e') : h' ≠ h := by
  rintro rfl
  rw [ad.fresh] at he'
  cases he'

theorem root_ne {h' : BlockHash} {e' : Entry} (he' : Λ.entry h' = some e') :
    e.block.root ≠ e'.block.root := by
  intro hroot
  rcases ad.justified.first_or_follows with hf | ⟨q, hq, _⟩
  · rcases first_or_follows he' with hf' | ⟨q', hq', _⟩
    · rw [hf.root, hf'.root] at hroot
      exact ad.unopened hf.previous h' e' he' hroot.symm
    · rw [hf.root, Block.root_of_previous_ne (Λ.ne_zero hq')] at hroot
      rw [← hroot, ad.owner_unstored] at hq'
      cases hq'
  · have hp := Λ.ne_zero hq
    rw [Block.root_of_previous_ne hp] at hroot
    rcases first_or_follows he' with hf' | ⟨q', hq', _⟩
    · rw [hf'.root] at hroot
      rw [hroot, Λ.owner_unstored he'] at hq
      cases hq
    · rw [Block.root_of_previous_ne (Λ.ne_zero hq')] at hroot
      exact ad.head hp h' e' he' hroot.symm

end Admissible

def insert (Λ : Lattice p) (ad : Λ.Admissible h e) : Lattice p where
  entry x := if x = h then some e else Λ.entry x
  finite := by
    refine (Λ.finite.insert h).subset ?_
    intro x hx
    by_cases hxh : x = h
    · exact Or.inl hxh
    · exact Or.inr (by simpa [hxh] using hx)
  hash_eq := by
    intro x e' hx
    split at hx
    · obtain rfl := Option.some.inj hx
      rename_i hxh
      rw [hxh]
      exact ad.hash_eq
    · exact Λ.hash_eq hx
  justified := by
    intro x e' hx
    -- an entry keeps its justification: nothing it reads has changed
    have keep : ∀ (y : BlockHash) (q : Entry), Λ.entry y = some q →
        (if y = h then some e else Λ.entry y) = some q := by
      intro y q hy
      rw [if_neg (ad.ne_of_stored hy)]
      exact hy
    split at hx
    · obtain rfl := Option.some.inj hx
      rename_i hxh
      subst hxh
      exact ad.justified.transfer fun y q _ hy => keep y q hy
    · exact (Λ.justified hx).transfer fun y q _ hy => keep y q hy
  genesis := by
    rw [if_neg (ad.ne_of_stored Λ.genesis)]
    exact Λ.genesis
  root_inj := by
    intro x x' ex ex' hx hx' hroot
    split at hx <;> split at hx'
    · rename_i hxh hxh'
      rw [hxh, hxh']
    · obtain rfl := Option.some.inj hx
      exact absurd hroot (ad.root_ne hx')
    · obtain rfl := Option.some.inj hx'
      exact absurd hroot.symm (ad.root_ne hx)
    · exact Λ.root_inj hx hx' hroot
  receives_inj := by
    intro x x' ex ex' y hx hx' hr hr'
    split at hx <;> split at hx'
    · rename_i hxh hxh'
      rw [hxh, hxh']
    · obtain rfl := Option.some.inj hx
      exact absurd ⟨_, _, hx', hr'⟩ (ad.unreceived y hr)
    · obtain rfl := Option.some.inj hx'
      exact absurd ⟨_, _, hx, hr⟩ (ad.unreceived y hr')
    · exact Λ.receives_inj hx hx' hr hr'
  signed := by
    intro x ex hx hg
    split at hx
    · obtain rfl := Option.some.inj hx
      rename_i hxh
      rw [hxh]
      exact ad.signed
    · exact Λ.signed hx hg
  ne_zero := by
    intro x ex hx
    split at hx
    · rename_i hxh
      rw [hxh]
      exact ad.ne_zero
    · exact Λ.ne_zero hx
  ne_one := by
    intro x ex hx
    split at hx
    · rename_i hxh
      rw [hxh]
      exact ad.ne_one
    · exact Λ.ne_one hx
  owner_unstored := by
    intro x ex hx
    split at hx
    · obtain rfl := Option.some.inj hx
      rw [if_neg ad.ne_own]
      exact ad.owner_unstored
    · rw [if_neg (ad.ne_owner _ _ hx)]
      exact Λ.owner_unstored hx

section Insert

variable (ad : Λ.Admissible h e)

theorem insert_entry (x : BlockHash) :
    (Λ.insert ad).entry x = if x = h then some e else Λ.entry x := rfl

theorem insert_entry_self : (Λ.insert ad).entry h = some e := if_pos rfl

theorem insert_entry_of_stored {q : Entry} (hq : Λ.entry x = some q) :
    (Λ.insert ad).entry x = some q := by
  rw [insert_entry, if_neg (ad.ne_of_stored hq)]
  exact hq

theorem insert_entry_of_ne (hx : x ≠ h) : (Λ.insert ad).entry x = Λ.entry x := if_neg hx

theorem insert_isHead : (Λ.insert ad).IsHead x ↔ Λ.IsHead x ∧ e.block.previous ≠ x := by
  constructor
  · intro hx
    refine ⟨fun h' e' he' => hx h' e' (insert_entry_of_stored ad he'), ?_⟩
    exact hx h e (insert_entry_self ad)
  · rintro ⟨hx, hp⟩ h' e' he'
    by_cases hh : h' = h
    · subst hh
      rw [insert_entry_self] at he'
      obtain rfl := Option.some.inj he'
      exact hp
    · rw [insert_entry_of_ne ad hh] at he'
      exact hx h' e' he'

theorem insert_isHead_self : (Λ.insert ad).IsHead h := by
  refine (insert_isHead ad).mpr ⟨isHead_of_unstored ad.fresh ad.ne_zero, ?_⟩
  rcases ad.justified.first_or_follows with hf | ⟨q, hq, _⟩
  · rw [hf.previous]
    exact ad.ne_zero.symm
  · exact ad.ne_of_stored hq

theorem insert_received : (Λ.insert ad).Received x ↔ Λ.Received x ∨ e.receives p = some x := by
  constructor
  · rintro ⟨h', e', he', hr⟩
    by_cases hh : h' = h
    · subst hh
      rw [insert_entry_self] at he'
      obtain rfl := Option.some.inj he'
      exact Or.inr hr
    · rw [insert_entry_of_ne ad hh] at he'
      exact Or.inl ⟨h', e', he', hr⟩
  · rintro (⟨h', e', he', hr⟩ | hr)
    · exact ⟨h', e', insert_entry_of_stored ad he', hr⟩
    · exact ⟨h, e, insert_entry_self ad, hr⟩

theorem insert_not_received_self : ¬ (Λ.insert ad).Received h := by
  rw [insert_received]
  rintro (hr | hr)
  · exact not_received_of_unstored ad.fresh hr
  · obtain ⟨src, hs, _⟩ := ad.justified.takes hr
    exact ad.ne_of_stored hs rfl

end Insert

/-! ## Removal -/

/-- What allows the entry `e` at `h` to be taken away: nothing rests on it. -/
structure Removable (Λ : Lattice p) (h : BlockHash) (e : Entry) : Prop where
  stored : Λ.entry h = some e
  head : Λ.IsHead h
  unreceived : ¬ Λ.Received h
  ne_genesis : h ≠ p.genesisHash

def erase (Λ : Lattice p) (rm : Λ.Removable h e) : Lattice p where
  entry x := if x = h then none else Λ.entry x
  finite := by
    refine Λ.finite.subset ?_
    intro x hx
    by_cases hxh : x = h
    · simp [hxh] at hx
    · simpa [hxh] using hx
  hash_eq := by
    intro x ex hx
    split at hx
    · cases hx
    · exact Λ.hash_eq hx
  justified := by
    intro x ex hx
    split at hx
    · cases hx
    · refine (Λ.justified hx).transfer fun y q hd hy => ?_
      rw [if_neg ?_]
      · exact hy
      · rintro rfl
        rcases hd with hp | hr
        · exact rm.head x ex hx hp
        · exact rm.unreceived ⟨x, ex, hx, hr⟩
  genesis := by
    rw [if_neg rm.ne_genesis.symm]
    exact Λ.genesis
  root_inj := by
    intro x x' ex ex' hx hx' hroot
    split at hx
    · cases hx
    · split at hx'
      · cases hx'
      · exact Λ.root_inj hx hx' hroot
  receives_inj := by
    intro x x' ex ex' y hx hx' hr hr'
    split at hx
    · cases hx
    · split at hx'
      · cases hx'
      · exact Λ.receives_inj hx hx' hr hr'
  signed := by
    intro x ex hx hg
    split at hx
    · cases hx
    · exact Λ.signed hx hg
  ne_zero := by
    intro x ex hx
    split at hx
    · cases hx
    · exact Λ.ne_zero hx
  ne_one := by
    intro x ex hx
    split at hx
    · cases hx
    · exact Λ.ne_one hx
  owner_unstored := by
    intro x ex hx
    split at hx
    · cases hx
    · split
      · rfl
      · exact Λ.owner_unstored hx

section Erase

variable (rm : Λ.Removable h e)

theorem erase_entry (x : BlockHash) :
    (Λ.erase rm).entry x = if x = h then none else Λ.entry x := rfl

theorem erase_entry_self : (Λ.erase rm).entry h = none := if_pos rfl

theorem erase_entry_of_ne (hx : x ≠ h) : (Λ.erase rm).entry x = Λ.entry x := if_neg hx

theorem erase_entry_some {q : Entry} :
    (Λ.erase rm).entry x = some q ↔ x ≠ h ∧ Λ.entry x = some q := by
  rw [erase_entry]
  split
  · rename_i hx
    simp [hx]
  · rename_i hx
    simp [hx]

theorem erase_isHead (h0 : x ≠ 0) :
    (Λ.erase rm).IsHead x ↔ Λ.IsHead x ∨ e.block.previous = x := by
  constructor
  · intro hx
    by_cases hp : e.block.previous = x
    · exact Or.inr hp
    · refine Or.inl fun h' e' he' hp' => ?_
      by_cases hh : h' = h
      · subst hh
        obtain rfl := Option.some.inj (he'.symm.trans rm.stored)
        exact hp hp'
      · exact hx h' e' ((erase_entry_some rm).mpr ⟨hh, he'⟩) hp'
  · rintro (hx | rfl) h' e' he' hp'
    · exact hx h' e' ((erase_entry_some rm).mp he').2 hp'
    · obtain ⟨hne, he'⟩ := (erase_entry_some rm).mp he'
      exact hne (previous_inj he' rm.stored hp' (hp' ▸ h0))

theorem erase_received :
    (Λ.erase rm).Received x ↔ Λ.Received x ∧ e.receives p ≠ some x := by
  constructor
  · rintro ⟨h', e', he', hr⟩
    obtain ⟨hne, he'⟩ := (erase_entry_some rm).mp he'
    refine ⟨⟨h', e', he', hr⟩, fun hr' => hne ?_⟩
    exact Λ.receives_inj he' rm.stored hr hr'
  · rintro ⟨⟨h', e', he', hr⟩, hne⟩
    refine ⟨h', e', (erase_entry_some rm).mpr ⟨?_, he'⟩, hr⟩
    rintro rfl
    obtain rfl := Option.some.inj (he'.symm.trans rm.stored)
    exact hne hr

end Erase

end RaiBlocks.Lattice
