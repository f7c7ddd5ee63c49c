import RaiBlocks.Spec.Bridge

/-!
# The chain under a block

`BlockSet.Chain` walks from a block down to the first block of its account. In
a lattice the walk always ends, its length is the height of the block, and it
meets exactly the blocks of the account up to there.
-/

namespace RaiBlocks.Lattice

variable {p : Env} {Λ : Lattice p} {h x : BlockHash} {e q : Entry} {l : List BlockHash}

theorem exists_chain : ∀ h e, Λ.entry h = some e → ∃ l, Λ.blocks.Chain h l := by
  refine rank_induction ?_
  intro h e he ih
  rcases first_or_follows he with hf | ⟨q, hq, hfol⟩
  · exact ⟨_, .first (blocks_some he) hf.previous⟩
  · obtain ⟨l, hl⟩ := ih _ q hq hfol.rank
    exact ⟨_, .next (blocks_some he) (Λ.ne_zero hq) hl⟩

/-- Walking down: an induction rule in terms of entries. -/
theorem chain_induction {P : BlockHash → Entry → List BlockHash → Prop}
    (hfirst : ∀ h e, Λ.entry h = some e → e.First → P h e [h])
    (hnext : ∀ h e q l, Λ.entry h = some e → Λ.entry e.block.previous = some q → e.Follows q →
      Λ.blocks.Chain e.block.previous l → P e.block.previous q l → P h e (h :: l)) :
    ∀ {h l}, Λ.blocks.Chain h l → ∀ {e}, Λ.entry h = some e → P h e l := by
  intro h l hc
  induction hc with
  | first hb hp =>
    intro e he
    rw [blocks_some he] at hb
    obtain rfl := Option.some.inj hb
    exact hfirst _ e he (first_of_previous_eq he hp)
  | next hb hp hc ih =>
    intro e he
    rw [blocks_some he] at hb
    obtain rfl := Option.some.inj hb
    obtain ⟨q, hq, hfol⟩ := follows_of_previous_ne he hp
    exact hnext _ e q _ he hq hfol hc (ih hq)

theorem chain_length (hc : Λ.blocks.Chain h l) (he : Λ.entry h = some e) :
    l.length = e.height := by
  refine chain_induction (P := fun _ e l => l.length = e.height) ?_ ?_ hc he
  · intro h e _ hf
    exact hf.height.symm
  · intro h e q l _ _ hfol _ ih
    rw [List.length_cons, ih, hfol.height]

theorem chain_eq_cons (hc : Λ.blocks.Chain h l) : ∃ t, l = h :: t := by
  cases hc with
  | first => exact ⟨[], rfl⟩
  | @next _ _ t => exact ⟨t, rfl⟩

/-- The chain meets the blocks of the account that are not above `h`. -/
theorem mem_chain (hc : Λ.blocks.Chain h l) (he : Λ.entry h = some e) :
    x ∈ l ↔ ∃ ex, Λ.entry x = some ex ∧ ex.owner = e.owner ∧ ex.height ≤ e.height := by
  refine chain_induction (P := fun _ e l => x ∈ l ↔ ∃ ex, Λ.entry x = some ex ∧
    ex.owner = e.owner ∧ ex.height ≤ e.height) ?_ ?_ hc he
  · intro h e he hf
    rw [List.mem_singleton]
    constructor
    · rintro rfl
      exact ⟨e, he, rfl, le_rfl⟩
    · rintro ⟨ex, hx, ho, hle⟩
      have := height_pos hx
      have := hf.height
      exact height_inj _ ex hx _ e he ho (by omega)
  · intro h e q l he hq hfol _ ih
    rw [List.mem_cons, ih]
    have hheight := hfol.height
    constructor
    · rintro (rfl | ⟨ex, hx, ho, hle⟩)
      · exact ⟨e, he, rfl, le_rfl⟩
      · exact ⟨ex, hx, ho.trans hfol.owner, by omega⟩
    · rintro ⟨ex, hx, ho, hle⟩
      rcases Nat.eq_or_lt_of_le hle with heq | hlt
      · exact Or.inl (height_inj _ ex hx _ e he ho heq)
      · exact Or.inr ⟨ex, hx, ho.trans hfol.owner.symm, by omega⟩

/-- The chain ends with the first block of the account. -/
theorem chain_getLast? (hc : Λ.blocks.Chain h l) (he : Λ.entry h = some e) :
    ∃ y o, l.getLast? = some y ∧ Λ.entry y = some o ∧ o.owner = e.owner ∧
      o.block.previous = 0 := by
  refine chain_induction (P := fun _ e l => ∃ y o, l.getLast? = some y ∧ Λ.entry y = some o ∧
    o.owner = e.owner ∧ o.block.previous = 0) ?_ ?_ hc he
  · intro h e he hf
    exact ⟨h, e, rfl, he, rfl, hf.previous⟩
  · rintro h e q l _ _ hfol hc ⟨y, o, hy, ho, hown, hp⟩
    obtain ⟨t, rfl⟩ := chain_eq_cons hc
    exact ⟨y, o, by rw [List.getLast?_cons_cons, hy], ho, hown.trans hfol.owner, hp⟩

/-- Neighbours on the chain are joined by `previous`. -/
theorem chain_isChain (hc : Λ.blocks.Chain h l) (he : Λ.entry h = some e) :
    l.IsChain fun x y => ∃ ex, Λ.entry x = some ex ∧ ex.block.previous = y ∧ y ≠ 0 := by
  refine chain_induction (P := fun _ _ l => l.IsChain fun x y => ∃ ex, Λ.entry x = some ex ∧
    ex.block.previous = y ∧ y ≠ 0) ?_ ?_ hc he
  · intro h e _ _
    exact List.isChain_singleton h
  · intro h e q l he hq hfol hc ih
    obtain ⟨t, rfl⟩ := chain_eq_cons hc
    exact List.isChain_cons_cons.mpr ⟨⟨e, he, rfl, Λ.ne_zero hq⟩, ih⟩

/-- Under a block of one of the older kinds there are only such blocks. -/
theorem chain_legacy (hc : Λ.blocks.Chain h l) (he : Λ.entry h = some e)
    (hl : e.block.isLegacy = true) :
    ∀ x ∈ l, ∀ ex, Λ.entry x = some ex → ex.block.isLegacy = true := by
  refine chain_induction (P := fun _ e l => e.block.isLegacy = true → ∀ x ∈ l, ∀ ex,
    Λ.entry x = some ex → ex.block.isLegacy = true) ?_ ?_ hc he hl
  · intro h e he _ hl x hx ex hex
    rw [List.mem_singleton.mp hx] at hex
    rw [← Option.some.inj (he.symm.trans hex)]
    exact hl
  · intro h e q l he _ hfol _ ih hl x hx ex hex
    rcases List.mem_cons.mp hx with rfl | hx
    · rw [← Option.some.inj (he.symm.trans hex)]
      exact hl
    · exact ih (hfol.legacy hl) x hx ex hex

theorem chain_pairwise_state (hc : Λ.blocks.Chain h l) (he : Λ.entry h = some e) :
    l.Pairwise fun x y => ∀ ex ey, Λ.entry x = some ex → Λ.entry y = some ey →
      ey.block.isLegacy = false → ex.block.isLegacy = false := by
  refine chain_induction (P := fun _ _ l => l.Pairwise fun x y => ∀ ex ey, Λ.entry x = some ex →
    Λ.entry y = some ey → ey.block.isLegacy = false → ex.block.isLegacy = false) ?_ ?_ hc he
  · intro h e _ _
    exact List.pairwise_singleton _ _
  · intro h e q l he hq hfol hc ih
    refine List.pairwise_cons.mpr ⟨fun y hy ex ey hx hey hs => ?_, ih⟩
    obtain rfl := Option.some.inj (he.symm.trans hx)
    cases hl : e.block.isLegacy with
    | false => rfl
    | true => cases hs.symm.trans (chain_legacy hc hq (hfol.legacy hl) y hy ey hey)

end RaiBlocks.Lattice
