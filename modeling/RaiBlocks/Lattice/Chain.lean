import RaiBlocks.Lattice.Lattice

/-!
# Account chains

The entries of one account form a chain: heights count up from one without
gaps, no two entries share a height, and at most one is the head. The head
rests on every other block of its account.
-/

namespace RaiBlocks.Lattice

variable {p : Env} {Λ : Lattice p} {h h' : BlockHash} {e e' : Entry}

theorem height_pos (he : Λ.entry h = some e) : 1 ≤ e.height := by
  rcases first_or_follows he with hf | ⟨q, _, hq⟩
  · exact hf.height.ge
  · rw [hq.height]
    omega

theorem dep_previous (he : Λ.entry h = some e) {q : Entry}
    (hq : Λ.entry e.block.previous = some q) : Λ.Dep h e.block.previous :=
  ⟨e, q, he, hq, Or.inl rfl⟩

/-- Below every block there is one of each smaller height, and the block rests
on it. -/
theorem exists_below (k : ℕ) (hk : 1 ≤ k) : ∀ h e, Λ.entry h = some e → k ≤ e.height →
    ∃ h' e', Λ.entry h' = some e' ∧ e'.owner = e.owner ∧ e'.height = k ∧
      Relation.ReflTransGen Λ.Dep h h' := by
  refine rank_induction ?_
  intro h e he ih hke
  rcases Nat.eq_or_lt_of_le hke with heq | hlt
  · exact ⟨h, e, he, rfl, heq.symm, .refl⟩
  · rcases first_or_follows he with hf | ⟨q, hq, hfol⟩
    · rw [hf.height] at hlt
      omega
    · rw [hfol.height] at hlt
      obtain ⟨h', e', he', ho, hh, hr⟩ := ih _ q hq hfol.rank (by omega)
      exact ⟨h', e', he', ho.trans hfol.owner, hh, .head (dep_previous he hq) hr⟩

theorem height_inj : ∀ h e, Λ.entry h = some e → ∀ h' e', Λ.entry h' = some e' →
    e.owner = e'.owner → e.height = e'.height → h = h' := by
  refine rank_induction ?_
  intro h e he ih h' e' he' ho hh
  rcases first_or_follows he with hf | ⟨q, hq, hfol⟩
  · rcases first_or_follows he' with hf' | ⟨q', hq', hfol'⟩
    · exact Λ.root_inj he he' (by rw [hf.root, hf'.root, ho])
    · have := height_pos hq'
      have := hf.height
      have := hfol'.height
      omega
  · rcases first_or_follows he' with hf' | ⟨q', hq', hfol'⟩
    · have := height_pos hq
      have := hf'.height
      have := hfol.height
      omega
    · have hprev : e.block.previous = e'.block.previous := by
        refine ih _ q hq hfol.rank _ q' hq' ?_ ?_
        · rw [hfol.owner, hfol'.owner, ho]
        · have := hfol.height
          have := hfol'.height
          omega
      refine Λ.root_inj he he' ?_
      rw [Block.root_of_previous_ne (Λ.ne_zero hq), Block.root_of_previous_ne (Λ.ne_zero hq'),
        hprev]

theorem first_unique (he : Λ.entry h = some e) (he' : Λ.entry h' = some e')
    (hp : e.block.previous = 0) (hp' : e'.block.previous = 0) (ho : e.owner = e'.owner) :
    h = h' := by
  refine Λ.root_inj he he' ?_
  rw [(first_of_previous_eq he hp).root, (first_of_previous_eq he' hp').root, ho]

theorem IsHead.height_le (hh : Λ.IsHead h) (he : Λ.entry h = some e)
    (he' : Λ.entry h' = some e') (ho : e'.owner = e.owner) : e'.height ≤ e.height := by
  by_contra hlt
  obtain ⟨x, ex, hx, hxo, hxh, _⟩ :=
    exists_below (e.height + 1) (by omega) h' e' he' (by omega)
  rcases first_or_follows hx with hf | ⟨q, hq, hfol⟩
  · have := height_pos he
    have := hf.height
    omega
  · refine hh x ex hx (height_inj _ q hq _ e he ?_ ?_)
    · rw [hfol.owner, hxo, ho]
    · have := hfol.height
      omega

theorem IsHead.unique (hh : Λ.IsHead h) (hh' : Λ.IsHead h') (he : Λ.entry h = some e)
    (he' : Λ.entry h' = some e') (ho : e.owner = e'.owner) : h = h' :=
  height_inj _ e he _ e' he' ho
    (Nat.le_antisymm (hh'.height_le he' he ho) (hh.height_le he he' ho.symm))

theorem IsHead.rests_on (hh : Λ.IsHead h) (he : Λ.entry h = some e)
    (he' : Λ.entry h' = some e') (ho : e'.owner = e.owner) :
    Relation.ReflTransGen Λ.Dep h h' := by
  obtain ⟨x, ex, hx, hxo, hxh, hr⟩ :=
    exists_below e'.height (height_pos he') h e he (hh.height_le he he' ho)
  obtain rfl : x = h' := height_inj _ ex hx _ e' he' (hxo.trans ho.symm) hxh
  exact hr

/-- A block that is not the head has exactly one block on top of it. -/
theorem exists_next_of_not_isHead (hh : ¬ Λ.IsHead h) :
    ∃ h' e', Λ.entry h' = some e' ∧ e'.block.previous = h := by
  unfold IsHead at hh
  push Not at hh
  exact hh

theorem previous_inj (he : Λ.entry h = some e) (he' : Λ.entry h' = some e')
    (hp : e.block.previous = e'.block.previous) (h0 : e.block.previous ≠ 0) : h = h' := by
  refine Λ.root_inj he he' ?_
  rw [Block.root_of_previous_ne h0, Block.root_of_previous_ne (hp ▸ h0), hp]

/-- The representative block of an entry is a block of the same account that
names its own representative. -/
theorem rep_entry : ∀ h e, Λ.entry h = some e →
    ∃ r, Λ.entry e.rep = some r ∧ r.owner = e.owner ∧ r.rep = e.rep := by
  refine rank_induction ?_
  intro h e he ih
  have hj := Λ.justified he
  cases hj with
  | genesis hh => exact ⟨_, Λ.genesis, rfl, rfl⟩
  | @send b q hq hl hle => exact ih _ q hq (Nat.lt_succ_self _)
  | @receive b q src hq hl hs hd hlt => exact ih _ q hq (by show _ < _ + _ + 1; omega)
  | _ => exact ⟨_, he, rfl, rfl⟩

/-- A block without an account field has a predecessor. -/
theorem follows_of_account?_eq (he : Λ.entry h = some e) (ha : e.block.account? = none) :
    ∃ q, Λ.entry e.block.previous = some q ∧ e.Follows q := by
  rcases first_or_follows he with hf | hq
  · cases ha.symm.trans hf.account
  · exact hq

theorem account?_eq (he : Λ.entry h = some e) {a : Account} (ha : e.block.account? = some a) :
    a = e.owner := by
  cases Λ.justified he with
  | send | receive | change => cases ha
  | _ => exact (Option.some.inj ha).symm

end RaiBlocks.Lattice
