import RaiBlocks.Lattice.Update

/-!
# Cutting a lattice back

A rollback takes entries away one head after the other, across accounts.
`Λ.Trimmed Λ' h` says what such a sequence may do: entries go, and only those
that rest on `h`. Since every entry needs what it rests on, once `h` itself is
gone everything that rests on it is gone as well.
-/

namespace RaiBlocks.Lattice

variable {p : Env} {Λ Λ' Λ'' : Lattice p} {h x y : BlockHash} {e q : Entry}

/-- `x` rests on `h`, directly or through other stored blocks. -/
abbrev Rests (Λ : Lattice p) : BlockHash → BlockHash → Prop := Relation.ReflTransGen Λ.Dep

/-- `Λ'` is `Λ` without some of the entries that rest on `h`. -/
structure Trimmed (Λ Λ' : Lattice p) (h : BlockHash) : Prop where
  sub : ∀ {x e}, Λ'.entry x = some e → Λ.entry x = some e
  gone : ∀ {x e}, Λ.entry x = some e → Λ'.entry x = none → Λ.Rests x h

/-! ## What rests on what -/

theorem Rests.rank_le (hx : Λ.Rests x y) : ∀ {e q}, Λ.entry x = some e → Λ.entry y = some q →
    q.rank ≤ e.rank := by
  induction hx using Relation.ReflTransGen.head_induction_on with
  | refl =>
    intro e q he hq
    obtain rfl := Option.some.inj (he.symm.trans hq)
    exact le_rfl
  | head hd _ ih =>
    intro e q he hq
    obtain ⟨_, z, _, hz, _⟩ := id hd
    exact (ih hz hq).trans (hd.rank_lt he hz).le

theorem Rests.of_genesis (hx : Λ.Rests p.genesisHash h) : h = p.genesisHash := by
  rcases Relation.ReflTransGen.cases_head hx with heq | ⟨y, ⟨e, q, he, hq, hd⟩, _⟩
  · exact heq.symm
  · obtain rfl := Option.some.inj (he.symm.trans Λ.genesis)
    rcases hd with hp | hrec
    · exact absurd hp.symm (Λ.ne_zero hq)
    · simp [Entry.receives, Env.genesisEntry, Env.genesisBlock, Env.genesisOpen] at hrec

/-- A block that is stored has everything stored that it rests on. -/
theorem Rests.stored (hx : Λ.Rests x y) (he : Λ.entry x = some e) :
    ∃ q, Λ.entry y = some q := by
  rcases Relation.ReflTransGen.cases_tail hx with heq | ⟨z, _, _, q, _, hq, _⟩
  · exact ⟨e, heq ▸ he⟩
  · exact ⟨q, hq⟩

/-- Nothing else rests on a head that is not received. -/
theorem Rests.eq_of_top (hx : Λ.Rests x h) (hhead : Λ.IsHead h) (hrec : ¬ Λ.Received h) :
    x = h := by
  rcases Relation.ReflTransGen.cases_tail hx with heq | ⟨z, _, e, _, he, _, hprev | hsource⟩
  · exact heq.symm
  · exact absurd hprev (hhead z e he)
  · exact absurd ⟨z, e, he, hsource⟩ hrec

/-! ## Trimming -/

namespace Trimmed

theorem refl (Λ : Lattice p) (h : BlockHash) : Λ.Trimmed Λ h :=
  ⟨id, fun he hn => absurd hn (by simp [he])⟩

theorem dep (ht : Λ.Trimmed Λ' h) (hd : Λ'.Dep x y) : Λ.Dep x y := by
  obtain ⟨e, q, he, hq, hdep⟩ := hd
  exact ⟨e, q, ht.sub he, ht.sub hq, hdep⟩

theorem rests (ht : Λ.Trimmed Λ' h) (hx : Λ'.Rests x y) : Λ.Rests x y :=
  Relation.ReflTransGen.mono (fun _ _ hd => ht.dep hd) _ _ hx

theorem trans (ht : Λ.Trimmed Λ' h) (ht' : Λ'.Trimmed Λ'' y) (hy : Λ.Rests y h) :
    Λ.Trimmed Λ'' h := by
  refine ⟨fun hx => ht.sub (ht'.sub hx), fun {x e} hx hn => ?_⟩
  cases hx' : Λ'.entry x with
  | none => exact ht.gone hx hx'
  | some e' => exact (ht.rests (ht'.gone hx' hn)).trans hy

theorem isHead (ht : Λ.Trimmed Λ' h) (hx : Λ.IsHead x) : Λ'.IsHead x :=
  fun h' e' he' => hx h' e' (ht.sub he')

/-- What is smaller than `h` stays. -/
theorem keeps (ht : Λ.Trimmed Λ' h) (he : Λ.entry h = some e) (hq : Λ.entry x = some q)
    (hlt : q.rank < e.rank) : Λ'.entry x = some q := by
  cases hx : Λ'.entry x with
  | none => exact absurd ((ht.gone hq hx).rank_le hq he) hlt.not_ge
  | some q' => rw [Option.some.inj (hq.symm.trans (ht.sub hx))]

theorem previous_eq (ht : Λ.Trimmed Λ' x) (he : Λ'.entry h = some e) :
    Λ'.entry e.block.previous = Λ.entry e.block.previous := by
  rcases first_or_follows he with hf | ⟨q, hq, _⟩
  · rw [hf.previous, Λ.entry_zero, Λ'.entry_zero]
  · rw [hq, ht.sub hq]

/-- **Exactly the dependents go.** When `h` is gone, what is left is what did
not rest on it. -/
theorem entry_iff (ht : Λ.Trimmed Λ' h) (hgone : Λ'.entry h = none) :
    Λ'.entry x = some e ↔ Λ.entry x = some e ∧ ¬ Λ.Rests x h := by
  constructor
  · intro hx
    refine ⟨ht.sub hx, fun hrest => ?_⟩
    -- go down from `x`: each block is still stored, and so is what it rests on
    have hdown : ∀ z, Λ.Rests x z → z ≠ 0 → ∃ q, Λ'.entry z = some q := by
      intro z hz
      induction hz with
      | refl => exact fun _ => ⟨e, hx⟩
      | @tail z z' _ hd ih =>
        intro h0
        obtain ⟨e₁, q₁, he₁, hq₁, hdep⟩ := hd
        obtain ⟨q, hq⟩ := ih (Λ.ne_zero he₁)
        obtain rfl := Option.some.inj (he₁.symm.trans (ht.sub hq))
        exact dep_of_dependsOn hq hdep h0
    obtain ⟨q, hq⟩ := hrest.stored (ht.sub hx)
    obtain ⟨q', hq'⟩ := hdown h hrest (Λ.ne_zero hq)
    cases hgone.symm.trans hq'
  · rintro ⟨hx, hrest⟩
    cases hx' : Λ'.entry x with
    | none => exact absurd (ht.gone hx hx') hrest
    | some e' => exact (ht.sub hx').symm.trans hx

end Trimmed

theorem erase_trimmed (rm : Λ.Removable h e) : Λ.Trimmed (Λ.erase rm) h := by
  refine ⟨fun hx => ((erase_entry_some rm).mp hx).2, fun {x ex} hx hn => ?_⟩
  by_cases heq : x = h
  · rw [heq]
  · rw [erase_entry_of_ne rm heq, hx] at hn
    cases hn

/-! ## Counting what is left -/

/-- The number of entries of rank `r` or more. -/
noncomputable def above (Λ : Lattice p) (r : ℕ) : ℕ :=
  {x | ∃ e, Λ.entry x = some e ∧ r ≤ e.rank}.ncard

theorem finite_above (Λ : Lattice p) (r : ℕ) :
    {x | ∃ e, Λ.entry x = some e ∧ r ≤ e.rank}.Finite := by
  refine Λ.finite.subset ?_
  rintro x ⟨e, he, _⟩
  exact Option.isSome_iff_exists.mpr ⟨e, he⟩

theorem above_le {r r' : ℕ} (hr : r ≤ r') : Λ.above r' ≤ Λ.above r := by
  refine Set.ncard_le_ncard ?_ (Λ.finite_above r)
  rintro x ⟨e, he, hle⟩
  exact ⟨e, he, hr.trans hle⟩

theorem above_lt (he : Λ.entry h = some e) : Λ.above (e.rank + 1) < Λ.above e.rank := by
  refine Set.ncard_lt_ncard ⟨?_, fun hsub => ?_⟩ (Λ.finite_above e.rank)
  · rintro x ⟨q, hq, hle⟩
    exact ⟨q, hq, by omega⟩
  · obtain ⟨q, hq, hle⟩ := hsub ⟨e, he, le_rfl⟩
    obtain rfl := Option.some.inj (he.symm.trans hq)
    omega

theorem Trimmed.above_lt (ht : Λ.Trimmed Λ' h) {r : ℕ} (hx : Λ.entry x = some e) (hr : r ≤ e.rank)
    (hn : Λ'.entry x = none) : Λ'.above r < Λ.above r := by
  refine Set.ncard_lt_ncard ⟨?_, fun hsub => ?_⟩ (Λ.finite_above r)
  · rintro y ⟨q, hq, hle⟩
    exact ⟨q, ht.sub hq, hle⟩
  · obtain ⟨q, hq, _⟩ := hsub ⟨e, hx, hr⟩
    cases hn.symm.trans hq

end RaiBlocks.Lattice
