import RaiBlocks.Foundation.Table
import RaiBlocks.Foundation.Loop

/-!
# The rows of a table in order

A database keeps its keys sorted. `rows` lists the rows of a table in the order of
the keys, as an iterator meets them, and `firstFrom` is where an iterator that is
placed at a key stands: at the first row whose key is not smaller. `foldlM_rows` is
the rule for a loop over all rows.
-/

namespace RaiBlocks.Foundation

/-- An iterator placed at the number after a key stands behind it. -/
theorem add_one_le_iff {w : ℕ} {a b : BitVec w} (ha : a ≠ BitVec.allOnes w) :
    a + 1 ≤ b ↔ a < b := by
  have hmax : a.toNat ≠ 2 ^ w - 1 := by
    intro h
    exact ha (BitVec.eq_of_toNat_eq (h.trans BitVec.toNat_allOnes.symm))
  have hlt := a.isLt
  have hone : (1 : BitVec w).toNat = 1 :=
    (BitVec.toNat_ofNat 1 w).trans (Nat.mod_eq_of_lt (by omega))
  rw [BitVec.le_def, BitVec.lt_def, BitVec.toNat_add, hone, Nat.mod_eq_of_lt (by omega)]
  exact Nat.succ_le_iff

namespace Table

variable {K V : Type} [DecidableEq K] (r : K → K → Prop) [DecidableRel r] [IsTrans K r]
  [Std.Antisymm r] [Std.Total r] {t : Table K V} {k : K} {v : V} {l : List (K × V)}

/-- `Finset.sort` by insertion, which can be evaluated. -/
def sortKeys (s : Finset K) : List K :=
  Quot.liftOn s.1 (List.insertionSort r) fun l l' h =>
    ((List.perm_insertionSort r l).trans
      (h.trans (List.perm_insertionSort r l').symm)).eq_of_pairwise' (r := r)
      (List.pairwise_insertionSort r l) (List.pairwise_insertionSort r l')

/-- The rows in the order `r` of the keys. -/
def rows (t : Table K V) : List (K × V) :=
  (sortKeys r t.keys).filterMap fun k => (t.lookup k).map fun v => (k, v)

/-- The rows that an iterator placed at the key `k` has before it. -/
def rowsFrom (t : Table K V) (k : K) : List (K × V) := (rows r t).filter fun row => r k row.1

/-- The first row from the key `k` on. -/
def firstFrom (t : Table K V) (k : K) : Option (K × V) := (rows r t).find? fun row => r k row.1

omit [DecidableEq K] in
theorem sortKeys_eq_sort (s : Finset K) : sortKeys r s = s.sort r := by
  obtain ⟨m, hm⟩ := s
  induction m using Quot.inductionOn with
  | h l =>
    refine ((List.perm_insertionSort r l).trans ?_).eq_of_pairwise' (r := r)
      (List.pairwise_insertionSort r l) (Finset.pairwise_sort _ r)
    exact (Multiset.coe_eq_coe.mp (Multiset.sort_eq (l : Multiset K) r)).symm

variable {r}

theorem mem_rows : (k, v) ∈ rows r t ↔ t.lookup k = some v := by
  unfold rows
  rw [sortKeys_eq_sort, List.mem_filterMap]
  constructor
  · rintro ⟨k', _, h⟩
    obtain ⟨v', hv', heq⟩ := Option.map_eq_some_iff.mp h
    obtain ⟨rfl, rfl⟩ := Prod.mk.inj heq
    exact hv'
  · intro h
    refine ⟨k, (Finset.mem_sort r).mpr (Finmap.mem_keys.mpr ?_), ?_⟩
    · rw [← Finmap.lookup_isSome, h]
      rfl
    · rw [h]
      rfl

theorem pairwise_rows (t : Table K V) :
    (rows r t).Pairwise fun x y => r x.1 y.1 ∧ x.1 ≠ y.1 := by
  have hkeys : (t.keys.sort r).Pairwise fun k k' => r k k' ∧ k ≠ k' :=
    (Finset.pairwise_sort t.keys r).and (Finset.sort_nodup t.keys r)
  unfold rows
  rw [sortKeys_eq_sort]
  refine List.Pairwise.filterMap _ ?_ hkeys
  rintro k k' hk x hx y hy
  obtain ⟨_, _, rfl⟩ := Option.map_eq_some_iff.mp hx
  obtain ⟨_, _, rfl⟩ := Option.map_eq_some_iff.mp hy
  exact hk

theorem mem_rowsFrom {k' : K} : (k', v) ∈ rowsFrom r t k ↔ t.lookup k' = some v ∧ r k k' := by
  rw [rowsFrom, List.mem_filter, mem_rows, decide_eq_true_iff]

theorem pairwise_rowsFrom (t : Table K V) (k : K) :
    (rowsFrom r t k).Pairwise fun x y => r x.1 y.1 ∧ x.1 ≠ y.1 :=
  (pairwise_rows t).filter _

theorem head?_rowsFrom (t : Table K V) (k : K) : (rowsFrom r t k).head? = firstFrom r t k :=
  List.head?_filter ..

theorem sum_rows {M : Type} [AddCommMonoid M] (t : Table K V) (f : K → V → M) :
    ((rows r t).map fun row => f row.1 row.2).sum = t.sum f := by
  have hlist : ∀ l : List K, ((l.filterMap fun k => (t.lookup k).map fun v => (k, v)).map
      fun row => f row.1 row.2).sum = (l.map fun k => (t.lookup k).elim 0 (f k)).sum := by
    intro l
    induction l with
    | nil => rfl
    | cons k l ih =>
      rw [List.map_cons, List.sum_cons, ← ih]
      cases hk : t.lookup k with
      | none =>
        rw [List.filterMap_cons_none (by rw [hk]; rfl)]
        exact (zero_add _).symm
      | some v =>
        rw [List.filterMap_cons_some (by rw [hk]; rfl), List.map_cons, List.sum_cons]
        rfl
  unfold rows
  rw [sortKeys_eq_sort, hlist, sum_eq_keys]
  change _ = (t.keys.1.map _).sum
  rw [← Finset.sort_eq t.keys r, Multiset.map_coe, Multiset.sum_coe]

/-! ## Where an iterator stands -/

theorem of_firstFrom_eq_some {k' : K} (h : firstFrom r t k = some (k', v)) :
    t.lookup k' = some v ∧ r k k' ∧ ∀ {x w}, t.lookup x = some w → r k x → r k' x := by
  obtain ⟨hk, before, after, hrows, hbefore⟩ := List.find?_eq_some_iff_append.mp h
  have hsorted := pairwise_rows (r := r) t
  rw [hrows] at hsorted
  refine ⟨mem_rows (r := r).mp ?_, of_decide_eq_true hk, fun {x w} hx hkx => ?_⟩
  · rw [hrows]
    exact List.mem_append_right _ List.mem_cons_self
  · have hmem := mem_rows (r := r).mpr hx
    rw [hrows] at hmem
    rcases List.mem_append.mp hmem with hmem | hmem
    · have := hbefore _ hmem
      simp [hkx] at this
    · rcases List.mem_cons.mp hmem with heq | hmem
      · rw [← (Prod.mk.inj heq).1]
        exact (Std.Total.total x x).elim id id
      · exact (List.rel_of_pairwise_cons (List.pairwise_append.mp hsorted).2.1 hmem).1

theorem of_firstFrom_eq_none {x : K} {w : V} (h : firstFrom r t k = none)
    (hx : t.lookup x = some w) : ¬ r k x := by
  have := List.find?_eq_none.mp h _ (mem_rows (r := r).mpr hx)
  simpa using this

/-! ## Loops over the rows -/

/-- **A loop over all rows.** `I D s` reads "`s` is a state of the loop that has met the
keys `D`". -/
theorem foldlM_rows {σ ε : Type} {f : σ → K × V → Except ε σ} {I : Finset K → σ → Prop}
    (hstep : ∀ D s k v, t.lookup k = some v → k ∉ D → I D s → ∃ s', f s (k, v) = .ok s' ∧
      I (insert k D) s')
    {s : σ} (hs : I ∅ s) : ∃ s', (rows r t).foldlM f s = .ok s' ∧ I t.keys s' := by
  have hlist : ∀ (l : List (K × V)) (D : Finset K) (s : σ),
      (∀ row ∈ l, t.lookup row.1 = some row.2 ∧ row.1 ∉ D) →
      l.Pairwise (fun x y => x.1 ≠ y.1) → I D s →
      ∃ s', l.foldlM f s = .ok s' ∧ I (D ∪ (l.map Prod.fst).toFinset) s' := by
    intro l
    induction l with
    | nil =>
      intro D s _ _ hs
      exact ⟨s, rfl, by simpa using hs⟩
    | cons row l ih =>
      intro D s hrows hdistinct hs
      obtain ⟨hrow, hfresh⟩ := hrows row List.mem_cons_self
      obtain ⟨s₁, hrun, hs₁⟩ := hstep D s row.1 row.2 hrow hfresh hs
      rw [List.pairwise_cons] at hdistinct
      have hothers : ∀ x ∈ l, t.lookup x.1 = some x.2 ∧ x.1 ∉ insert row.1 D := by
        intro x hx
        obtain ⟨hx', hxD⟩ := hrows x (List.mem_cons_of_mem _ hx)
        refine ⟨hx', fun hmem => ?_⟩
        rcases Finset.mem_insert.mp hmem with heq | hmem
        · exact hdistinct.1 x hx heq.symm
        · exact hxD hmem
      obtain ⟨s', hrest, hs'⟩ := ih (insert row.1 D) s₁ hothers hdistinct.2 hs₁
      refine ⟨s', ?_, ?_⟩
      · rw [List.foldlM_cons, hrun]
        exact hrest
      · rw [List.map_cons, List.toFinset_cons, Finset.union_insert, ← Finset.insert_union]
        exact hs'
  obtain ⟨s', hrun, hs'⟩ := hlist (rows r t) ∅ s
    (fun row hrow => ⟨mem_rows.mp hrow, Finset.notMem_empty _⟩)
    ((pairwise_rows t).imp fun h => h.2) hs
  have hkeys : ∅ ∪ ((rows r t).map Prod.fst).toFinset = t.keys := by
    ext k
    rw [Finset.empty_union, List.mem_toFinset, List.mem_map, Finmap.mem_keys,
      ← Finmap.lookup_isSome, Option.isSome_iff_exists]
    constructor
    · rintro ⟨row, hrow, rfl⟩
      exact ⟨row.2, mem_rows.mp hrow⟩
    · rintro ⟨v, hv⟩
      exact ⟨(k, v), mem_rows.mpr hv, rfl⟩
  rw [hkeys] at hs'
  exact ⟨s', hrun, hs'⟩

/-! ## Writing and deleting many rows -/

/-- The table after writing `l` row by row. -/
def putAll (t : Table K V) (l : List (K × V)) : Table K V :=
  l.foldl (fun t row => t.insert row.1 row.2) t

theorem lookup_putAll_of_notMem (hk : k ∉ l.map Prod.fst) :
    ∀ t : Table K V, (t.putAll l).lookup k = t.lookup k := by
  induction l with
  | nil => exact fun t => rfl
  | cons row l ih =>
    intro t
    rw [List.map_cons, List.mem_cons, not_or] at hk
    exact (ih hk.2 (t.insert row.1 row.2)).trans (by rw [lookup_insert_ite, if_neg hk.1])

theorem lookup_putAll_of_mem (hl : (l.map Prod.fst).Nodup) (hk : (k, v) ∈ l) :
    ∀ t : Table K V, (t.putAll l).lookup k = some v := by
  induction l with
  | nil => cases hk
  | cons row l ih =>
    intro t
    rw [List.map_cons, List.nodup_cons] at hl
    rcases List.mem_cons.mp hk with rfl | hk
    · exact (lookup_putAll_of_notMem hl.1 _).trans (by rw [lookup_insert_ite, if_pos rfl])
    · exact ih hl.2 hk _

theorem lookup_empty_putAll (hl : (l.map Prod.fst).Nodup) :
    ((∅ : Table K V).putAll l).lookup k = some v ↔ (k, v) ∈ l := by
  refine ⟨fun hv => ?_, fun hk => lookup_putAll_of_mem hl hk ∅⟩
  by_cases hk : k ∈ l.map Prod.fst
  · obtain ⟨⟨k', v'⟩, hrow, rfl⟩ := List.mem_map.mp hk
    rw [lookup_putAll_of_mem hl hrow] at hv
    rwa [← Option.some.inj hv]
  · rw [lookup_putAll_of_notMem hk, Finmap.lookup_empty] at hv
    cases hv

/-- The table after deleting `l` key by key. -/
def eraseAll (t : Table K V) (l : List K) : Table K V := l.foldl (fun t k => t.erase k) t

theorem lookup_eraseAll (l : List K) (k : K) :
    ∀ t : Table K V, (t.eraseAll l).lookup k = if k ∈ l then none else t.lookup k := by
  induction l with
  | nil => exact fun t => (if_neg List.not_mem_nil).symm
  | cons x l ih =>
    intro t
    refine (ih (t.erase x)).trans ?_
    rw [lookup_erase_ite]
    by_cases hk : k ∈ l
    · rw [if_pos hk, if_pos (List.mem_cons_of_mem _ hk)]
    · rw [if_neg hk]
      exact if_congr (by simp [hk]) rfl rfl

end Table

end RaiBlocks.Foundation
