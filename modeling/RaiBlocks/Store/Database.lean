import RaiBlocks.Store.BlockStore
import Mathlib.Data.Set.Card

/-!
# The five block databases as one table

A hash is looked up in five databases in turn. As long as no hash is in two of
them and every value sits in the database of its own type, the five behave
like one table from hashes to raw values, `stored`. This file shows that for
each block operation of the store: what it needs, and what it does to
`stored`.
-/

namespace RaiBlocks

open Foundation

/-- The block databases of a store. -/
abbrev Database : Type := BlockType → Table BlockHash BlockEntry

namespace Database

variable {d : Database} {h : BlockHash} {v : BlockEntry}

/-- The raw value found for a hash. -/
def stored (d : Database) (h : BlockHash) : Option BlockEntry :=
  BlockStore.getOrder.findSome? fun type => (d type).lookup h

/-- Every value is in the database of its type, and no hash in two. -/
structure Coherent (d : Database) : Prop where
  typed : ∀ {t h v}, (d t).lookup h = some v → v.block.type = t
  unique : ∀ {t t' h v v'}, (d t).lookup h = some v → (d t').lookup h = some v' → t = t'

theorem mem_getOrder (t : BlockType) : t ∈ BlockStore.getOrder := by
  cases t <;> decide

theorem mem_delOrder (t : BlockType) : t ∈ BlockStore.delOrder := by
  cases t <;> decide

theorem stored_eq_none : d.stored h = none ↔ ∀ t, (d t).lookup h = none := by
  unfold stored
  rw [List.findSome?_eq_none_iff]
  exact ⟨fun hn t => hn t (mem_getOrder t), fun hn t _ => hn t⟩

theorem Coherent.stored_eq_some (hc : d.Coherent) :
    d.stored h = some v ↔ (d v.block.type).lookup h = some v := by
  constructor
  · intro hs
    obtain ⟨t, _, ht⟩ := List.exists_of_findSome?_eq_some hs
    rw [hc.typed ht]
    exact ht
  · intro hv
    cases hs : d.stored h with
    | none =>
      rw [stored_eq_none.mp hs] at hv
      cases hv
    | some v' =>
      obtain ⟨t, _, ht⟩ := List.exists_of_findSome?_eq_some hs
      rw [hc.unique hv ht, ht] at hv
      exact hv

/-! ## Writing and deleting one value -/

/-- The databases after `block_put_raw`. -/
def put (d : Database) (h : BlockHash) (v : BlockEntry) : Database :=
  Function.update d v.block.type ((d v.block.type).insert h v)

/-- The databases after deleting `h` in the database `type`. -/
def del (d : Database) (type : BlockType) (h : BlockHash) : Database :=
  Function.update d type ((d type).erase h)

theorem lookup_put (d : Database) (h x : BlockHash) (v : BlockEntry) (t : BlockType) :
    (d.put h v t).lookup x =
      if t = v.block.type ∧ x = h then some v else (d t).lookup x := by
  unfold put
  by_cases ht : t = v.block.type
  · subst ht
    rw [Function.update_self, Table.lookup_insert_ite]
    simp
  · rw [Function.update_of_ne ht]
    simp [ht]

theorem lookup_del (d : Database) (h x : BlockHash) (type t : BlockType) :
    (d.del type h t).lookup x =
      if t = type ∧ x = h then none else (d t).lookup x := by
  unfold del
  by_cases ht : t = type
  · subst ht
    rw [Function.update_self, Table.lookup_erase_ite]
    simp
  · rw [Function.update_of_ne ht]
    simp [ht]

/-- Writing is safe where nothing of another type is stored under the hash. -/
theorem Coherent.put (hc : d.Coherent)
    (hold : ∀ v', d.stored h = some v' → v'.block.type = v.block.type) :
    (d.put h v).Coherent ∧ ∀ x, (d.put h v).stored x = if x = h then some v else d.stored x := by
  -- under `h`, the other databases are empty
  have hother : ∀ t v', (d t).lookup h = some v' → t = v.block.type := by
    intro t v' ht
    have := hc.typed ht
    subst this
    exact hold v' (hc.stored_eq_some.mpr ht)
  have hcoh : (d.put h v).Coherent := by
    constructor
    · intro t x v' hx
      rw [lookup_put] at hx
      split at hx
      · rename_i hcond
        obtain rfl := Option.some.inj hx
        exact hcond.1.symm
      · exact hc.typed hx
    · intro t t' x v₁ v₂ h₁ h₂
      rw [lookup_put] at h₁ h₂
      split at h₁ <;> split at h₂
      · rename_i hcond hcond'
        exact hcond.1.trans hcond'.1.symm
      · rename_i hcond _
        rw [hcond.2] at h₂
        rw [hcond.1, hother _ _ h₂]
      · rename_i _ hcond
        rw [hcond.2] at h₁
        rw [hcond.1, hother _ _ h₁]
      · exact hc.unique h₁ h₂
  refine ⟨hcoh, fun x => ?_⟩
  by_cases hx : x = h
  · subst hx
    rw [if_pos rfl, hcoh.stored_eq_some, lookup_put]
    simp
  · rw [if_neg hx]
    unfold stored
    congr 1
    funext t
    rw [lookup_put]
    simp [hx]

theorem Coherent.del (hc : d.Coherent) (hv : d.stored h = some v) :
    (d.del v.block.type h).Coherent ∧
      ∀ x, (d.del v.block.type h).stored x = if x = h then none else d.stored x := by
  have hlook := hc.stored_eq_some.mp hv
  constructor
  · constructor
    · intro t x v' hx
      rw [lookup_del] at hx
      split at hx
      · cases hx
      · exact hc.typed hx
    · intro t t' x v₁ v₂ h₁ h₂
      rw [lookup_del] at h₁ h₂
      split at h₁
      · cases h₁
      · split at h₂
        · cases h₂
        · exact hc.unique h₁ h₂
  · intro x
    by_cases hx : x = h
    · subst hx
      rw [if_pos rfl, stored_eq_none]
      intro t
      rw [lookup_del]
      split
      · rfl
      · rename_i hne
        cases ht : (d t).lookup x with
        | none => rfl
        | some v' => exact absurd ⟨hc.unique ht hlook, rfl⟩ hne
    · rw [if_neg hx]
      unfold stored
      congr 1
      funext t
      rw [lookup_del]
      simp [hx]

end Database

namespace BlockStore

variable {p : Env} {s : BlockStore} {h : BlockHash} {b : Block} {v : BlockEntry}

/-! ## The read operations in terms of `stored` -/

theorem blockGetRaw_map_snd (s : BlockStore) (h : BlockHash) :
    (s.blockGetRaw h).map Prod.snd = Database.stored s.blockDatabase h := by
  unfold blockGetRaw Database.stored
  generalize getOrder = l
  induction l with
  | nil => rfl
  | cons t l ih =>
    simp only [List.findSome?_cons]
    cases (s.blockDatabase t).lookup h with
    | none => exact ih
    | some v => rfl

theorem blockGetRaw_eq (hc : Database.Coherent s.blockDatabase) (h : BlockHash) :
    s.blockGetRaw h =
      (Database.stored s.blockDatabase h).map fun v => (v.block.type, v) := by
  have hmap := blockGetRaw_map_snd s h
  cases hraw : s.blockGetRaw h with
  | none =>
    rw [hraw] at hmap
    rw [← hmap]
    rfl
  | some found =>
    obtain ⟨t, v⟩ := found
    rw [hraw] at hmap
    obtain ⟨t', _, ht'⟩ := List.exists_of_findSome?_eq_some hraw
    obtain ⟨v', hv', heq⟩ := Option.map_eq_some_iff.mp ht'
    obtain ⟨rfl, rfl⟩ := Prod.mk.inj heq
    rw [← hmap]
    simp [hc.typed hv']

theorem blockGet_eq (s : BlockStore) (h : BlockHash) :
    s.blockGet h = (Database.stored s.blockDatabase h).map BlockEntry.block := by
  rw [← blockGetRaw_map_snd, Option.map_map]
  rfl

theorem blockSuccessor_eq (s : BlockStore) (h : BlockHash) :
    s.blockSuccessor h =
      ((Database.stored s.blockDatabase h).map BlockEntry.successor).getD 0 := by
  rw [← blockGetRaw_map_snd, Option.map_map]
  rfl

theorem blockExists_eq (s : BlockStore) (h : BlockHash) :
    s.blockExists h = (Database.stored s.blockDatabase h).isSome := by
  unfold blockExists Database.stored
  generalize getOrder = l
  induction l with
  | nil => rfl
  | cons t l ih =>
    simp only [List.any_cons, List.findSome?_cons, ih]
    cases (s.blockDatabase t).lookup h <;> rfl

theorem blockExists_iff : s.blockExists h = true ↔ ∃ b, s.blockGet h = some b := by
  rw [blockExists_eq, blockGet_eq, Option.isSome_iff_exists]
  cases Database.stored s.blockDatabase h <;> simp

theorem blockExists_eq_false : s.blockExists h = false ↔ s.blockGet h = none := by
  rw [blockExists_eq, blockGet_eq]
  cases Database.stored s.blockDatabase h <;> simp

/-! ## Counting -/

/-- The hashes stored in some of the databases are no more than their rows. -/
theorem finite_ncard_any (d : Database) (l : List BlockType) :
    {h | (l.any fun t => ((d t).lookup h).isSome) = true}.Finite ∧
    {h | (l.any fun t => ((d t).lookup h).isSome) = true}.ncard ≤
      (l.map fun t => (d t).keys.card).sum := by
  induction l with
  | nil => simp
  | cons t l ih =>
    have hset : {h | ((t :: l).any fun t => ((d t).lookup h).isSome) = true} =
        ↑(d t).keys ∪ {h | (l.any fun t => ((d t).lookup h).isSome) = true} := by
      ext h
      simp [Finmap.mem_keys, Finmap.lookup_isSome]
    rw [hset, List.map_cons, List.sum_cons]
    refine ⟨(Finset.finite_toSet _).union ih.1, (Set.ncard_union_le _ _).trans ?_⟩
    rw [Set.ncard_coe_finset]
    exact Nat.add_le_add_left ih.2 _

theorem finite_blocks (s : BlockStore) : {h | s.blockExists h = true}.Finite :=
  (finite_ncard_any s.blockDatabase getOrder).1

theorem ncard_blocks_le (s : BlockStore) : {h | s.blockExists h = true}.ncard ≤ s.blockCount :=
  (finite_ncard_any s.blockDatabase getOrder).2

/-! ## The write operations in terms of `stored` -/

theorem fillValue_eq (hc : Database.Coherent s.blockDatabase)
    (hv : Database.stored s.blockDatabase b.previous = some v) :
    fillValue p s b =
      .ok { s with blockDatabase :=
              Database.put s.blockDatabase b.previous { v with successor := b.hash p } } := by
  unfold fillValue
  rw [blockGetRaw_eq hc, hv]
  rfl

/-- What `stored` becomes when `b` is put under `h`: the new value, and the
successor of the predecessor. -/
def putStored (old : BlockHash → Option BlockEntry) (h : BlockHash) (b : Block)
    (x : BlockHash) : Option BlockEntry :=
  if b.previous ≠ 0 ∧ x = b.previous then
    (old x).map fun v => { v with successor := h }
  else if x = h then some ⟨b, 0⟩ else old x

theorem setPredecessor_of_previous_ne (hp : b.previous ≠ 0) :
    setPredecessor p s b = fillValue p s b := by
  cases b with
  | openBlock b => exact absurd rfl hp
  | stateBlock b => exact if_pos hp
  | _ => rfl

theorem setPredecessor_of_previous_eq (hp : b.previous = 0) (hlegacy : b.account? ≠ none) :
    setPredecessor p s b = .ok s := by
  cases b with
  | openBlock b => rfl
  | stateBlock b => exact if_neg (not_not.mpr hp)
  | _ => exact absurd rfl hlegacy

/-- **`block_put`.** The predecessor, if there is one, is stored and gets the new hash as
its successor. -/
theorem blockPut_successor_eq (hc : Database.Coherent s.blockDatabase) (hh : b.hash p = h)
    (hold : ∀ v, Database.stored s.blockDatabase h = some v → v.block.type = b.type)
    (hprev : (b.previous = 0 ∧ b.account? ≠ none) ∨
      (b.previous ≠ h ∧ b.previous ≠ 0 ∧ ∃ v, Database.stored s.blockDatabase b.previous = some v))
    {y : BlockHash} (hy : y = 0 ∨ s.blockExists y = true) :
    ∃ d, blockPut p s h b y = .ok { s with blockDatabase := d } ∧ Database.Coherent d ∧
      ∀ x, Database.stored d x = if b.previous ≠ 0 ∧ x = b.previous then
          (Database.stored s.blockDatabase x).map fun v => { v with successor := h }
        else if x = h then some ⟨b, y⟩ else Database.stored s.blockDatabase x := by
  have hassert : (decide (y = 0) || s.blockExists y) = true := by
    rcases hy with hy | hy <;> simp [hy]
  obtain ⟨hc₁, hst₁⟩ := hc.put (h := h) (v := ⟨b, y⟩) hold
  have hraw : s.blockPutRaw b.type h ⟨b, y⟩ =
      { s with blockDatabase := Database.put s.blockDatabase h ⟨b, y⟩ } := rfl
  rcases hprev with ⟨hp, ha⟩ | ⟨hne, hp, v, hv⟩
  · refine ⟨_, ?_, hc₁, fun x => ?_⟩
    · unfold blockPut
      rw [hassert, hraw, setPredecessor_of_previous_eq hp ha, decide_eq_true hp]
      rfl
    · rw [hst₁, if_neg (c := b.previous ≠ 0 ∧ _) (fun hx => hx.1 hp)]
  · have hv₁ : Database.stored (Database.put s.blockDatabase h ⟨b, y⟩) b.previous = some v := by
      rw [hst₁, if_neg hne, hv]
    obtain ⟨hc₂, hst₂⟩ := hc₁.put (h := b.previous) (v := { v with successor := b.hash p })
      (fun v' hv' => by rw [hv₁] at hv'; rw [← Option.some.inj hv'])
    refine ⟨_, ?_, hc₂, fun x => ?_⟩
    · unfold blockPut
      rw [hassert, hraw, setPredecessor_of_previous_ne hp,
        fillValue_eq (s := { s with blockDatabase := Database.put s.blockDatabase h ⟨b, y⟩ })
          hc₁ hv₁]
      simp only [assertThat_true, ok_bind]
      rw [blockSuccessor_eq, hst₂, if_pos rfl]
      simp [hh]
    · rw [hst₂, hst₁]
      by_cases hx : x = b.previous
      · subst hx
        rw [if_pos rfl, if_pos ⟨hp, rfl⟩, hv, hh]
        rfl
      · rw [if_neg hx, if_neg (c := _ ∧ x = b.previous) (fun hc => hx hc.2)]

/-- `block_put` with no successor. -/
theorem blockPut_eq (hc : Database.Coherent s.blockDatabase) (hh : b.hash p = h)
    (hold : ∀ v, Database.stored s.blockDatabase h = some v → v.block.type = b.type)
    (hprev : (b.previous = 0 ∧ b.account? ≠ none) ∨
      (b.previous ≠ h ∧ b.previous ≠ 0 ∧
        ∃ v, Database.stored s.blockDatabase b.previous = some v)) :
    ∃ d, blockPut p s h b 0 = .ok { s with blockDatabase := d } ∧ Database.Coherent d ∧
      ∀ x, Database.stored d x = putStored (Database.stored s.blockDatabase) h b x := by
  exact blockPut_successor_eq hc hh hold hprev (Or.inl rfl)

/-- **`block_successor_clear`**: the block is written again without its
successor, and stays the successor of its own predecessor. -/
theorem blockSuccessorClear_eq (hc : Database.Coherent s.blockDatabase)
    (hv : Database.stored s.blockDatabase h = some v) (hh : v.block.hash p = h)
    (hprev : (v.block.previous = 0 ∧ v.block.account? ≠ none) ∨
      (v.block.previous ≠ h ∧ v.block.previous ≠ 0 ∧
        ∃ v', Database.stored s.blockDatabase v.block.previous = some v')) :
    ∃ d, blockSuccessorClear p s h = .ok { s with blockDatabase := d } ∧ Database.Coherent d ∧
      ∀ x, Database.stored d x = putStored (Database.stored s.blockDatabase) h v.block x := by
  unfold blockSuccessorClear
  rw [blockGet_eq, hv]
  refine blockPut_eq hc hh ?_ hprev
  intro v' hv'
  rw [hv] at hv'
  rw [← Option.some.inj hv']

/-- **`block_del`** of a stored hash. -/
theorem blockDel_eq (hc : Database.Coherent s.blockDatabase)
    (hv : Database.stored s.blockDatabase h = some v) :
    ∃ d, s.blockDel h = .ok { s with blockDatabase := d } ∧ Database.Coherent d ∧
      ∀ x, Database.stored d x =
        if x = h then none else Database.stored s.blockDatabase x := by
  have hlook := hc.stored_eq_some.mp hv
  have hfind : (delOrder.find? fun t => ((s.blockDatabase t).lookup h).isSome) =
      some v.block.type := by
    cases hf : delOrder.find? fun t => ((s.blockDatabase t).lookup h).isSome with
    | none =>
      have := List.find?_eq_none.mp hf v.block.type (Database.mem_delOrder _)
      rw [hlook] at this
      exact absurd rfl this
    | some t =>
      have ht := List.find?_some hf
      obtain ⟨v', hv'⟩ := Option.isSome_iff_exists.mp ht
      rw [hc.unique hv' hlook]
  obtain ⟨hc', hst⟩ := hc.del hv
  refine ⟨_, ?_, hc', hst⟩
  unfold blockDel
  rw [hfind]
  rfl

end BlockStore

end RaiBlocks
