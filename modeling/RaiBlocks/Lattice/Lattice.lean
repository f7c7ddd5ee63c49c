import RaiBlocks.Lattice.Entry
import Mathlib.Data.Set.Card
import Mathlib.Logic.Relation

/-!
# The block lattice

A lattice is a finite set of entries in which every entry is justified, every
root carries one block, every send is received at most once, and every block
but the first is signed by its owner. The structure carries all of this, so an
ill-formed lattice cannot be written down; it grows by `insert` and shrinks by
`erase`, and both ask for what keeps it well formed.

The reserved numbers are those the code uses for something else than a block:
0 for "none", 1 for the start of the search in `ledger::account`, and the
account numbers.
-/

namespace RaiBlocks

structure Lattice (p : Env) where
  entry : BlockHash → Option Entry
  finite : {h | (entry h).isSome}.Finite
  hash_eq : ∀ {h e}, entry h = some e → e.block.hash p = h
  justified : ∀ {h e}, entry h = some e → Justified p entry h e
  genesis : entry p.genesisHash = some p.genesisEntry
  root_inj : ∀ {h h' e e'}, entry h = some e → entry h' = some e' →
    e.block.root = e'.block.root → h = h'
  receives_inj : ∀ {h h' e e' x}, entry h = some e → entry h' = some e' →
    e.receives p = some x → e'.receives p = some x → h = h'
  signed : ∀ {h e}, entry h = some e → h ≠ p.genesisHash →
    p.validateMessage e.owner h e.block.blockSignature = false
  ne_zero : ∀ {h e}, entry h = some e → h ≠ 0
  ne_one : ∀ {h e}, entry h = some e → h ≠ 1
  owner_unstored : ∀ {h e}, entry h = some e → entry e.owner = none

namespace Lattice

variable {p : Env} (Λ : Lattice p)

/-- No block stands on top of `h`. -/
def IsHead (h : BlockHash) : Prop :=
  ∀ h' e', Λ.entry h' = some e' → e'.block.previous ≠ h

/-- Some block receives the send `h`. -/
def Received (h : BlockHash) : Prop :=
  ∃ h' e', Λ.entry h' = some e' ∧ e'.receives p = some h

/-- The account has no block. -/
def Unopened (a : Account) : Prop :=
  ∀ h e, Λ.entry h = some e → e.owner ≠ a

/-- `x` rests directly on the stored block `y`. -/
def Dep (x y : BlockHash) : Prop :=
  ∃ e q, Λ.entry x = some e ∧ Λ.entry y = some q ∧ e.DependsOn p y

variable {Λ} {h h' : BlockHash} {e e' : Entry}

theorem entry_zero (Λ : Lattice p) : Λ.entry 0 = none := by
  cases h0 : Λ.entry 0 with
  | none => rfl
  | some e => exact absurd rfl (Λ.ne_zero h0)

/-! ## Induction along dependencies -/

theorem rank_induction {P : BlockHash → Entry → Prop}
    (hstep : ∀ h e, Λ.entry h = some e →
      (∀ h' e', Λ.entry h' = some e' → e'.rank < e.rank → P h' e') → P h e) :
    ∀ h e, Λ.entry h = some e → P h e := by
  have main : ∀ n h e, e.rank < n → Λ.entry h = some e → P h e := by
    intro n
    induction n with
    | zero => intro h e hn; omega
    | succ n ih =>
      intro h e hn he
      refine hstep h e he fun h' e' he' hlt => ih h' e' (by omega) he'
  intro h e he
  exact main (e.rank + 1) h e (Nat.lt_succ_self _) he

theorem first_or_follows (he : Λ.entry h = some e) :
    e.First ∨ ∃ q, Λ.entry e.block.previous = some q ∧ e.Follows q :=
  (Λ.justified he).first_or_follows

/-- With a predecessor field other than zero, the predecessor is stored. -/
theorem follows_of_previous_ne (he : Λ.entry h = some e) (hp : e.block.previous ≠ 0) :
    ∃ q, Λ.entry e.block.previous = some q ∧ e.Follows q := by
  rcases first_or_follows he with hf | hq
  · exact absurd hf.previous hp
  · exact hq

theorem first_of_previous_eq (he : Λ.entry h = some e) (hp : e.block.previous = 0) :
    e.First := by
  rcases first_or_follows he with hf | ⟨q, hq, _⟩
  · exact hf
  · exact absurd hp (Λ.ne_zero hq)

theorem Dep.rank_lt (hd : Λ.Dep h h') (he : Λ.entry h = some e)
    (he' : Λ.entry h' = some e') : e'.rank < e.rank := by
  obtain ⟨e₁, q, h₁, hq, hdep⟩ := hd
  obtain rfl := Option.some.inj (he.symm.trans h₁)
  obtain rfl := Option.some.inj (he'.symm.trans hq)
  rcases hdep with hprev | hrec
  · rcases first_or_follows he with hf | ⟨q, hq', hfol⟩
    · exact absurd (hprev.symm.trans hf.previous) (Λ.ne_zero he')
    · rw [hprev, he'] at hq'
      obtain rfl := Option.some.inj hq'
      exact hfol.rank
  · obtain ⟨src, hs, ht⟩ := (Λ.justified he).takes hrec
    rw [he'] at hs
    obtain rfl := Option.some.inj hs
    exact ht.rank

/-- What a stored block depends on is stored: zero is no block, and the source
of a receive is one. -/
theorem dep_of_dependsOn (he : Λ.entry h = some e) (hd : e.DependsOn p h') (h0 : h' ≠ 0) :
    ∃ q, Λ.entry h' = some q := by
  rcases hd with rfl | hrec
  · obtain ⟨q, hq, _⟩ := follows_of_previous_ne he h0
    exact ⟨q, hq⟩
  · obtain ⟨src, hs, _⟩ := (Λ.justified he).takes hrec
    exact ⟨src, hs⟩

/-- Owners are never the burn account, and balances fit in 128 bits. -/
theorem sound (he : Λ.entry h = some e) :
    e.owner ≠ 0 ∧ e.prior < 2 ^ 128 ∧ e.balance < 2 ^ 128 := by
  refine rank_induction (P := fun _ e => e.owner ≠ 0 ∧ e.prior < 2 ^ 128 ∧ e.balance < 2 ^ 128)
    ?_ h e he
  intro h e he ih
  have hamount : ∀ src : Entry, src.prior < 2 ^ 128 → src.balance < 2 ^ 128 →
      src.amount < 2 ^ 128 := by
    intro src hp hb
    unfold Entry.amount
    split <;> omega
  cases Λ.justified he with
  | genesis hh =>
    refine ⟨genesisAccount_ne_zero p, ?_, ?_⟩
    · show 0 < 2 ^ 128
      norm_num
    · show 2 ^ 128 - 1 < 2 ^ 128
      norm_num
  | receive hq hl hs hd hlt =>
    obtain ⟨ho, _, hb⟩ := ih _ _ hq (by show _ < _ + _ + 1; omega)
    exact ⟨ho, hb, hlt⟩
  | openAccount h0 hg hs hd =>
    obtain ⟨_, hp, hb⟩ := ih _ _ hs (Nat.lt_succ_self _)
    exact ⟨h0, by norm_num, hamount _ hp hb⟩
  | change hq hl =>
    obtain ⟨ho, _, hb⟩ := ih _ _ hq (Nat.lt_succ_self _)
    exact ⟨ho, hb, hb⟩
  | send hq hl hle =>
    obtain ⟨ho, _, hb⟩ := ih _ _ hq (Nat.lt_succ_self _)
    exact ⟨ho, hb, BitVec.isLt _⟩
  | stateSend hq ho hlt =>
    obtain ⟨ho', _, hb⟩ := ih _ _ hq (Nat.lt_succ_self _)
    exact ⟨ho ▸ ho', hb, BitVec.isLt _⟩
  | stateChange hq ho hl hb =>
    obtain ⟨ho', _, hb⟩ := ih _ _ hq (Nat.lt_succ_self _)
    exact ⟨ho ▸ ho', hb, BitVec.isLt _⟩
  | stateReceive hq ho hl hs hd hb =>
    obtain ⟨ho', _, hb⟩ := ih _ _ hq (by show _ < _ + _ + 1; omega)
    exact ⟨ho ▸ ho', hb, BitVec.isLt _⟩
  | stateOpen h0 hp hl hs hd hb => exact ⟨h0, by norm_num, BitVec.isLt _⟩

end Lattice

end RaiBlocks
