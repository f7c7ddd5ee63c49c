import RaiBlocks.Store.Database
import RaiBlocks.Ledger.Ledger
import RaiBlocks.Lattice.Update

/-!
# The tables of a store as views of a lattice

A store refines a lattice when each of its tables is the one the lattice
determines. The relation is split by table, each part a predicate of that
table alone: an operation that writes one table leaves the other parts
standing as they are.

Two quantities are kept apart from the relation because rollback changes them
in the middle of a step, before the blocks follow: the supply and the drift of
the representation table against the weights of the lattice.
-/

namespace RaiBlocks

open Foundation

variable {p : Env} {s : BlockStore} {h : BlockHash} {Λ : Lattice p} {U : Set Block} {b : Block}
  {a : Account} {t : Table Account AccountInfo} {e : Entry}

/-- What is assumed of Blake2b on the blocks `U` of a run: no collisions, and
no value that the code uses for something else. `0` is "no block", `1` is where
`ledger::account` starts its search, and the rest are account numbers. -/
structure HashAssumptions (p : Env) (U : Set Block) : Prop where
  genesis_mem : p.genesisBlock ∈ U
  collision_free : ∀ {b b'}, b ∈ U → b' ∈ U → b.hash p = b'.hash p → b.hashInput = b'.hashInput
  ne_zero : ∀ {b}, b ∈ U → b.hash p ≠ 0
  ne_one : ∀ {b}, b ∈ U → b.hash p ≠ 1
  ne_account : ∀ {b b' a}, b ∈ U → b' ∈ U → b'.account? = some a → b.hash p ≠ a

theorem HashAssumptions.legacy_ne_state (ha : HashAssumptions p U) {b' : Block} (hb : b ∈ U)
    (hb' : b' ∈ U) (hl : b.isLegacy = true) (hs : b'.isLegacy = false) : b.hash p ≠ b'.hash p :=
  fun heq => hashInput_length_ne hl hs (ha.collision_free hb hb' heq)

theorem HashAssumptions.mono {V : Set Block} (ha : HashAssumptions p U) (hsub : V ⊆ U)
    (hg : p.genesisBlock ∈ V) : HashAssumptions p V :=
  ⟨hg, fun hb hb' => ha.collision_free (hsub hb) (hsub hb'), fun hb => ha.ne_zero (hsub hb),
    fun hb => ha.ne_one (hsub hb), fun hb hb' => ha.ne_account (hsub hb) (hsub hb')⟩

/-- For finitely many blocks the assumptions can be tested. -/
theorem HashAssumptions.of_list {l : List Block} (hg : p.genesisBlock ∈ l)
    (hinj : ∀ b ∈ l, ∀ b' ∈ l, b.hash p = b'.hash p → b.hashInput = b'.hashInput)
    (hne : ∀ b ∈ l, b.hash p ≠ 0 ∧ b.hash p ≠ 1)
    (haccount : ∀ b ∈ l, ∀ b' ∈ l, b'.account? ≠ some (b.hash p)) :
    HashAssumptions p {b | b ∈ l} where
  genesis_mem := hg
  collision_free hb hb' := hinj _ hb _ hb'
  ne_zero hb := (hne _ hb).1
  ne_one hb := (hne _ hb).2
  ne_account hb hb' ha heq := haccount _ hb _ hb' (heq ▸ ha)

namespace Lattice

/-- `y` is what the successor field of `h` has to hold: the block on top of
`h`, or zero at the head. -/
def IsNext (Λ : Lattice p) (h y : BlockHash) : Prop :=
  (Λ.IsHead h ∧ y = 0) ∨ ∃ e', Λ.entry y = some e' ∧ e'.block.previous = h

/-- There is one block on top of `h`, or none. -/
theorem IsNext.unique {Λ : Lattice p} {h y y' : BlockHash} {e : Entry} (he : Λ.entry h = some e)
    (hy : Λ.IsNext h y) (hy' : Λ.IsNext h y') : y = y' := by
  rcases hy with ⟨hhead, rfl⟩ | ⟨ey, hey, hp⟩
  · rcases hy' with ⟨_, rfl⟩ | ⟨ey', hey', hp'⟩
    · rfl
    · exact absurd hp' (hhead _ ey' hey')
  · rcases hy' with ⟨hhead, _⟩ | ⟨ey', hey', hp'⟩
    · exact absurd hp (hhead _ ey hey)
    · exact previous_inj hey hey' (hp.trans hp'.symm) (hp ▸ Λ.ne_zero he)

/-- `info` is the account row of `a`, whose head entry is `e`. -/
structure Describes (Λ : Lattice p) (a : Account) (info : AccountInfo) (e : Entry) :
    Prop where
  head : Λ.entry info.head = some e
  owner : e.owner = a
  isHead : Λ.IsHead info.head
  rep : info.repBlock = e.rep
  balance : info.balance.toNat = e.balance
  count : info.blockCount = e.height
  opened : ∃ o, Λ.entry info.openBlock = some o ∧ o.owner = a ∧ o.block.previous = 0

end Lattice

/-- The pending row of a send. -/
def Entry.pendingInfo (e : Entry) : PendingInfo := ⟨e.owner, BitVec.ofNat 128 e.amount⟩

/-- The block info row of a block. -/
def Entry.blockInfo (e : Entry) : BlockInfo := ⟨e.owner, BitVec.ofNat 128 e.balance⟩

structure BlocksOk (d : Database) (Λ : Lattice p) : Prop where
  coherent : d.Coherent
  block : ∀ h, (d.stored h).map BlockEntry.block = (Λ.entry h).map Entry.block
  next : ∀ {h v}, d.stored h = some v → Λ.IsNext h v.successor

structure AccountsOk (t : Table Account AccountInfo) (Λ : Lattice p) : Prop where
  sound : ∀ {a info}, t.lookup a = some info → ∃ e, Λ.Describes a info e
  complete : ∀ {h e}, Λ.entry h = some e → ∃ info, t.lookup e.owner = some info

def FrontiersOk (t : Table BlockHash Account) (Λ : Lattice p) : Prop :=
  ∀ h a, t.lookup h = some a ↔
    ∃ e, Λ.entry h = some e ∧ e.owner = a ∧ Λ.IsHead h ∧ e.block.isLegacy = true

def PendingOk (t : Table PendingKey PendingInfo) (Λ : Lattice p) : Prop :=
  ∀ d h i, t.lookup ⟨d, h⟩ = some i ↔
    ∃ e, Λ.entry h = some e ∧ e.sendsTo = some d ∧ ¬ Λ.Received h ∧ i = e.pendingInfo

/-- The rows of legacy blocks are exact. Rolling back a state block may leave
rows under hashes of state blocks, which nothing reads. -/
structure BlocksInfoOk (U : Set Block) (t : Table BlockHash BlockInfo) (Λ : Lattice p) :
    Prop where
  legacy : ∀ {h e}, Λ.entry h = some e → e.block.isLegacy = true →
    t.lookup h = if e.height % BlockStore.blockInfoMax = 0 then some e.blockInfo else none
  other : ∀ {h i}, t.lookup h = some i → (∃ e, Λ.entry h = some e ∧ e.block.isLegacy = true) ∨
    ∃ b ∈ U, b.isLegacy = false ∧ b.hash p = h

/-- **Refinement.** The store `s` holds the tables of the lattice `Λ`, whose
blocks are among those of the run. -/
structure Refines (U : Set Block) (s : BlockStore) (Λ : Lattice p) : Prop where
  blocks : BlocksOk s.blockDatabase Λ
  accounts : AccountsOk s.accounts Λ
  frontiers : FrontiersOk s.frontiers Λ
  pending : PendingOk s.pending Λ
  blocksInfo : BlocksInfoOk U s.blocksInfo Λ
  checksum : ∃ c, s.checksum.lookup 0 = some c
  known : ∀ {h e}, Λ.entry h = some e → e.block ∈ U

/-! ## Supply and weights -/

/-- The exact sum of all account balances. -/
abbrev totalBalance (t : Table Account AccountInfo) : ℕ :=
  t.sum fun _ info => info.balance.toNat

/-- The exact sum of all pending amounts. -/
abbrev totalPending (t : Table PendingKey PendingInfo) : ℕ :=
  t.sum fun _ info => info.amount.toNat

def BlockStore.supply (s : BlockStore) : ℕ := totalBalance s.accounts + totalPending s.pending

/-- An account and a pending amount never exceed the supply together. -/
theorem BlockStore.balance_add_amount_le {info : AccountInfo} {k : PendingKey}
    {pending : PendingInfo} (hi : s.accounts.lookup a = some info)
    (hp : s.pending.lookup k = some pending) :
    info.balance.toNat + pending.amount.toNat ≤ s.supply :=
  Nat.add_le_add (Table.le_sum hi fun _ info => info.balance.toNat)
    (Table.le_sum hp fun _ info => info.amount.toNat)

/-- The representative named by the block `h`. -/
def Lattice.repAccount (Λ : Lattice p) (h : BlockHash) : Option Account :=
  (Λ.entry h).map fun e => e.block.representative

/-- The weight `r` should have: the balances of the accounts whose
representative block names `r`. -/
def weight (t : Table Account AccountInfo) (Λ : Lattice p) (r : Account) : ℕ :=
  t.sum fun _ info => if Λ.repAccount info.repBlock = some r then info.balance.toNat else 0

/-- How far the representation table is from the weights, modulo 2^128. -/
def drift (s : BlockStore) (Λ : Lattice p) (r : Account) : Uint128 :=
  s.representationGet r - BitVec.ofNat 128 (weight s.accounts Λ r)

/-! ## Reading blocks -/

/-- `representation_add` moves the weight of the representative that the block names. -/
theorem BlockStore.representationAdd_eq (hb : s.blockGet h = some b) (x : Uint128) :
    ∃ reps, s.representationAdd h x = .ok { s with representation := reps } ∧
      ∀ r, ({ s with representation := reps } : BlockStore).representationGet r =
        s.representationGet r + if b.representative = r then x else 0 := by
  unfold BlockStore.representationAdd
  rw [hb]
  refine ⟨_, rfl, fun r => ?_⟩
  unfold BlockStore.representationGet
  simp only [Table.lookup_insert_ite, eq_comm (a := r)]
  split
  · rename_i hrep
    rw [hrep]
    rfl
  · simp

namespace BlocksOk

variable {d : Database}

theorem blockGet (hb : BlocksOk s.blockDatabase Λ) (h : BlockHash) :
    s.blockGet h = (Λ.entry h).map Entry.block := by
  rw [BlockStore.blockGet_eq, hb.block]

theorem blockGet_some (hb : BlocksOk s.blockDatabase Λ) (he : Λ.entry h = some e) :
    s.blockGet h = some e.block := by
  rw [hb.blockGet, he]
  rfl

theorem blockExists (hb : BlocksOk s.blockDatabase Λ) (h : BlockHash) :
    s.blockExists h = (Λ.entry h).isSome := by
  have hget := hb.blockGet h
  cases hx : Λ.entry h with
  | none =>
    rw [hx] at hget
    exact BlockStore.blockExists_eq_false.mpr hget
  | some e =>
    rw [hx] at hget
    exact BlockStore.blockExists_iff.mpr ⟨_, hget⟩

theorem blockExists_true (hb : BlocksOk s.blockDatabase Λ) (he : Λ.entry h = some e) :
    s.blockExists h = true := by
  rw [hb.blockExists, he]
  rfl

theorem blockExists_false (hb : BlocksOk s.blockDatabase Λ) (he : Λ.entry h = none) :
    s.blockExists h = false := by
  rw [hb.blockExists, he]
  rfl

theorem stored_some (hb : BlocksOk d Λ) (he : Λ.entry h = some e) :
    ∃ y, d.stored h = some ⟨e.block, y⟩ ∧ Λ.IsNext h y := by
  have hget := hb.block h
  rw [he] at hget
  obtain ⟨v, hv, hblock⟩ := Option.map_eq_some_iff.mp hget
  refine ⟨v.successor, ?_, hb.next hv⟩
  rw [hv, ← hblock]

theorem stored_eq (hb : BlocksOk s.blockDatabase Λ) (he : Λ.entry h = some e) :
    Database.stored s.blockDatabase h = some ⟨e.block, s.blockSuccessor h⟩ := by
  obtain ⟨y, hy, _⟩ := hb.stored_some he
  rw [BlockStore.blockSuccessor_eq, hy]
  rfl

theorem stored_none (hb : BlocksOk d Λ) (he : Λ.entry h = none) : d.stored h = none := by
  have hget := hb.block h
  rw [he] at hget
  exact Option.map_eq_none_iff.mp hget

theorem entry_some (hb : BlocksOk d Λ) {v : BlockEntry} (hv : d.stored h = some v) :
    ∃ e, Λ.entry h = some e := by
  have hget := hb.block h
  rw [hv] at hget
  obtain ⟨e, he, _⟩ := Option.map_eq_some_iff.mp hget.symm
  exact ⟨e, he⟩

theorem blockSuccessor (hb : BlocksOk s.blockDatabase Λ) (he : Λ.entry h = some e) :
    Λ.IsNext h (s.blockSuccessor h) := by
  obtain ⟨y, hy, hn⟩ := hb.stored_some he
  rw [BlockStore.blockSuccessor_eq, hy]
  exact hn

theorem blockSuccessor_none (hb : BlocksOk s.blockDatabase Λ) (he : Λ.entry h = none) :
    s.blockSuccessor h = 0 := by
  rw [BlockStore.blockSuccessor_eq, hb.stored_none he]
  rfl

theorem successor_of_previous {h x : BlockHash} {e : Entry}
    (hb : BlocksOk s.blockDatabase Λ) (he : Λ.entry x = some e) (hp : e.block.previous = h)
    (h0 : h ≠ 0) : s.blockSuccessor h = x := by
  subst hp
  obtain ⟨q, hq, _⟩ := Lattice.follows_of_previous_ne he h0
  rcases hb.blockSuccessor hq with ⟨hhead, _⟩ | ⟨e', he', hp'⟩
  · exact absurd rfl (hhead _ e he)
  · exact Lattice.previous_inj he' he hp' (hp' ▸ h0)

theorem successor_of_isHead {h : BlockHash} {e : Entry}
    (hb : BlocksOk s.blockDatabase Λ) (he : Λ.entry h = some e) (hh : Λ.IsHead h) :
    s.blockSuccessor h = 0 := by
  rcases hb.blockSuccessor he with ⟨_, h0⟩ | ⟨e', he', hp⟩
  · exact h0
  · exact absurd hp (hh _ e' he')

/-- `representation_add` finds the block and moves the weight of the
representative it names. -/
theorem representationAdd (hb : BlocksOk s.blockDatabase Λ) (he : Λ.entry h = some e)
    (x : Uint128) :
    ∃ t, s.representationAdd h x = .ok { s with representation := t } ∧
      ∀ r, ({ s with representation := t } : BlockStore).representationGet r =
        s.representationGet r + if e.block.representative = r then x else 0 :=
  BlockStore.representationAdd_eq (hb.blockGet_some he) x

end BlocksOk

/-! ## Reading accounts, frontiers and pending -/

theorem AccountsOk.lookup_none_iff (ha : AccountsOk t Λ) : t.lookup a = none ↔ Λ.Unopened a := by
  constructor
  · intro hn h e he ho
    obtain ⟨info, hi⟩ := ha.complete he
    rw [ho, hn] at hi
    cases hi
  · intro hu
    cases hl : t.lookup a with
    | none => rfl
    | some info =>
      obtain ⟨e, hd⟩ := ha.sound hl
      exact absurd hd.owner (hu _ e hd.head)

theorem AccountsOk.of_head (ha : AccountsOk t Λ) (he : Λ.entry h = some e) (hh : Λ.IsHead h) :
    ∃ info, t.lookup e.owner = some info ∧ info.head = h ∧ Λ.Describes e.owner info e := by
  obtain ⟨info, hi⟩ := ha.complete he
  obtain ⟨e', hd⟩ := ha.sound hi
  have heq : info.head = h := hd.isHead.unique hh hd.head he hd.owner
  have hde : e' = e := by
    have := hd.head
    rw [heq, he] at this
    exact (Option.some.inj this).symm
  subst hde
  exact ⟨info, hi, heq, hd⟩

theorem FrontiersOk.frontierGet (hf : FrontiersOk s.frontiers Λ) (he : Λ.entry h = some e)
    (hh : Λ.IsHead h) (hl : e.block.isLegacy = true) : s.frontierGet h = e.owner := by
  unfold BlockStore.frontierGet
  rw [(hf h e.owner).mpr ⟨e, he, rfl, hh, hl⟩]
  rfl

theorem FrontiersOk.lookup_none {t : Table BlockHash Account} (hf : FrontiersOk t Λ)
    (hn : Λ.entry h = none) : t.lookup h = none := by
  cases hl : t.lookup h with
  | none => rfl
  | some a =>
    obtain ⟨e, he, _⟩ := (hf h a).mp hl
    rw [hn] at he
    cases he

theorem FrontiersOk.lookup_zero {t : Table BlockHash Account} (hf : FrontiersOk t Λ) :
    t.lookup 0 = none :=
  hf.lookup_none Λ.entry_zero

/-- A frontier that is not zero is the owner of a legacy head. -/
theorem FrontiersOk.of_frontierGet_ne (hf : FrontiersOk s.frontiers Λ)
    (hne : s.frontierGet h ≠ 0) :
    ∃ e, Λ.entry h = some e ∧ e.owner = s.frontierGet h ∧ Λ.IsHead h ∧
      e.block.isLegacy = true := by
  unfold BlockStore.frontierGet at hne ⊢
  cases hl : s.frontiers.lookup h with
  | none =>
    rw [hl] at hne
    exact absurd rfl hne
  | some a => exact (hf h a).mp hl

end RaiBlocks
