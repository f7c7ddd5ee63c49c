import RaiBlocks.Foundation.Table
import RaiBlocks.Foundation.Loop
import RaiBlocks.Lib.Blocks

/-!
# The block store

Translation of the ledger tables of `rai/blockstore.cpp`. LMDB is an ordered
key/value map whose writes succeed; a read reports whether the key is there,
and deleting an absent key is the failed status that the code asserts against.
Failed assertions and null dereferences are faults.

A raw block value is the serialized block followed by the hash of its
successor, so it is modelled as that pair. There is one database for each
block type, and a lookup by hash searches them in a fixed order.
-/

namespace RaiBlocks

open Foundation

/-- Ways for the code to stop without a result. -/
inductive Fault where
  /-- A failed `assert`. -/
  | assertion
  /-- A dereferenced null block. -/
  | nullBlock
  /-- A loop or recursion past its bound. -/
  | outOfFuel
  /-- Balance arithmetic out of range, with `Env.trap` set. -/
  | overflow
deriving DecidableEq

def assertThat (c : Bool) : Except Fault Unit :=
  if c then .ok () else .error .assertion

@[simp] theorem assertThat_true : assertThat true = .ok () := rfl

theorem of_assertThat {c : Bool} {u : Unit} (h : assertThat c = .ok u) : c = true := by
  cases c with
  | true => rfl
  | false => cases h

/-- An account's row. The last two fields have 64 bits in the source. They are numbers here: the
time is stored and compared only, and the count is at most the number of stored blocks
(`Refines.blockCount_le`). -/
structure AccountInfo where
  head : BlockHash
  repBlock : BlockHash
  openBlock : BlockHash
  balance : Uint128
  modified : ℕ
  blockCount : ℕ
deriving DecidableEq

/-- The default constructor. -/
def AccountInfo.zero : AccountInfo := ⟨0, 0, 0, 0, 0, 0⟩

structure PendingKey where
  account : Account
  hash : BlockHash
deriving DecidableEq

structure PendingInfo where
  source : Account
  amount : Uint128
deriving DecidableEq

structure BlockInfo where
  account : Account
  balance : Uint128
deriving DecidableEq

/-- A raw block value. -/
structure BlockEntry where
  block : Block
  successor : BlockHash
deriving DecidableEq

structure BlockStore where
  frontiers : Table BlockHash Account
  accounts : Table Account AccountInfo
  blockDatabase : BlockType → Table BlockHash BlockEntry
  pending : Table PendingKey PendingInfo
  blocksInfo : Table BlockHash BlockInfo
  representation : Table Account Uint128
  checksum : Table (BitVec 64) Uint256

namespace BlockStore

/-- `block_info_max`. -/
def blockInfoMax : ℕ := 32

/-- A new store. The constructor of `block_store` writes a zero checksum. -/
def empty : BlockStore where
  frontiers := ∅
  accounts := ∅
  blockDatabase := fun _ => ∅
  pending := ∅
  blocksInfo := ∅
  representation := ∅
  checksum := (∅ : Table (BitVec 64) Uint256).insert 0 0

/-- Closing the store and constructing it again on its file. The file has version
10, since no upgrade writes a later one, so all that is left for `do_upgrades` is
to drop a table that nothing here reads. Then the constructor writes the zero
checksum. -/
def reopen (s : BlockStore) : BlockStore := { s with checksum := s.checksum.insert 0 0 }

/-! ## Accounts, frontiers, pending, block info -/

def accountGet (s : BlockStore) (a : Account) : Option AccountInfo := s.accounts.lookup a

def accountPut (s : BlockStore) (a : Account) (info : AccountInfo) : BlockStore :=
  { s with accounts := s.accounts.insert a info }

def accountDel (s : BlockStore) (a : Account) : Except Fault BlockStore := do
  assertThat (s.accounts.lookup a).isSome
  return { s with accounts := s.accounts.erase a }

def accountExists (s : BlockStore) (a : Account) : Bool := (s.accounts.lookup a).isSome

def frontierPut (s : BlockStore) (h : BlockHash) (a : Account) : BlockStore :=
  { s with frontiers := s.frontiers.insert h a }

/-- The zero account when there is no entry. -/
def frontierGet (s : BlockStore) (h : BlockHash) : Account := (s.frontiers.lookup h).getD 0

def frontierDel (s : BlockStore) (h : BlockHash) : Except Fault BlockStore := do
  assertThat (s.frontiers.lookup h).isSome
  return { s with frontiers := s.frontiers.erase h }

def pendingPut (s : BlockStore) (k : PendingKey) (info : PendingInfo) : BlockStore :=
  { s with pending := s.pending.insert k info }

def pendingGet (s : BlockStore) (k : PendingKey) : Option PendingInfo := s.pending.lookup k

def pendingExists (s : BlockStore) (k : PendingKey) : Bool := (s.pending.lookup k).isSome

def pendingDel (s : BlockStore) (k : PendingKey) : Except Fault BlockStore := do
  assertThat (s.pending.lookup k).isSome
  return { s with pending := s.pending.erase k }

def blockInfoPut (s : BlockStore) (h : BlockHash) (info : BlockInfo) : BlockStore :=
  { s with blocksInfo := s.blocksInfo.insert h info }

def blockInfoGet (s : BlockStore) (h : BlockHash) : Option BlockInfo := s.blocksInfo.lookup h

def blockInfoDel (s : BlockStore) (h : BlockHash) : Except Fault BlockStore := do
  assertThat (s.blocksInfo.lookup h).isSome
  return { s with blocksInfo := s.blocksInfo.erase h }

/-! ## Representation and checksum -/

def representationGet (s : BlockStore) (a : Account) : Uint128 :=
  (s.representation.lookup a).getD 0

def representationPut (s : BlockStore) (a : Account) (weight : Uint128) : BlockStore :=
  { s with representation := s.representation.insert a weight }

/-- Prefix and mask are zero at every call, so the key is too. -/
def checksumPut (s : BlockStore) (hash : Uint256) : BlockStore :=
  { s with checksum := s.checksum.insert 0 hash }

def checksumGet (s : BlockStore) : Option Uint256 := s.checksum.lookup 0

/-! ## Blocks -/

/-- The order in which `block_get_raw` and `block_exists` search. -/
def getOrder : List BlockType := [.send, .receive, .open, .change, .state]

/-- The order in which `block_del` searches. -/
def delOrder : List BlockType := [.state, .send, .receive, .open, .change]

def blockPutRaw (s : BlockStore) (type : BlockType) (h : BlockHash) (value : BlockEntry) :
    BlockStore :=
  { s with blockDatabase :=
      Function.update s.blockDatabase type ((s.blockDatabase type).insert h value) }

def blockGetRaw (s : BlockStore) (h : BlockHash) : Option (BlockType × BlockEntry) :=
  getOrder.findSome? fun type => ((s.blockDatabase type).lookup h).map fun value => (type, value)

def blockGet (s : BlockStore) (h : BlockHash) : Option Block :=
  (s.blockGetRaw h).map fun found => found.2.block

def blockExists (s : BlockStore) (h : BlockHash) : Bool :=
  getOrder.any fun type => ((s.blockDatabase type).lookup h).isSome

/-- The zero hash when the block is not stored. -/
def blockSuccessor (s : BlockStore) (h : BlockHash) : BlockHash :=
  ((s.blockGetRaw h).map fun found => found.2.successor).getD 0

/-- `set_predecessor::fill_value`: write the hash of `b` over the successor of
its predecessor. -/
def fillValue (p : Env) (s : BlockStore) (b : Block) : Except Fault BlockStore :=
  match s.blockGetRaw b.previous with
  | none => .error .assertion
  | some (type, value) =>
    .ok (s.blockPutRaw type b.previous { value with successor := b.hash p })

/-- The visitor `set_predecessor`. -/
def setPredecessor (p : Env) (s : BlockStore) : Block → Except Fault BlockStore
  | .openBlock _ => .ok s
  | .stateBlock b =>
    if b.hashables.previous ≠ 0 then fillValue p s (.stateBlock b) else .ok s
  | b => fillValue p s b

def blockPut (p : Env) (s : BlockStore) (h : BlockHash) (b : Block)
    (successor : BlockHash) : Except Fault BlockStore := do
  assertThat (successor = 0 || s.blockExists successor)
  let s ← setPredecessor p (s.blockPutRaw b.type h ⟨b, successor⟩) b
  assertThat (b.previous = 0 || s.blockSuccessor b.previous = h)
  return s

def blockSuccessorClear (p : Env) (s : BlockStore) (h : BlockHash) : Except Fault BlockStore :=
  match s.blockGet h with
  | none => .error .nullBlock
  | some b => blockPut p s h b 0

def blockDel (s : BlockStore) (h : BlockHash) : Except Fault BlockStore :=
  match delOrder.find? fun type => ((s.blockDatabase type).lookup h).isSome with
  | none => .error .assertion
  | some type =>
    .ok { s with blockDatabase :=
      Function.update s.blockDatabase type ((s.blockDatabase type).erase h) }

/-- The weight moves to or from the representative named by the block
`source`. -/
def representationAdd (s : BlockStore) (source : BlockHash) (amount : Uint128) :
    Except Fault BlockStore :=
  match s.blockGet source with
  | none => .error .assertion
  | some sourceBlock =>
    let sourceRep := sourceBlock.representative
    .ok (s.representationPut sourceRep (s.representationGet sourceRep + amount))

/-- `block_counts::sum`. -/
def blockCount (s : BlockStore) : ℕ :=
  (getOrder.map fun type => (s.blockDatabase type).keys.card).sum

end BlockStore

end RaiBlocks
