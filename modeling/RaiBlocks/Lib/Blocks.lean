import Mathlib.Data.BitVec
import Mathlib.Tactic

/-!
# Numbers and the five block kinds

Translation of `rai/lib/numbers.hpp`, `rai/lib/blocks.hpp` and the accessors
of `rai/lib/blocks.cpp`. All keys and hashes are 256 bit, balances are
128 bit. A block is its hashables together with a signature and a work value;
the hash covers the hashables only.

Blake2b and the ed25519 check are not translated. They are fields of `Env`,
the surroundings a ledger runs in, and the properties say what they need of
them.
-/

namespace RaiBlocks

/-- `uint256_union`: keys, hashes, accounts, links. -/
abbrev Uint256 : Type := BitVec 256

/-- `uint128_t`: unsigned, arithmetic modulo 2^128. -/
abbrev Uint128 : Type := BitVec 128

abbrev BlockHash : Type := Uint256
abbrev Account : Type := Uint256
abbrev Signature : Type := BitVec 512
abbrev Work : Type := BitVec 64

/-! The order of the keys in the tables of the database. -/

instance uint256LeTrans : IsTrans Uint256 (· ≤ ·) := ⟨fun _ _ _ => BitVec.le_trans⟩

instance uint256LeAntisymm : Std.Antisymm (fun a b : Uint256 => a ≤ b) :=
  ⟨fun _ _ => BitVec.le_antisymm⟩

instance uint256LeTotal : Std.Total (fun a b : Uint256 => a ≤ b) := ⟨BitVec.le_total⟩

/-- The `n` bytes of a number, most significant first, as the unions of
`numbers.hpp` lay them out. -/
def bigEndian : ℕ → ℕ → List UInt8
  | 0, _ => []
  | n + 1, x => bigEndian n (x / 256) ++ [UInt8.ofNat (x % 256)]

@[simp] theorem length_bigEndian : ∀ n x, (bigEndian n x).length = n
  | 0, _ => rfl
  | n + 1, x => by simp [bigEndian, length_bigEndian n]

/-! ## Hashables and blocks -/

structure SendHashables where
  previous : BlockHash
  destination : Account
  balance : Uint128
deriving DecidableEq

structure ReceiveHashables where
  previous : BlockHash
  source : BlockHash
deriving DecidableEq

structure OpenHashables where
  source : BlockHash
  representative : Account
  account : Account
deriving DecidableEq

structure ChangeHashables where
  previous : BlockHash
  representative : Account
deriving DecidableEq

/-- `link` is the source block hash when receiving, the destination account
when sending. -/
structure StateHashables where
  account : Account
  previous : BlockHash
  representative : Account
  balance : Uint128
  link : Uint256
deriving DecidableEq

structure SendBlock where
  hashables : SendHashables
  signature : Signature
  work : Work
deriving DecidableEq

structure ReceiveBlock where
  hashables : ReceiveHashables
  signature : Signature
  work : Work
deriving DecidableEq

structure OpenBlock where
  hashables : OpenHashables
  signature : Signature
  work : Work
deriving DecidableEq

structure ChangeBlock where
  hashables : ChangeHashables
  signature : Signature
  work : Work
deriving DecidableEq

structure StateBlock where
  hashables : StateHashables
  signature : Signature
  work : Work
deriving DecidableEq

inductive Block where
  | sendBlock (b : SendBlock)
  | receiveBlock (b : ReceiveBlock)
  | openBlock (b : OpenBlock)
  | changeBlock (b : ChangeBlock)
  | stateBlock (b : StateBlock)
deriving DecidableEq

/-- The block types that are stored; `invalid = 0` and `not_a_block = 1` occur
in messages only. -/
inductive BlockType where
  | send | receive | «open» | change | state
deriving DecidableEq

/-- The enumerator values of `block_type`. -/
def BlockType.code : BlockType → ℕ
  | .send => 2
  | .receive => 3
  | .open => 4
  | .change => 5
  | .state => 6

/-! ## Networks and surroundings -/

inductive RaiNetworks where
  | raiTestNetwork | raiBetaNetwork | raiLiveNetwork
deriving DecidableEq

/-- What the ledger code takes from outside. `validateMessage` returns true on
error, as the C++ function does. `trap` is false for the code as it stands;
with `trap` set, a balance addition or subtraction that leaves the 128 bit
range is a fault instead of wrapping, which is how "nothing wraps" is said. -/
structure Env where
  blake2b : List UInt8 → Uint256
  validateMessage : Account → Uint256 → Signature → Bool
  network : RaiNetworks
  trap : Bool

namespace Block

/-- The bytes `block::hash` feeds to Blake2b. A state block starts with its
type as a 256 bit preamble; the older kinds have none. -/
def hashInput : Block → List UInt8
  | .sendBlock b =>
    bigEndian 32 b.hashables.previous.toNat ++ bigEndian 32 b.hashables.destination.toNat ++
    bigEndian 16 b.hashables.balance.toNat
  | .receiveBlock b =>
    bigEndian 32 b.hashables.previous.toNat ++ bigEndian 32 b.hashables.source.toNat
  | .openBlock b =>
    bigEndian 32 b.hashables.source.toNat ++ bigEndian 32 b.hashables.representative.toNat ++
    bigEndian 32 b.hashables.account.toNat
  | .changeBlock b =>
    bigEndian 32 b.hashables.previous.toNat ++ bigEndian 32 b.hashables.representative.toNat
  | .stateBlock b =>
    bigEndian 32 BlockType.state.code ++ bigEndian 32 b.hashables.account.toNat ++
    bigEndian 32 b.hashables.previous.toNat ++ bigEndian 32 b.hashables.representative.toNat ++
    bigEndian 16 b.hashables.balance.toNat ++ bigEndian 32 b.hashables.link.toNat

def hash (p : Env) (b : Block) : BlockHash := p.blake2b b.hashInput

def type : Block → BlockType
  | .sendBlock _ => .send
  | .receiveBlock _ => .receive
  | .openBlock _ => .open
  | .changeBlock _ => .change
  | .stateBlock _ => .state

/-- Previous block in account's chain, zero for open block. -/
def previous : Block → BlockHash
  | .sendBlock b => b.hashables.previous
  | .receiveBlock b => b.hashables.previous
  | .openBlock _ => 0
  | .changeBlock b => b.hashables.previous
  | .stateBlock b => b.hashables.previous

/-- Previous block or account number for open blocks. -/
def root : Block → BlockHash
  | .sendBlock b => b.hashables.previous
  | .receiveBlock b => b.hashables.previous
  | .openBlock b => b.hashables.account
  | .changeBlock b => b.hashables.previous
  | .stateBlock b =>
    if b.hashables.previous ≠ 0 then b.hashables.previous else b.hashables.account

def representative : Block → Account
  | .sendBlock _ => 0
  | .receiveBlock _ => 0
  | .openBlock b => b.hashables.representative
  | .changeBlock b => b.hashables.representative
  | .stateBlock b => b.hashables.representative

def blockSignature : Block → Signature
  | .sendBlock b => b.signature
  | .receiveBlock b => b.signature
  | .openBlock b => b.signature
  | .changeBlock b => b.signature
  | .stateBlock b => b.signature

/-- The older kinds may only follow one another; a state block may follow
anything and an open block nothing. -/
def validPredecessor (b previous : Block) : Bool :=
  match b with
  | .openBlock _ => false
  | .stateBlock _ => true
  | _ => match previous.type with
    | .send | .receive | .open | .change => true
    | .state => false

/-- `type () < block_type::state`. -/
def isLegacy (b : Block) : Bool := b.type.code < BlockType.state.code

/-- The account field of the two kinds that carry one. -/
def account? : Block → Option Account
  | .openBlock b => some b.hashables.account
  | .stateBlock b => some b.hashables.account
  | _ => none

end Block

theorem Block.root_of_previous_ne {b : Block} (h0 : b.previous ≠ 0) : b.root = b.previous := by
  cases b with
  | openBlock b => exact absurd rfl h0
  | stateBlock b => exact if_pos h0
  | _ => rfl

theorem Block.root_of_previous_eq {b : Block} {a : Account} (h0 : b.previous = 0)
    (ha : b.account? = some a) : b.root = a := by
  cases b with
  | openBlock b => exact Option.some.inj ha
  | stateBlock b => exact (if_neg (not_not.mpr h0)).trans (Option.some.inj ha)
  | _ => cases ha

/-- A state block feeds 176 bytes to the hash, every older kind at most 96. -/
theorem hashInput_length_ne {b b' : Block} (h : b.isLegacy = true)
    (h' : b'.isLegacy = false) : b.hashInput ≠ b'.hashInput := by
  intro heq
  have hlen := congrArg List.length heq
  cases b' with
  | stateBlock b' =>
    cases b <;> simp [Block.hashInput] at hlen
    simp [Block.isLegacy, Block.type, BlockType.code] at h
  | _ => simp [Block.isLegacy, Block.type, BlockType.code] at h'

end RaiBlocks
