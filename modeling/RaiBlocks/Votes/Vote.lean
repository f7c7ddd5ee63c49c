import RaiBlocks.Lib.Stream

/-!
# Votes

Translation of `rai::vote` from `rai/common.hpp` and `rai/common.cpp`. A vote
names a block and carries a sequence number; what its signature covers is the
hash of the block followed by the sequence number.
-/

namespace RaiBlocks

/-- `uint64_t`: sequence numbers of votes. -/
abbrev Uint64 : Type := BitVec 64

structure Vote where
  /-- Vote round sequence number -/
  sequence : Uint64
  block : Block
  /-- Account that's voting -/
  account : Account
  /-- Signature of sequence + block hash -/
  signature : Signature
deriving DecidableEq

namespace Vote

/-- The bytes `vote::hash` feeds to Blake2b. -/
def hashInput (p : Env) (v : Vote) : List UInt8 :=
  bigEndian 32 (v.block.hash p).toNat ++ littleEndian 8 v.sequence.toNat

def hash (p : Env) (v : Vote) : Uint256 := p.blake2b (v.hashInput p)

/-- Returns true on error, as the C++ function does. -/
def validate (p : Env) (v : Vote) : Bool := p.validateMessage v.account (v.hash p) v.signature

@[simp] theorem length_hashInput (p : Env) (v : Vote) : (v.hashInput p).length = 40 := by
  simp [hashInput, littleEndian]

end Vote

end RaiBlocks
