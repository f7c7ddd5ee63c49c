import RaiBlocks.Foundation.OrderedMap
import RaiBlocks.Foundation.Rows
import RaiBlocks.Lib.Stream
import RaiBlocks.Store.BlockStore

/-!
# Pulling a range of blocks

Translation of `bulk_pull_blocks_server` from `rai/node/bootstrap.cpp`. The server
answers with the blocks of a range of hashes, or with the checksum of their hashes. It
walks the block info table in its own transaction, so the rows that its iterator has
before it do not change. The connection delivers what is written.
-/

namespace RaiBlocks

open Foundation

/-- `bulk_pull_blocks_mode`; any other byte may arrive. -/
inductive BulkPullBlocksMode where
  | listBlocks | checksumBlocks | unknown
deriving DecidableEq

structure BulkPullBlocksServer where
  maxHash : BlockHash
  maxCount : BitVec 32
  mode : BulkPullBlocksMode
  /-- The rows from the iterator on; at the end there are none. -/
  stream : List (BlockHash × BlockInfo)
  sentCount : BitVec 32 := 0
  checksum : Uint256 := 0
  /-- What has been written to the connection. -/
  written : List UInt8 := []
  finished : Bool := false

namespace BulkPullBlocksServer

variable (p : Env) (s : BlockStore)

/-- The constructor, which calls `set_params` for the request. -/
def setParams (mode : BulkPullBlocksMode) (minHash maxHash : BlockHash) (maxCount : BitVec 32) :
    BulkPullBlocksServer where
  maxHash := if maxHash < minHash then minHash else maxHash
  maxCount := maxCount
  mode := mode
  stream := s.blocksInfo.rowsFrom (· ≤ ·) minHash

/-- `stream->first.uint256 ()`, which asserts the size of a key. -/
def currentHash (v : BulkPullBlocksServer) : Except Fault BlockHash :=
  match v.stream with
  | [] => .error .assertion
  | row :: _ => .ok row.1

/-- `get_next`: the block, and the state after it. -/
def getNext (v : BulkPullBlocksServer) : Except Fault (Option Block × BulkPullBlocksServer) :=
  let outOfBounds := v.maxCount ≠ 0 ∧ v.maxCount ≤ v.sentCount
  let v := if v.maxCount ≠ 0 then { v with sentCount := v.sentCount + 1 } else v
  if outOfBounds then .ok (none, v)
  -- the size of the key is 0 at the end
  else if v.stream.isEmpty then .ok (none, v)
  else do
    let current ← v.currentHash
    if current < v.maxHash then
      return (s.blockGet current, { v with stream := v.stream.tail })
    else return (none, v)

/-- A block as the mode has it. -/
def sendBlock (v : BulkPullBlocksServer) (b : Block) : BulkPullBlocksServer :=
  match v.mode with
  | .listBlocks => { v with written := v.written ++ serializeBlock b }
  | .checksumBlocks => { v with checksum := v.checksum ^^^ b.hash p }
  | .unknown => v

/-- After the last block comes the checksum, if it is asked for, and then
`send_finished` writes `not_a_block`. -/
def sendEnd (v : BulkPullBlocksServer) : BulkPullBlocksServer :=
  match v.mode with
  | .checksumBlocks =>
    { v with written := v.written ++ 1 :: bigEndian 32 v.checksum.toNat ++ [1], finished := true }
  | _ => { v with written := v.written ++ [1], finished := true }

def sendNext (v : BulkPullBlocksServer) : Except Fault BulkPullBlocksServer := do
  let (block, v) ← getNext s v
  match block with
  | some b => return v.sendBlock p b
  | none => return v.sendEnd

/-- More than enough calls of `send_next`. -/
def fuel : ℕ := (s.blocksInfo.rows (· ≤ ·)).length + 1

/-- All that the server writes for a request. -/
def respond (mode : BulkPullBlocksMode) (minHash maxHash : BlockHash) (maxCount : BitVec 32) :
    Except Fault (List UInt8) := do
  let v ← whileLoop .outOfFuel (fun v => !v.finished) (sendNext p s) (fuel s)
    (setParams s mode minHash maxHash maxCount)
  return v.written

end BulkPullBlocksServer

end RaiBlocks
