import RaiBlocks.Bootstrap.Attempt
import RaiBlocks.Lib.Stream
import RaiBlocks.Node.BlockProcessor

/-!
# Pulling the blocks of an account

Translation of `bulk_pull_server` and `bulk_pull_client` from
`rai/node/bootstrap.cpp`. The server walks from the head of the account down to the
requested end and writes the blocks to the connection; the client reads them and
keeps track of the hash it expects next. The connection delivers what is written:
errors and timeouts are left out, and so is the request message itself.
-/

namespace RaiBlocks

open Foundation Bootstrap

/-! ## The server -/

/-- The state of a server: the block to send next, the end of the request, and what
has been written to the connection. -/
structure BulkPullServer where
  current : BlockHash
  endHash : BlockHash
  written : List UInt8 := []
  finished : Bool := false

namespace BulkPullServer

variable (s : BlockStore)

/-- The constructor, which calls `set_current_end` for the request. -/
def setCurrentEnd (start endHash : BlockHash) : Except Fault BulkPullServer := do
  let endHash := if s.blockExists endHash then endHash else 0
  match s.accountGet start with
  | none => return { current := endHash, endHash }
  | some info =>
    if endHash ≠ 0 then
      let account ← Ledger.account s endHash
      if account = start then return { current := info.head, endHash }
      else return { current := endHash, endHash }
    else return { current := info.head, endHash }

/-- `get_next`: the block, and the state after it. -/
def getNext (v : BulkPullServer) : Option Block × BulkPullServer :=
  if v.current ≠ v.endHash then
    match s.blockGet v.current with
    | some b =>
      (some b, { v with current := if b.previous ≠ 0 then b.previous else v.endHash })
    | none => (none, { v with current := v.endHash })
  else (none, v)

/-- `send_next`; after the last block `send_finished` writes `not_a_block`. -/
def sendNext (v : BulkPullServer) : Except Fault BulkPullServer :=
  match getNext s v with
  | (some b, v) => .ok { v with written := v.written ++ serializeBlock b }
  | (none, v) => .ok { v with written := v.written ++ [1], finished := true }

/-- All that the server writes for a request. -/
def respond (start endHash : BlockHash) : Except Fault (List UInt8) := do
  let v ← setCurrentEnd s start endHash
  let v ← whileLoop .outOfFuel (fun v => !v.finished) (sendNext s) s.fuel v
  return v.written

end BulkPullServer

/-! ## The client -/

/-- A client that has made its request. -/
structure BulkPullClient where
  pull : PullInfo
  expected : BlockHash
  /-- What has arrived and is not read yet. -/
  input : List UInt8
  /-- The blocks given to `block_processor::add`. -/
  added : List Block := []
  /-- Whether `receive_block` is to be called again. -/
  receiving : Bool := true

namespace BulkPullClient

variable (p : NodeEnv)

/-- `request` -/
def request (pull : PullInfo) (input : List UInt8) : BulkPullClient :=
  { pull, expected := pull.head, input }

def stop (c : BulkPullClient) : BulkPullClient := { c with receiving := false }

/-- `received_block`: the bytes of a block of the given type. -/
def receivedBlock (c : BulkPullClient) (type : BlockType) (bytes : List UInt8) : BulkPullClient :=
  match deserializeBlock type bytes with
  | some (b, _) =>
    if p.workValidate b.root b.blockWork then c.stop
    else
      { c with
        expected := if b.hash p.toEnv = c.expected then b.previous else c.expected
        added := c.added ++ [b] }
  | none => c.stop

/-- `received_type`: the block of the given type that comes next. -/
def receivedType (c : BulkPullClient) (type : BlockType) : BulkPullClient :=
  match Reader.bytes type.size c.input with
  | some (bytes, rest) => receivedBlock p { c with input := rest } type bytes
  | none => c.stop

/-- `receive_block`: the type byte decides what is read next. With `not_a_block`, an
unknown type or an error nothing more is. -/
def receiveBlock (c : BulkPullClient) : Except Fault BulkPullClient :=
  match c.input with
  | [] => return c.stop
  | byte :: rest =>
    let c := { c with input := rest }
    return match byte.toNat with
    | 2 => receivedType p c .send
    | 3 => receivedType p c .receive
    | 4 => receivedType p c .open
    | 5 => receivedType p c .change
    | 6 => receivedType p c .state
    | _ => c.stop

/-- The client reads until it stops. -/
def run (c : BulkPullClient) : Except Fault BulkPullClient :=
  whileLoop .outOfFuel (fun c => c.receiving) (receiveBlock p) (c.input.length + 1) c

/-- What the destructor gives to `requeue_pull`. -/
def requeued (c : BulkPullClient) : Option PullInfo :=
  if c.expected ≠ c.pull.endHash then some { c.pull with head := c.expected } else none

end BulkPullClient

end RaiBlocks
