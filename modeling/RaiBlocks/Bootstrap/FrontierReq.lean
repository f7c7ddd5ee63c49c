import RaiBlocks.Bootstrap.Attempt
import RaiBlocks.Foundation.Rows

/-!
# Comparing frontiers

Translation of `frontier_req_client` and `frontier_req_server` from
`rai/node/bootstrap.cpp`. The client walks the local accounts in order while the
frontiers of the peer arrive in order. It adds pulls for what the peer has and the node
has not, and push targets for what the node has and the peer has not, as long as they
are cheap. Timeouts and the limit on the speed of the peer are left out.

The server sends its own frontiers in order. The peer may ask for those of accounts
that have changed lately.
-/

namespace RaiBlocks

open Foundation Bootstrap

/-- Where `latest_begin` with a key stands: the first account from there on. -/
def BlockStore.latestBegin (s : BlockStore) (account : Account) : Option (Account × AccountInfo) :=
  s.accounts.firstFrom (· ≤ ·) account

/-- The local accounts after `k`, in ascending order. -/
def Frontiers.rowsAfter (s : BlockStore) (k : Account) : List (Account × AccountInfo) :=
  (s.accounts.rows (· ≤ ·)).filter fun row => decide (k < row.1)

/-- The client, with what it has added to the attempt. -/
structure FrontierReqClient where
  current : Account := 0
  info : AccountInfo := .zero
  /-- A `uint64_t`. -/
  bulkPushCost : BitVec 64 := 0
  pulls : List PullInfo := []
  bulkPushTargets : List (BlockHash × BlockHash) := []
  promise : Option Bool := none

namespace FrontierReqClient

def bulkPushCostLimit : BitVec 64 := 200

variable (s : BlockStore) (c : FrontierReqClient)

def unsynced (head endHash : BlockHash) : FrontierReqClient :=
  if c.bulkPushCost < bulkPushCostLimit then
    { c with
      bulkPushTargets := c.bulkPushTargets ++ [(head, endHash)]
      bulkPushCost := c.bulkPushCost + if endHash = 0 then 2 else 1 }
  else c

def next : FrontierReqClient :=
  match s.latestBegin (c.current + 1) with
  | some (account, info) => { c with current := account, info }
  | none => { c with current := 0 }

def addPull (pull : PullInfo) : FrontierReqClient := { c with pulls := c.pulls ++ [pull] }

/-- The constructor. -/
def start : FrontierReqClient := next s {}

/-- The loop bodies: an account the peer does not know. -/
def skip : Except Fault FrontierReqClient := .ok (next s (c.unsynced c.info.head 0))

/-- More than enough iterations for the loops. -/
def fuel : ℕ := (s.accounts.rows (· ≤ ·)).length

/-- `received_frontier` for an account that both sides know. -/
def compare (account : Account) (latest : BlockHash) : FrontierReqClient :=
  if latest = c.info.head then c
  else if s.blockExists latest then c.unsynced c.info.head latest
  else
    let c := c.addPull { account, head := latest, endHash := c.info.head }
    { c with bulkPushCost := c.bulkPushCost + 5 }

def receivedFrontier (account : Account) (latest : BlockHash) : Except Fault FrontierReqClient :=
  if account ≠ 0 then do
    let c ← whileLoop .outOfFuel (fun c => c.current ≠ 0 && decide (c.current < account)) (skip s)
      (fuel s) c
    if c.current ≠ 0 then
      if account = c.current then
        return next s (compare s c account latest)
      else do
        assertThat (account < c.current)
        return c.addPull { account, head := latest, endHash := 0 }
    else return c.addPull { account, head := latest, endHash := 0 }
  else do
    let c ← whileLoop .outOfFuel (fun c => decide (c.current ≠ 0)) (skip s) (fuel s) c
    return { c with promise := some false }

/-- What the peer sends, one frontier after the other. After the zero account
nothing more is read. -/
def receive : FrontierReqClient → List (Account × BlockHash) → Except Fault FrontierReqClient
  | c, [] => .ok c
  | c, (account, latest) :: frontiers => do
    let c ← receivedFrontier s c account latest
    if account = 0 then return c else receive c frontiers

/-- The whole exchange. -/
def run (frontiers : List (Account × BlockHash)) : Except Fault FrontierReqClient :=
  receive s (start s) frontiers

end FrontierReqClient

/-! ## The server -/

structure FrontierReqServer where
  current : Account
  info : AccountInfo

namespace FrontierReqServer

variable (s : BlockStore) (age : BitVec 32) (now : BitVec 64)

def next (c : FrontierReqServer) : FrontierReqServer :=
  match s.latestBegin (c.current + 1) with
  | some (account, info) => ⟨account, info⟩
  | none => { c with current := 0 }

/-- The test of `skip_old`, on numbers of type `uint64_t`. -/
def isOld (info : AccountInfo) : Bool :=
  decide (age.setWidth 64 ≤ now - BitVec.ofNat 64 info.modified)

/-- More than enough iterations for the loops. -/
def fuel : ℕ := (s.accounts.rows (· ≤ ·)).length

def skipOld (c : FrontierReqServer) : Except Fault FrontierReqServer :=
  if age ≠ BitVec.allOnes 32 then
    whileLoop .outOfFuel (fun c => decide (c.current ≠ 0) && isOld age now c.info)
      (fun c => .ok (next s c)) (fuel s) c
  else .ok c

/-- The constructor. -/
def start (account : Account) : Except Fault FrontierReqServer :=
  skipOld s age now (next s ⟨account - 1, .zero⟩)

/-- `send_next`, called again by `sent_action` whenever the last pair has been written,
until there is no account left. -/
def sendAll (c : FrontierReqServer) :
    Except Fault (FrontierReqServer × List (Account × BlockHash)) :=
  whileLoop .outOfFuel (fun x : FrontierReqServer × List (Account × BlockHash) =>
      decide (x.1.current ≠ 0))
    (fun x => .ok (next s x.1, x.2 ++ [(x.1.current, x.1.info.head)])) (fuel s) (c, [])

/-- All that the server writes. -/
def run (account : Account) : Except Fault (List (Account × BlockHash)) := do
  let c ← start s age now account
  let (_, sent) ← sendAll s c
  -- `send_finished`
  return sent ++ [(0, 0)]

end FrontierReqServer

end RaiBlocks
