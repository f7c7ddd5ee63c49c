import RaiBlocks.Foundation.Machine
import RaiBlocks.Store.BlockStore

/-!
# A bootstrap attempt and its threads

Translation of the part of `rai/node/bootstrap.cpp` that moves pulls between the
queue of a `bootstrap_attempt`, the tasks `request_pull` posts, and the
`bulk_pull_client`s those tasks construct. One thread is in
`bootstrap_attempt::run`; it holds the mutex except where it waits. All others
take the mutex for each access, so while `run` holds it they make no step.

The connections are only counted, and what comes over them is left to the moves:
a move says what `expected` is when a client is destroyed, whether the frontier
request failed, and so on.
-/

namespace RaiBlocks

open Foundation

namespace Bootstrap

/-- `pull_info`: pull the chain of an account from `head` down to `endHash`. -/
structure PullInfo where
  account : Account
  head : BlockHash
  endHash : BlockHash
  attempts : BitVec 32 := 0
deriving DecidableEq

def frontierRetryLimit : BitVec 32 := 16

/-- What `node::background` has been given and no thread has run yet: construct a
client for the pull. The ticket numbers the pulls taken from the queue; a pull that
`requeue_pull` hands to the frontier peer has none. -/
structure Task where
  ticket : Option ℕ
  pull : PullInfo
deriving DecidableEq

/-- A `bulk_pull_client` between its constructor and the end of its destructor. -/
structure Client where
  ticket : Option ℕ
  pull : PullInfo
  /-- The destructor has done the part before it takes the mutex. -/
  closing : Bool
deriving DecidableEq

/-- Where the thread in `run` is. -/
inductive Position where
  /-- At the test of the loop around `request_frontier`. -/
  | frontierLoop
  /-- In `connection`, called by `request_frontier`, waiting. -/
  | frontierConnection
  /-- In `consume_future`. -/
  | frontierReply
  /-- At the test of the outer loop. -/
  | outerLoop
  /-- At the test of the inner loop. -/
  | innerLoop
  /-- In `connection`, called by `request_pull`, waiting. -/
  | pullConnection
  /-- Waiting for the condition in the inner loop. -/
  | wait
  /-- In `block_processor::flush`. -/
  | flush
  /-- Past the assignment to `pull_completed`. -/
  | finished
deriving DecidableEq

/-- `run` has the mutex there. -/
def Position.holdsMutex : Position → Bool
  | .frontierLoop | .outerLoop | .innerLoop | .finished => true
  | _ => false

end Bootstrap

open Bootstrap

structure BootstrapAttempt where
  pulls : List PullInfo := []
  pulling : BitVec 32 := 0
  stopped : Bool := false
  /-- The number of idle connections. -/
  idle : ℕ := 0
  position : Position := .frontierLoop
  pullCompleted : Bool := false
  tasks : List Task := []
  clients : List Client := []
  /-- How many pulls have been taken from the queue, and the tickets of those whose
  client was constructed and destroyed. The source does not keep these. -/
  taken : ℕ := 0
  created : List ℕ := []
  destroyed : List ℕ := []

namespace BootstrapAttempt

variable (a : BootstrapAttempt)

/-! ## The run thread -/

def stillPulling : Bool :=
  let running := !a.stopped
  let morePulls := !a.pulls.isEmpty
  let stillPulling := decide (0 < a.pulling)
  running && (morePulls || stillPulling)

/-- What `connection` does when it has the mutex. -/
inductive Connection where
  | waits
  | taken
  | missing

def connection : Connection :=
  if !a.stopped && a.idle == 0 then .waits
  else if a.idle ≠ 0 then .taken
  else .missing

/-- `request_frontier` up to `consume_future`. Without a connection its result is
`true` and the loop goes on. -/
def requestFrontier : BootstrapAttempt :=
  match a.connection with
  | .waits => { a with position := .frontierConnection }
  | .taken => { a with idle := a.idle - 1, position := .frontierReply }
  | .missing => { a with position := .frontierLoop }

/-- `std::swap (pulls[i], pulls[k])` -/
def swap (pulls : List PullInfo) (i k : ℕ) : List PullInfo :=
  match pulls[i]?, pulls[k]? with
  | some x, some y => (pulls.set i y).set k x
  | _, _ => pulls

/-- The loop that shuffles the pulls; `draws i` is the random number at index `i`. -/
def shuffle (draws : ℕ → ℕ) : ℕ → List PullInfo → List PullInfo
  | 0, pulls => pulls
  | i + 1, pulls => shuffle draws i (swap pulls (i + 1) (draws (i + 1) % (i + 2)))

def enterLoops (draws : ℕ → ℕ) : BootstrapAttempt :=
  { a with pulls := shuffle draws (a.pulls.length - 1) a.pulls, position := .outerLoop }

/-- A pull leaves the queue, and a task is posted for it. -/
def take (pull : PullInfo) (pulls : List PullInfo) : BootstrapAttempt :=
  { a with
    idle := a.idle - 1
    pulls
    tasks := a.tasks ++ [⟨some a.taken, pull⟩]
    taken := a.taken + 1
    position := .innerLoop }

/-- `request_pull` takes the first pull once there is a connection. -/
def requestPull : Except Fault BootstrapAttempt :=
  match a.connection with
  | .waits => return { a with position := .pullConnection }
  | .missing => return { a with position := .innerLoop }
  | .taken =>
    match a.pulls with
    | [] => .error .nullBlock
    | pull :: pulls => return a.take pull pulls

/-- What the thread in `run` finds out on its way. -/
structure RunInput where
  frontierFailure : Bool := false
  draws : ℕ → ℕ := fun _ => 0
  processorFull : Bool := false

/-- The thread in `run` goes on to the next test of a loop or the next place where
it waits. -/
def run (i : RunInput) : Except Fault BootstrapAttempt :=
  match a.position with
  | .frontierLoop => return if a.stopped then a.enterLoops i.draws else a.requestFrontier
  | .frontierConnection => return a.requestFrontier
  | .frontierReply =>
    if i.frontierFailure then return { a with pulls := [], position := .frontierLoop }
    else return a.enterLoops i.draws
  | .outerLoop =>
    if a.stillPulling then return { a with position := .innerLoop }
    else return { a with position := .finished, pullCompleted := !a.stopped }
  | .innerLoop =>
    if a.stillPulling then
      if !a.pulls.isEmpty then
        if !i.processorFull then a.requestPull
        else return { a with position := .wait }
      else return { a with position := .wait }
    else return { a with position := .flush }
  | .pullConnection => a.requestPull
  | .wait => return { a with position := .innerLoop }
  | .flush => return { a with position := .outerLoop }
  | .finished => return a

/-! ## The other threads -/

def addPull (pull : PullInfo) : BootstrapAttempt := { a with pulls := a.pulls ++ [pull] }

def poolConnection : BootstrapAttempt := { a with idle := a.idle + 1 }

def stop : BootstrapAttempt := { a with stopped := true }

/-- A thread runs task number `i`: the constructor of the client. -/
def construct (i : ℕ) : BootstrapAttempt :=
  match a.tasks[i]? with
  | none => a
  | some task =>
    { a with
      pulling := a.pulling + 1
      tasks := a.tasks.eraseIdx i
      clients := a.clients ++ [⟨task.ticket, task.pull, false⟩]
      created := a.created ++ task.ticket.toList }

/-- `requeue_pull`; `peer` says whether the connection of the frontier request is
still there. -/
def requeuePull (pull : PullInfo) (peer : Bool) : BootstrapAttempt :=
  let pull := { pull with attempts := pull.attempts + 1 }
  if pull.attempts < frontierRetryLimit then { a with pulls := pull :: a.pulls }
  else if pull.attempts = frontierRetryLimit then
    let pull := { pull with attempts := pull.attempts + 1 }
    if peer then { a with tasks := a.tasks ++ [⟨none, pull⟩] } else a
  else a

/-- The destructor of client number `i` up to where it takes the mutex. -/
def close (i : ℕ) (expected : BlockHash) (peer : Bool) : BootstrapAttempt :=
  match a.clients[i]? with
  | none => a
  | some c =>
    if c.closing then a
    else
      let a := { a with clients := a.clients.set i { c with closing := true } }
      if expected ≠ c.pull.endHash then a.requeuePull { c.pull with head := expected } peer else a

/-- The rest of the destructor. -/
def destroy (i : ℕ) : BootstrapAttempt :=
  match a.clients[i]? with
  | none => a
  | some c =>
    if c.closing then
      { a with
        pulling := a.pulling - 1
        clients := a.clients.eraseIdx i
        destroyed := a.destroyed ++ c.ticket.toList }
    else a

inductive Move where
  | run (i : RunInput)
  | stop
  | addPull (pull : PullInfo)
  | poolConnection
  | construct (i : ℕ)
  | close (i : ℕ) (expected : BlockHash) (peer : Bool)
  | destroy (i : ℕ)

/-- The destructor of client number `i` needs the mutex already to requeue. -/
def requeues (i : ℕ) (expected : BlockHash) : Bool :=
  a.clients[i]?.any fun c =>
    expected ≠ c.pull.endHash && decide (c.pull.attempts + 1 ≤ frontierRetryLimit)

/-- One move. A thread that needs the mutex while `run` has it makes no step, and
once `pull_completed` is set nothing more is followed. -/
def apply (m : Move) : Except Fault BootstrapAttempt :=
  if a.position = .finished then return a
  else match m with
  | .run i => a.run i
  | .stop => return a.stop
  | .addPull pull => return if a.position.holdsMutex then a else a.addPull pull
  | .poolConnection => return if a.position.holdsMutex then a else a.poolConnection
  | .construct i => return if a.position.holdsMutex then a else a.construct i
  | .close i expected peer =>
    return if a.position.holdsMutex && a.requeues i expected then a else a.close i expected peer
  | .destroy i => return if a.position.holdsMutex then a else a.destroy i

/-- An attempt when `run` first has the mutex. -/
def start (pulls : List PullInfo) (idle : ℕ) : BootstrapAttempt := { pulls, idle }

end BootstrapAttempt

end RaiBlocks
