import Mathlib.Data.Finset.Basic
import RaiBlocks.Foundation.Machine
import RaiBlocks.Node.BlockProcessor

/-!
# Work from peers

Translation of `distributed_work` and `node::work_generate` (`rai/node/node.cpp`). A round
asks all work peers at once. The answers are handled on different threads: a handler takes
the mutex to remove its peer from the map `outstanding`, and later sets the atomic flag
`completed`. Whoever finds the flag clear calls the callback, or, as the last peer that
failed, turns to local work generation or, after some time, to a new round.

The addresses of the peers are those that were resolved. Each piece of a handler between two
accesses to what the threads share is one move. The requests themselves, the messages that
cancel them, the ports and the log are left out, and the node is there when the alarm goes
off.
-/

namespace RaiBlocks

open Foundation

/-- The body of an answer: not parsable or without work, a work that is not a number, or
a number. -/
inductive WorkBody
  | unparsable
  | notNumber
  | work (work : Work)
deriving DecidableEq

/-- How the exchange with a peer ends. -/
inductive WorkResponse
  | connectError
  | writeError
  | readError
  | httpError
  | ok (body : WorkBody)
deriving DecidableEq

/-- What is left to do in the exchange with a peer. -/
inductive Exchange
  /-- The answer is outstanding. -/
  | waiting
  /-- In `success`, before `set_once`. -/
  | settingOnce (work : Work)
  /-- In `success`, before `stop`. -/
  | stopping
  /-- Before `handle_failure (last)`. -/
  | failing (last : Bool)
  | ended
deriving DecidableEq

structure DistributedConfig extends NodeEnv where
  root : BlockHash
  /-- `work_threads != 0 || work.opencl` -/
  localWork : Bool

/-- An object of `distributed_work`. The last three fields are its history: the works of
valid answers, those the callback was called with, and the fallbacks. -/
structure WorkRound (α : Type) where
  backoff : ℕ
  outstanding : Finset α
  completed : Bool
  exchanges : α → Exchange
  valid : List Work := []
  called : List Work := []
  fallbacks : ℕ := 0

/-- What a handler does outside of the round. -/
inductive WorkEffect
  | call (work : Work)
  | generate
  | alarm (backoff : ℕ)
deriving DecidableEq

namespace WorkRound

variable {α : Type} [DecidableEq α] (c : DistributedConfig) (r : WorkRound α)

def setOnce (work : Work) : WorkRound α × Option WorkEffect :=
  if r.completed then (r, none)
  else ({ r with completed := true, called := r.called ++ [work] }, some (.call work))

def handleFailure (last : Bool) : WorkRound α × Option WorkEffect :=
  if last then
    if r.completed then (r, none)
    else
      ({ r with completed := true, fallbacks := r.fallbacks + 1 },
        some (if c.localWork then .generate else .alarm (min (r.backoff * 2) (60 * 5))))
  else (r, none)

/-- The object when the addresses are resolved. -/
def new (backoff : ℕ) (peers : Finset α) : WorkRound α where
  backoff := backoff
  outstanding := peers
  completed := false
  exchanges a := if a ∈ peers then .waiting else .ended

/-- `start_work` -/
def startWork (backoff : ℕ) (peers : Finset α) : WorkRound α × Option WorkEffect :=
  if peers ≠ ∅ then (new backoff peers, none) else (new backoff peers).handleFailure c true

/-- What `success` or `failure` does after `remove`. -/
def afterRemove (last : Bool) : WorkResponse → Exchange
  | .ok (.work work) => if !c.workValidate c.root work then .settingOnce work else .failing last
  | _ => .failing last

/-- A handler up to and with `remove`. -/
def receive (a : α) (response : WorkResponse) : WorkRound α :=
  let outstanding := r.outstanding.erase a
  let next := afterRemove c (outstanding = ∅) response
  { r with
    outstanding := outstanding
    exchanges := Function.update r.exchanges a next
    valid := match next with
      | .settingOnce work => r.valid ++ [work]
      | _ => r.valid }

/-- The next piece of a handler. -/
def proceed (a : α) : WorkRound α × Option WorkEffect :=
  match r.exchanges a with
  | .waiting => (r, none)
  | .settingOnce work =>
    let x := r.setOnce work
    ({ x.1 with exchanges := Function.update r.exchanges a .stopping }, x.2)
  | .stopping =>
    ({ r with outstanding := ∅, exchanges := Function.update r.exchanges a .ended }, none)
  | .failing last =>
    let x := r.handleFailure c last
    ({ x.1 with exchanges := Function.update r.exchanges a .ended }, x.2)
  | .ended => (r, none)

end WorkRound

/-- All rounds for one root, the requests to the work pool that are not answered, the backoffs
of rounds that an alarm will start, and all calls of the callback. -/
structure DistributedWork (α : Type) where
  rounds : List (WorkRound α)
  generating : ℕ
  alarms : List ℕ
  calls : List Work

namespace DistributedWork

variable {α : Type} [DecidableEq α] (c : DistributedConfig)

/-- The work pool takes no request for the root 0. -/
def perform (s : DistributedWork α) : Option WorkEffect → Except Fault (DistributedWork α)
  | none => return s
  | some (.call work) => return { s with calls := s.calls ++ [work] }
  | some .generate => do
    assertThat (c.root ≠ 0)
    return { s with generating := s.generating + 1 }
  | some (.alarm backoff) => return { s with alarms := s.alarms ++ [backoff] }

/-- `node::work_generate` -/
def workGenerate (peers : Finset α) : Except Fault (DistributedWork α) :=
  let x := WorkRound.startWork c 1 peers
  perform c ⟨[x.1], 0, [], []⟩ x.2

/-- The round is given by its number. -/
inductive Move (α : Type)
  | answer (round : ℕ) (peer : α) (response : WorkResponse)
  | proceed (round : ℕ) (peer : α)
  | generated (work : Work)
  | alarm (peers : Finset α)

/-- A peer answers once. The work pool answers its requests with valid work. What is not
possible changes nothing. -/
def apply (s : DistributedWork α) : Move α → Except Fault (DistributedWork α)
  | .answer i a response =>
    match s.rounds[i]? with
    | none => .ok s
    | some r =>
      if r.exchanges a = .waiting then
        .ok { s with rounds := s.rounds.set i (r.receive c a response) }
      else .ok s
  | .proceed i a =>
    match s.rounds[i]? with
    | none => .ok s
    | some r =>
      let x := r.proceed c a
      perform c { s with rounds := s.rounds.set i x.1 } x.2
  | .generated work =>
    if s.generating ≠ 0 ∧ c.workValidate c.root work = false then
      .ok { s with generating := s.generating - 1, calls := s.calls ++ [work] }
    else .ok s
  | .alarm peers =>
    match s.alarms with
    | [] => .ok s
    | backoff :: alarms =>
      let x := WorkRound.startWork c backoff peers
      perform c { s with rounds := s.rounds ++ [x.1], alarms := alarms } x.2

end DistributedWork

end RaiBlocks
