import Mathlib.Logic.Function.Basic
import RaiBlocks.Node.BlockProcessor

/-!
# The work pool

Translation of `work_pool` without OpenCL (`rai/lib/work.cpp`). Worker threads take
the front of the queue `pending`, search for work without the mutex, and use the
shared `ticket` to see whether the front is still theirs. `cancel` takes all requests
of a root out of the queue.

Everything between taking the mutex and giving it up is one move. A round of the
search reads the ticket once and is one move as well. The random numbers are a part
of the move, so they may be any. `wait` may return at any time, as condition
-/

namespace RaiBlocks

open Foundation

/-- A request in the queue. The number stands for the callback. -/
structure WorkRequest where
  id : ℕ
  root : BlockHash
deriving DecidableEq

/-- Where a worker thread is. -/
inductive Worker : Type
  /-- About to take the mutex for the condition of the outer loop. -/
  | ready
  /-- In `producer_condition.wait`. -/
  | waiting
  /-- Before the condition of the search, with the local variables. -/
  | searching (current : WorkRequest) (ticket : BitVec 32) (work : Work) (output : BitVec 64)
  /-- After the search, about to take the mutex. -/
  | leaving (current : WorkRequest) (ticket : BitVec 32) (work : Work) (output : BitVec 64)
  /-- About to call the callback. -/
  | answering (current : WorkRequest) (work : Work)
  | exited

/-- The pool with `n` threads. The last three fields are its history: the roots of
all requests, the calls of callbacks, and how often the ticket has changed. -/
structure WorkPool (n : ℕ) where
  ticket : BitVec 32
  done : Bool
  pending : List WorkRequest
  workers : Fin n → Worker
  requests : List BlockHash
  calls : List (ℕ × Option Work)
  changes : ℕ

namespace WorkPool

variable {n : ℕ}

/-- The constructor. -/
def start (n : ℕ) : WorkPool n := ⟨0, false, [], fun _ => .ready, [], [], 0⟩

def setWorker (pool : WorkPool n) (t : Fin n) (w : Worker) : WorkPool n :=
  { pool with workers := Function.update pool.workers t w }

/-- `++ticket` -/
def nextTicket (pool : WorkPool n) : WorkPool n :=
  { pool with ticket := pool.ticket + 1, changes := pool.changes + 1 }

/-- `notify_all` -/
def notifyAll (pool : WorkPool n) : WorkPool n :=
  { pool with workers := fun t =>
      match pool.workers t with
      | .waiting => .ready
      | w => w }

theorem notifyAll_requests (pool : WorkPool n) : pool.notifyAll.requests = pool.requests := rfl

/-! ## Requests -/

def generate (pool : WorkPool n) (root : BlockHash) : Except Fault (WorkPool n) := do
  assertThat (root ≠ 0)
  let request := ⟨pool.requests.length, root⟩
  return notifyAll { pool with
    pending := pool.pending ++ [request], requests := pool.requests ++ [root] }

def cancel (pool : WorkPool n) (root : BlockHash) : WorkPool n :=
  let pool := if pool.pending.head?.map WorkRequest.root = some root then pool.nextTicket else pool
  { pool with
    pending := pool.pending.filter fun item => item.root ≠ root
    calls := pool.calls ++
      (pool.pending.filter fun item => item.root = root).map fun item => (item.id, none) }

section Cancel

variable (pool : WorkPool n) (root : BlockHash)

theorem cancel_pending : (pool.cancel root).pending =
    pool.pending.filter fun item => item.root ≠ root := by
  simp only [cancel]
  split <;> rfl

theorem cancel_calls : (pool.cancel root).calls = pool.calls ++
    (pool.pending.filter fun item => item.root = root).map fun item => (item.id, none) := by
  simp only [cancel]
  split <;> rfl

theorem cancel_workers : (pool.cancel root).workers = pool.workers := by
  simp only [cancel]
  split <;> rfl

theorem cancel_requests : (pool.cancel root).requests = pool.requests := by
  simp only [cancel]
  split <;> rfl

theorem cancel_done : (pool.cancel root).done = pool.done := by
  simp only [cancel]
  split <;> rfl

end Cancel

def stop (pool : WorkPool n) : WorkPool n := notifyAll { pool with done := true }

/-! ## Workers -/

/-- The head of the outer loop, with the mutex. The old value of `work` is never
read, so it is 0 here. -/
def enter (pool : WorkPool n) : Worker :=
  match pool.pending with
  | current :: _ => .searching current pool.ticket 0 0
  | [] => if pool.done then .exited else .waiting

/-- The inner loop of the search. -/
def attempts (p : NodeEnv) (root : BlockHash) (rng : ℕ → Work) :
    ℕ → Work → BitVec 64 → Work × BitVec 64
  | 0, work, output => (work, output)
  | iteration + 1, work, output =>
    if output < p.publishThreshold then
      attempts p root rng iteration (rng iteration) (p.workValue root (rng iteration))
    else (work, output)

/-- What a thread does next. -/
def stepWorker (p : NodeEnv) (pool : WorkPool n) (t : Fin n) (rng : ℕ → Work) :
    Except Fault (WorkPool n) :=
  match pool.workers t with
  | .ready => .ok (pool.setWorker t pool.enter)
  | .waiting => .ok pool
  | .searching current ticket work output =>
    if pool.ticket = ticket ∧ output < p.publishThreshold then
      let (work, output) := attempts p current.root rng 256 work output
      .ok (pool.setWorker t (.searching current ticket work output))
    else .ok (pool.setWorker t (.leaving current ticket work output))
  | .leaving current ticket work output =>
    if pool.ticket = ticket then do
      assertThat (p.publishThreshold ≤ output)
      assertThat (p.workValue current.root work = output)
      -- `pop_front` must not be called on an empty list
      assertThat (pool.pending ≠ [])
      return { pool.nextTicket.setWorker t (.answering current work) with
        pending := pool.pending.tail }
    else .ok (pool.setWorker t pool.enter)
  | .answering current work =>
    .ok { pool.setWorker t .ready with calls := pool.calls ++ [(current.id, some work)] }
  | .exited => .ok pool

/-- `wait` returns. -/
def wake (pool : WorkPool n) (t : Fin n) : WorkPool n :=
  match pool.workers t with
  | .waiting => pool.setWorker t .ready
  | _ => pool

/-! ## Moves -/

inductive Move (n : ℕ) : Type
  | generate (root : BlockHash)
  | cancel (root : BlockHash)
  | stop
  | wake (t : Fin n)
  | step (t : Fin n) (rng : ℕ → Work)

def apply (p : NodeEnv) (pool : WorkPool n) : Move n → Except Fault (WorkPool n)
  | .generate root => pool.generate root
  | .cancel root => .ok (pool.cancel root)
  | .stop => .ok pool.stop
  | .wake t => .ok (pool.wake t)
  | .step t rng => pool.stepWorker p t rng

end WorkPool

end RaiBlocks
