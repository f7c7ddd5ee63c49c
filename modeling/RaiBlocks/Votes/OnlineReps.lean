import RaiBlocks.Foundation.Index
import RaiBlocks.Lib.Blocks

/-!
# Representatives that are online

Translation of `online_reps` (`rai/node/node.cpp`). Times are in nanoseconds. That
`recalculate_stake` asks to be called again is not modelled: here it is called at any time. The
weights do not change, so the weight of an account is a parameter and not looked up.
-/

namespace RaiBlocks

open Foundation

structure RepLastHeardInfo where
  lastHeard : ℕ
  representative : Account
deriving DecidableEq

/-- `node::cutoff`: five minutes. -/
def nodeCutoff : ℕ := 300 * 10 ^ 9

structure OnlineReps where
  reps : Index RepLastHeardInfo.representative RepLastHeardInfo.lastHeard
  onlineStakeTotal : Uint128
  /-- Whether a branch for an underflow or an overflow has been taken, which the source does
  not keep. -/
  clamped : Bool

namespace OnlineReps

def new : OnlineReps := ⟨.empty, 0, false⟩

def subtract (o : OnlineReps) (weight : Uint128) : OnlineReps :=
  if o.onlineStakeTotal < o.onlineStakeTotal - weight then
    { o with onlineStakeTotal := 0, clamped := true }
  else { o with onlineStakeTotal := o.onlineStakeTotal - weight }

def add (o : OnlineReps) (weight : Uint128) : OnlineReps :=
  if o.onlineStakeTotal + weight < o.onlineStakeTotal then
    { o with onlineStakeTotal := BitVec.allOnes 128, clamped := true }
  else { o with onlineStakeTotal := o.onlineStakeTotal + weight }

variable (weight : Account → Uint128)

/-- The loop that erases the entries that are too old, for at most the given number of
entries. -/
def evict (now : ℕ) : ℕ → OnlineReps → OnlineReps
  | 0, o => o
  | n + 1, o =>
    match o.reps.entries.head? with
    | none => o
    | some current =>
      if current.lastHeard + nodeCutoff < now then
        let o := o.subtract (weight current.representative)
        evict now n { o with reps := o.reps.tail }
      else o

def vote (o : OnlineReps) (rep : Account) (now : ℕ) : OnlineReps :=
  let o := evict weight now o.reps.entries.length o
  match o.reps.find? rep with
  | none =>
    let o := o.add (weight rep)
    { o with reps := o.reps.insert ⟨now, rep⟩ }
  | some _ => { o with reps := o.reps.replace ⟨now, rep⟩ }

/-- There is no test for an overflow here. -/
def recalculateStake (o : OnlineReps) : OnlineReps :=
  { o with onlineStakeTotal :=
      o.reps.entries.foldl (fun total it => total + weight it.representative) 0 }

end OnlineReps

/-- A call, with the time that the clock shows. -/
inductive OnlineCall where
  | vote (rep : Account) (now : ℕ)
  | recalculateStake
deriving DecidableEq

namespace OnlineReps

variable (weight : Account → Uint128)

def call (o : OnlineReps) : OnlineCall → OnlineReps
  | .vote rep now => o.vote weight rep now
  | .recalculateStake => o.recalculateStake weight

/-- After the calls of a list, one after the other. -/
def run (calls : List OnlineCall) : OnlineReps := calls.foldl (call weight) new

end OnlineReps

end RaiBlocks
