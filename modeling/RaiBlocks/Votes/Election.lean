import RaiBlocks.Votes.Tally

/-!
# Elections

Translation of `rai::election` (`rai/node/node.cpp`), which collects the votes
for the blocks of one root. `election::vote` enters a vote, makes the leading
block the winner, and hands the winner to `process_confirmed` once the lead is
large enough. Publishing to the network and logging are left out; the blocks
passed to `block_processor::force` and to `process_confirmed` are returned.
-/

namespace RaiBlocks

open Foundation

/-- The settings an election reads, as `node_config::deserialize_json` accepts them. -/
structure NodeConfig where
  onlineWeightMinimum : Uint128
  onlineWeightQuorum : ℕ
  quorum_le : onlineWeightQuorum ≤ 100

namespace NodeConfig

/-- `online_reps::online_stake`. -/
def onlineStake (config : NodeConfig) (onlineStakeTotal : Uint128) : Uint128 :=
  max onlineStakeTotal config.onlineWeightMinimum

/-- `node::delta`. -/
def delta (config : NodeConfig) (onlineStakeTotal : Uint128) : Uint128 :=
  (config.onlineStake onlineStakeTotal / 100) * BitVec.ofNat 128 config.onlineWeightQuorum

end NodeConfig

/-! ## The election -/

structure VoteInfo where
  /-- Reading of the steady clock, in nanoseconds. -/
  time : ℤ
  sequence : Uint64
  hash : BlockHash
deriving DecidableEq

/-- `vote_info::operator<`. -/
def VoteInfo.lt (p : Env) (last : VoteInfo) (v : Vote) : Bool :=
  last.sequence < v.sequence || (last.sequence == v.sequence && last.hash < v.block.hash p)

namespace VoteInfo

/-- The information is about the vote. -/
def Records (p : Env) (last : VoteInfo) (v : Vote) : Prop :=
  last.sequence = v.sequence ∧ last.hash = v.block.hash p

/-- Equal or less, in the order of `vote_info::operator<`. -/
def le (last last' : VoteInfo) : Prop :=
  last.sequence < last'.sequence ∨ (last.sequence = last'.sequence ∧ last.hash ≤ last'.hash)

theorem le_self (last : VoteInfo) : last.le last := Or.inr ⟨rfl, le_rfl⟩

theorem le_trans {x y z : VoteInfo} (hxy : x.le y) (hyz : y.le z) : x.le z := by
  rcases hxy with hxy | ⟨hs, hh⟩
  · rcases hyz with hyz | ⟨hs', -⟩
    · exact Or.inl (hxy.trans hyz)
    · exact Or.inl (hs' ▸ hxy)
  · rcases hyz with hyz | ⟨hs', hh'⟩
    · exact Or.inl (hs ▸ hyz)
    · exact Or.inr ⟨hs.trans hs', hh.trans hh'⟩

theorem le_of_lt {p : Env} {last last' : VoteInfo} {v : Vote} (h : last.lt p v = true)
    (hrec : last'.Records p v) : last.le last' := by
  unfold le
  rw [hrec.1, hrec.2]
  simp only [lt, Bool.or_eq_true, Bool.and_eq_true, decide_eq_true_eq, beq_iff_eq] at h
  rcases h with h | ⟨hs, hh⟩
  · exact Or.inl h
  · exact Or.inr ⟨hs, hh.le⟩

end VoteInfo

structure ElectionStatus where
  winner : Block
  tally : Uint128

structure Election where
  votes : Votes
  lastVotes : Table Account VoteInfo
  status : ElectionStatus
  confirmed : Bool

/-- What one call reads besides the election: the weights its transaction sees,
the stake heard of lately, the clock when a vote is checked and when it is
entered, and the orders of iteration. -/
structure Moment where
  weights : Weights
  onlineStakeTotal : Uint128
  now : ℤ
  stamp : ℤ
  order : Iteration

/-- The blocks handed to other parts of the node. -/
structure Effects where
  forced : Option Block
  processConfirmed : Option Block

def Effects.none : Effects := ⟨.none, .none⟩

namespace Election

def start (notAnAccount : Account) (b : Block) : Election :=
  ⟨Votes.start notAnAccount b, ∅, ⟨b, 0⟩, false⟩

/-- Returns the block passed to `process_confirmed`. -/
def confirmOnce (e : Election) : Election × Option Block :=
  if e.confirmed then (e, none) else ({ e with confirmed := true }, some e.status.winner)

/-- `election::have_quorum`. The sum wraps. -/
def haveQuorum (delta : Uint128) : List (Uint128 × Block) → Except Fault Bool
  | [] => .error .nullBlock
  | [first] => .ok (decide (first.1 > 0 + delta))
  | first :: second :: _ => .ok (decide (first.1 > second.1 + delta))

/-- Make the first entry of the tally the winner, if enough weight has voted. -/
def switchWinner (config : NodeConfig) (e : Election) (b : Block) (sum : Uint128) :
    Election × Option Block :=
  if config.onlineWeightMinimum ≤ sum ∧ b ≠ e.status.winner then
    ({ e with status.winner := b }, some b)
  else (e, none)

def confirmIfQuorum (config : NodeConfig) (m : Moment) (e : Election) :
    Except Fault (Election × Effects) :=
  match Ledger.tally m.weights.of m.order e.votes with
  | [] => .error .assertion
  | first :: rest => do
    let tally := first :: rest
    let e := { e with status.tally := first.1 }
    let sum := tally.foldl (fun sum i => sum + i.1) 0
    let (e, forced) := e.switchWinner config first.2 sum
    if ← haveQuorum (config.delta m.onlineStakeTotal) tally then
      let (e, processConfirmed) := e.confirmOnce
      return (e, ⟨forced, processConfirmed⟩)
    else
      return (e, ⟨forced, none⟩)

/-- Seconds between two votes of a representative. -/
def cooldown (weight supply : Uint128) : ℤ :=
  if weight < supply / 100 then 15 -- 0.1% to 1%
  else if weight < supply / 20 then 5 -- 1% to 5%
  else 1 -- 5% or above

/-- Whether to process the vote of a representative with enough weight, and
whether it is a replay. -/
def shouldProcess (p : Env) (m : Moment) (supply : Uint128) (e : Election) (v : Vote) :
    Bool × Bool :=
  match e.lastVotes.lookup v.account with
  | none => (true, false)
  | some last =>
    if last.lt p v then
      (decide (last.time ≤ m.now - cooldown (m.weights.of v.account) supply * 10 ^ 9), false)
    else (false, true)

/-- Record the vote of an account. -/
def enter (p : Env) (m : Moment) (e : Election) (v : Vote) : Election :=
  { e with
    lastVotes := e.lastVotes.insert v.account ⟨m.stamp, v.sequence, v.block.hash p⟩
    votes := (e.votes.vote v).1 }

/-- Outside of the test network, a representative needs 0.1% of the stake. -/
def eligible (p : Env) (config : NodeConfig) (m : Moment) (a : Account) : Bool :=
  p.network == .raiTestNetwork ||
    decide (m.weights.of a > config.onlineStake m.onlineStakeTotal / 1000)

/-- Is the vote counted? -/
def counts (p : Env) (config : NodeConfig) (m : Moment) (e : Election) (v : Vote) : Bool :=
  eligible p config m v.account &&
    (e.shouldProcess p m (config.onlineStake m.onlineStakeTotal) v).1

def replays (p : Env) (config : NodeConfig) (m : Moment) (e : Election) (v : Vote) : Bool :=
  eligible p config m v.account &&
    (e.shouldProcess p m (config.onlineStake m.onlineStakeTotal) v).2

/-- `election::vote`. The last component is the value returned. -/
def vote (p : Env) (config : NodeConfig) (m : Moment) (e : Election) (v : Vote) :
    Except Fault (Election × Effects × Bool) := do
  assertThat (!v.validate p)
  if e.counts p config m v then
    let (e', effects) ← (e.enter p m v).confirmIfQuorum config m
    return (e', effects, e.replays p config m v)
  else
    return (e, Effects.none, e.replays p config m v)

end Election

end RaiBlocks
