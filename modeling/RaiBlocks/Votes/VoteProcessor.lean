import RaiBlocks.Votes.Election
import RaiBlocks.Votes.VoteStore

/-!
# Answering votes

Translation of `vote_processor::vote` (`rai/node/node.cpp`). `Peer.processVote` is
what it decides from the stored votes: a node that knows a much higher vote of
the same account replies with it. There `active.vote` is a parameter; its result
goes into the code that is returned and not into the reply. `VotingNode.vote` is
the whole call, on a node with its elections.

`replies` is the exchange of two nodes that deliver their replies to each other.
-/

namespace RaiBlocks

open Foundation

/-- The highest votes a node knows. -/
structure Peer where
  cache : VoteTable
  vote : VoteTable

inductive VoteCode where
  | invalid | replay | vote
deriving DecidableEq

namespace Peer

def current (n : Peer) (a : Account) : Option Vote := voteCurrent n.cache n.vote a

/-- `vote_processor::vote`, with the `confirm_ack` it sends. The sum wraps. -/
def processVote (p : Env) (activeVote : Bool) (n : Peer) (v : Vote) :
    Peer × VoteCode × Option Vote :=
  if v.validate p then (n, .invalid, none)
  else
    let (maxVote, cache) := voteMax n.cache n.vote v
    let code := if !activeVote || maxVote.sequence > v.sequence then .vote else .replay
    let reply := if maxVote.sequence > v.sequence + 10000 then some maxVote else none
    ({ n with cache := cache }, code, reply)

end Peer

/-! ## With the elections -/

/-- The part of a node that a vote changes. `roots` holds the active elections. -/
structure VotingNode where
  roots : Table BlockHash Election
  peer : Peer

/-- What `vote_processor::vote` returns and does outside of the node. -/
structure VoteResult where
  code : VoteCode
  /-- Has `observers.vote` been called? -/
  notified : Bool
  reply : Option Vote
  effects : Effects

namespace VotingNode

/-- `active_transactions::vote`. The last component is the value returned. -/
def activeVote (p : Env) (config : NodeConfig) (m : Moment) (n : VotingNode) (v : Vote) :
    Except Fault (VotingNode × Effects × Bool) :=
  match n.roots.lookup v.block.root with
  | none => .ok (n, Effects.none, false)
  | some election => do
    let (election, effects, result) ← election.vote p config m v
    return ({ n with roots := n.roots.insert v.block.root election }, effects, result)

/-- `vote_processor::vote`. -/
def vote (p : Env) (config : NodeConfig) (m : Moment) (n : VotingNode) (v : Vote) :
    Except Fault (VotingNode × VoteResult) :=
  if v.validate p then .ok (n, ⟨.invalid, false, none, Effects.none⟩)
  else do
    let (n, effects, active) ← n.activeVote p config m v
    let (peer, code, reply) := n.peer.processVote p active v
    return ({ n with peer := peer }, ⟨code, code == .vote, reply, effects⟩)

end VotingNode

/-! ## Two nodes -/

/-- The replies of at most `n` rounds, each with the vote it answers. `active` is
what `active.vote` returns in the rounds. -/
def replies (p : Env) (active : ℕ → Bool) : ℕ → Peer → Peer → Vote → List (Vote × Vote)
  | 0, _, _, _ => []
  | n + 1, here, there, v =>
    match here.processVote p (active n) v with
    | (_, _, none) => []
    | (here, _, some r) => (v, r) :: replies p active n there here r

end RaiBlocks
