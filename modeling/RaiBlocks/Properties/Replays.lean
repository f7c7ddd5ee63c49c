import RaiBlocks.Votes.VoteProcessor
import RaiBlocks.Votes.Voting

/-!
# Replayed votes

An election that has counted a vote recognises every vote of the same account
that is not above it: what it has recorded for an account never goes down.
`vote_processor::vote` does not leave it at that. It reports a replay as a new
vote, and tells the observers, if the store knows a vote of the account with a
higher sequence number. The vote that was counted is usually such a vote for
every replay that is older than it.
-/

namespace RaiBlocks

open Foundation Relation

namespace Election

variable {p : Env} {config : NodeConfig} {m : Moment} {e e' : Election} {u v : Vote}

/-- One call of `election::vote`, for any vote at any moment. -/
def VoteStep (p : Env) (config : NodeConfig) (e e' : Election) : Prop :=
  ∃ m v effects replay, e.vote p config m v = .ok (e', effects, replay)

/-- The election has recorded the vote, or one above it, for its account. -/
def Past (p : Env) (e : Election) (v : Vote) : Prop :=
  ∃ last, e.lastVotes.lookup v.account = some last ∧
    (⟨last.time, v.sequence, v.block.hash p⟩ : VoteInfo).le last

/-! ## What the election has recorded -/

theorem vote_lastVotes {effects : Effects} {replay : Bool}
    (h : e.vote p config m v = .ok (e', effects, replay)) :
    e'.lastVotes = if e.counts p config m v then (e.enter p m v).lastVotes else e.lastVotes := by
  unfold vote at h
  obtain ⟨-, -, h⟩ := bind_eq_ok h
  by_cases hc : e.counts p config m v = true
  · rw [if_pos hc] at h ⊢
    obtain ⟨⟨e₁, effects₁⟩, hconfirm, h⟩ := bind_eq_ok h
    obtain ⟨rfl, -⟩ := Prod.mk.inj (Except.ok.inj h)
    exact (confirmIfQuorum_containers hconfirm).1
  · rw [if_neg hc] at h ⊢
    obtain ⟨rfl, -⟩ := Prod.mk.inj (Except.ok.inj h)
    rfl

/-- A vote that is counted is above what was recorded before. -/
theorem lt_of_counts {last : VoteInfo} (h : e.counts p config m v = true)
    (hlast : e.lastVotes.lookup v.account = some last) : last.lt p v = true := by
  unfold counts shouldProcess at h
  simp only [hlast, Bool.and_eq_true] at h
  by_contra hlt
  rw [if_neg hlt] at h
  exact Bool.false_ne_true h.2

theorem past_of_counts {effects : Effects} {replay : Bool} (hc : e.counts p config m v = true)
    (h : e.vote p config m v = .ok (e', effects, replay)) : e'.Past p v := by
  refine ⟨⟨m.stamp, v.sequence, v.block.hash p⟩, ?_, VoteInfo.le_self _⟩
  rw [vote_lastVotes h, if_pos hc]
  exact Finmap.lookup_insert _

/-- A call leaves every recorded vote or puts a higher one in its place. -/
theorem Past.step (hpast : e.Past p u) (h : VoteStep p config e e') : e'.Past p u := by
  obtain ⟨m, v, effects, replay, h⟩ := h
  obtain ⟨last, hlast, hle⟩ := hpast
  unfold Past
  rw [vote_lastVotes h]
  by_cases hc : e.counts p config m v = true
  · rw [if_pos hc]
    simp only [enter, Table.lookup_insert_ite]
    by_cases ha : u.account = v.account
    · rw [if_pos ha]
      have hlt := lt_of_counts hc (ha ▸ hlast)
      exact ⟨_, rfl, VoteInfo.le_trans hle (VoteInfo.le_of_lt hlt ⟨rfl, rfl⟩)⟩
    · rw [if_neg ha]
      exact ⟨last, hlast, hle⟩
  · rw [if_neg hc]
    exact ⟨last, hlast, hle⟩

theorem Past.later (hpast : e.Past p u) (h : ReflTransGen (VoteStep p config) e e') :
    e'.Past p u := by
  induction h with
  | refl => exact hpast
  | tail _ hstep ih => exact ih.step hstep

/-- A vote that is not above a recorded one is a replay and changes nothing. -/
theorem vote_of_past (hpast : e.Past p u) (ha : v.account = u.account)
    (hle : v.sequence < u.sequence ∨ (v.sequence = u.sequence ∧ v.block.hash p ≤ u.block.hash p))
    (hv : v.validate p = false) (hw : eligible p config m v.account = true) :
    e.vote p config m v = .ok (e, Effects.none, true) := by
  obtain ⟨last, hlast, hrec⟩ := hpast
  rw [← ha] at hlast
  have habove : (⟨last.time, v.sequence, v.block.hash p⟩ : VoteInfo).le last :=
    VoteInfo.le_trans (y := ⟨last.time, u.sequence, u.block.hash p⟩) hle hrec
  have hlt : last.lt p v = false := by
    simp only [VoteInfo.lt, Bool.or_eq_false_iff, Bool.and_eq_false_imp, decide_eq_false_iff_not,
      beq_iff_eq, not_lt]
    rcases habove with h | ⟨hs, hh⟩
    · exact ⟨h.le, fun heq => absurd heq h.ne'⟩
    · exact ⟨hs.le, fun _ => hh⟩
  have hshould : e.shouldProcess p m (config.onlineStake m.onlineStakeTotal) v = (false, true) := by
    simp only [shouldProcess, hlast, hlt, Bool.false_eq_true, if_false]
  have hcounts : e.counts p config m v = false := by
    simp only [counts, hshould, Bool.and_false]
  have hreplays : e.replays p config m v = true := by
    simp only [replays, hshould, hw, Bool.and_self]
  unfold vote
  rw [hv, hcounts, hreplays]
  rfl

end Election

/-! ## The code that is returned -/

namespace Peer

variable {p : Env} {n : Peer} {v : Vote}

/-- No stored vote of the account has a higher sequence number. -/
def Highest (n : Peer) (v : Vote) : Prop :=
  ∀ u, n.current v.account = some u → u.sequence ≤ v.sequence

theorem higherVote_le_iff :
    (higherVote (n.current v.account) v).sequence ≤ v.sequence ↔ n.Highest v := by
  unfold Highest
  cases hcurrent : n.current v.account with
  | none => simp [higherVote]
  | some u =>
    simp only [Option.some.injEq, forall_eq', BitVec.le_def]
    rcases Nat.lt_or_ge v.sequence.toNat u.sequence.toNat with hlt | hle
    · rw [higherVote_of_lt hlt]
    · rw [higherVote_of_le hle]
      exact iff_of_true le_rfl hle

/-- What the election takes for a replay is reported as one exactly if the store
knows nothing higher. -/
theorem processVote_code (hv : v.validate p = false) :
    (n.processVote p true v).2.1 = .replay ↔ n.Highest v := by
  have hmax : (voteMax n.cache n.vote v).1 = higherVote (n.current v.account) v := rfl
  rw [← higherVote_le_iff]
  simp only [processVote, hv, Bool.false_eq_true, if_false, Bool.not_true, Bool.false_or, hmax,
    decide_eq_true_eq]
  by_cases h : (higherVote (n.current v.account) v).sequence ≤ v.sequence
  · rw [if_neg (not_lt.mpr h)]
    exact iff_of_true rfl h
  · rw [if_pos (not_le.mp h)]
    exact iff_of_false (by decide) h

end Peer

/-- **Replays are reported exactly if the store knows nothing higher.** An election
counts a vote, and later, after any further votes, the processor gets a vote of
the same account for the same root that is not above the first. It reports a
replay and does not notify the observers, if and only if the stored votes hold
none of this account with a higher sequence number. -/
theorem replay_reported_iff (p : Env) (config : NodeConfig) {e e₁ e' : Election} {m m' : Moment}
    {v v' : Vote} {effects : Effects} {replay : Bool}
    (hcounts : e.counts p config m v = true)
    (hvote : e.vote p config m v = .ok (e₁, effects, replay))
    (hlater : ReflTransGen (Election.VoteStep p config) e₁ e')
    (hacc : v'.account = v.account)
    (hle : v'.sequence < v.sequence ∨ (v'.sequence = v.sequence ∧ v'.block.hash p ≤ v.block.hash p))
    (hvalid : v'.validate p = false) (hweight : Election.eligible p config m' v'.account = true)
    (n : VotingNode) (hactive : n.roots.lookup v'.block.root = some e') :
    (∃ n' result, n.vote p config m' v' = .ok (n', result) ∧ result.code = .replay ∧
      result.notified = false) ↔ n.peer.Highest v' := by
  have hpast := (Election.past_of_counts hcounts hvote).later hlater
  have hreplay := Election.vote_of_past hpast hacc hle hvalid hweight
  have hcall : n.vote p config m' v' = .ok
      ({ roots := n.roots.insert v'.block.root e', peer := (n.peer.processVote p true v').1 },
        { code := (n.peer.processVote p true v').2.1
          notified := (n.peer.processVote p true v').2.1 == .vote
          reply := (n.peer.processVote p true v').2.2
          effects := Effects.none }) := by
    simp only [VotingNode.vote, VotingNode.activeVote, hvalid, hactive, hreplay]
    rfl
  rw [hcall, ← Peer.processVote_code hvalid]
  constructor
  · rintro ⟨n', result, hok, hcode, -⟩
    obtain ⟨-, rfl⟩ := Prod.mk.inj (Except.ok.inj hok)
    exact hcode
  · intro hcode
    exact ⟨_, _, rfl, hcode, by simp only [hcode]; rfl⟩

namespace Replayed

def env : Env := ⟨fun _ => 0, fun _ _ _ => false, .raiTestNetwork, false⟩

def config : NodeConfig := ⟨0, 50, by norm_num⟩

/-- Nobody has weight. -/
def moment : Moment := ⟨⟨fun _ => 0, fun s => by simp⟩, 0, 0, 0, .plain⟩

/-- The votes of account 7 for one block. -/
def vote (sequence : Uint64) : Vote := ⟨sequence, .changeBlock ⟨⟨5, 7⟩, 0, 0⟩, 7, 0⟩

/-- The election for this block. -/
def election : Election := .start 0 (vote 0).block

/-- A node with the given election and votes. -/
def node (e : Election) (cache : VoteTable) : VotingNode :=
  ⟨Finmap.singleton (vote 0).block.root e, ⟨cache, .empty⟩⟩

theorem counted : election.counts env config moment (vote 2) = true := by decide +kernel

end Replayed

/-- The account's vote 2 is counted, and is then in the store. Its vote 1, which the
election takes for a replay, is reported as a vote. -/
theorem replay_reported_as_vote :
    Replayed.election.counts Replayed.env Replayed.config Replayed.moment (Replayed.vote 2) = true ∧
    (do
      let (n, _) ← (Replayed.node Replayed.election .empty).vote Replayed.env Replayed.config
        Replayed.moment (Replayed.vote 2)
      let (_, _, replay) ← n.activeVote Replayed.env Replayed.config Replayed.moment
        (Replayed.vote 1)
      let (_, result) ← n.vote Replayed.env Replayed.config Replayed.moment (Replayed.vote 1)
      return (replay, result.code, result.notified)) = Except.ok (true, VoteCode.vote, true) :=
  ⟨Replayed.counted, by decide +kernel⟩

/-- The same vote for a second time is reported as a replay. -/
theorem replay_reported_iff_same : ∃ e effects replay,
    Replayed.election.vote Replayed.env Replayed.config Replayed.moment (Replayed.vote 2) =
      .ok (e, effects, replay) ∧
    ∃ n' result, (Replayed.node e (VoteTable.empty.put (Replayed.vote 2))).vote Replayed.env
      Replayed.config Replayed.moment (Replayed.vote 2) = .ok (n', result) ∧
      result.code = .replay ∧ result.notified = false := by
  have hok : (Replayed.election.vote Replayed.env Replayed.config Replayed.moment
      (Replayed.vote 2)).isOk = true := by decide +kernel
  cases hvote : Replayed.election.vote Replayed.env Replayed.config Replayed.moment
      (Replayed.vote 2) with
  | error fault =>
    rw [hvote] at hok
    cases hok
  | ok x =>
    obtain ⟨e, effects, replay⟩ := x
    refine ⟨e, effects, replay, rfl, ?_⟩
    refine (replay_reported_iff Replayed.env Replayed.config Replayed.counted hvote .refl rfl
      (Or.inr ⟨rfl, le_rfl⟩) rfl rfl _ (Finmap.lookup_singleton_eq ..)).mpr ?_
    intro u hu
    obtain rfl : Replayed.vote 2 = u := Option.some.inj hu
    exact le_rfl

end RaiBlocks
