import RaiBlocks.Foundation.Machine
import RaiBlocks.Votes.Election

/-!
# Threads that vote

`active_transactions::vote` takes an election out of the active set under a lock
and calls `election::vote` without it, so calls for one election run at the same
time. Here a call is a record with the point of the code it has come to, and
every access to `last_votes` or to `rep_votes` is a step of its own. A move of
`Voting` starts a call or lets one take its next step.

`alone_vote` connects this with `Election.vote`: a call whose steps come one
right after the other does what that function does.
-/

namespace RaiBlocks

open Foundation Election

/-- The access a call of `election::vote` makes next. -/
inductive Phase where
  /-- `last_votes.find` -/
  | find
  /-- `last_vote_it->second` -/
  | read
  /-- The assignment to `last_votes`, with what the check has seen there. -/
  | record (seen : Option VoteInfo)
  /-- `rep_votes.find` -/
  | enter
  /-- `rep_votes.insert`, which does not overwrite -/
  | insert
  /-- `*existing->second == *vote_a->block` -/
  | compare
  /-- The assignment to `existing->second` -/
  | assign
  | confirm
  | finished (replay : Bool)
deriving DecidableEq

structure Call where
  vote : Vote
  /-- What the call reads besides the election. -/
  moment : Moment
  phase : Phase

namespace Call

/-- The vote is in `last_votes`, and `votes::vote` has not done with `rep_votes`. -/
def entering (c : Call) : Bool :=
  match c.phase with
  | .enter | .insert | .compare | .assign => true
  | _ => false

/-- The next step of a call, when the clock reads `now`. -/
def next (p : Env) (config : NodeConfig) (now : ℤ) (e : Election) (c : Call) :
    Except Fault (Election × Call) :=
  let v := c.vote
  match c.phase with
  | .find => do
    assertThat (!v.validate p)
    if eligible p config c.moment v.account then
      match e.lastVotes.lookup v.account with
      | none => return (e, { c with phase := .record none })
      | some _ => return (e, { c with phase := .read })
    else
      return (e, { c with phase := .finished false })
  | .read =>
    let m := { c.moment with now }
    let (process, replay) := e.shouldProcess p m (config.onlineStake m.onlineStakeTotal) v
    if process then
      return (e, ⟨v, m, .record (e.lastVotes.lookup v.account)⟩)
    else
      return (e, ⟨v, m, .finished replay⟩)
  | .record _ =>
    return ({ e with lastVotes := e.lastVotes.insert v.account ⟨now, v.sequence, v.block.hash p⟩ },
      ⟨v, { c.moment with stamp := now }, .enter⟩)
  | .enter =>
    match e.votes.find v.account with
    | none => return (e, { c with phase := .insert })
    | some _ => return (e, { c with phase := .compare })
  | .insert =>
    if h : e.votes.find v.account = none then
      return ({ e with votes := e.votes.insert v.account v.block h }, { c with phase := .confirm })
    else
      return (e, { c with phase := .confirm })
  | .compare =>
    match e.votes.find v.account with
    | none => .error .nullBlock
    | some b =>
      if b ≠ v.block then return (e, { c with phase := .assign })
      else return (e, { c with phase := .confirm })
  | .assign =>
    return ({ e with votes := e.votes.replace v.account v.block }, { c with phase := .confirm })
  | .confirm => do
    let (e, _) ← e.confirmIfQuorum config c.moment
    return (e, { c with phase := .finished false })
  | .finished _ => return (e, c)

end Call

/-- An election and the calls made for it so far. -/
structure Voting where
  election : Election
  clock : ℤ
  calls : List Call

namespace Voting

inductive Move where
  | call (v : Vote) (m : Moment)
  /-- Call number `i` takes its next step, some time after the last one. -/
  | step (i elapsed : ℕ)

def start (notAnAccount : Account) (b : Block) : Voting := ⟨.start notAnAccount b, 0, []⟩

def apply (p : Env) (config : NodeConfig) (s : Voting) : Move → Except Fault Voting
  | .call v m => return { s with calls := s.calls ++ [⟨v, m, .find⟩] }
  | .step i elapsed =>
    match s.calls[i]? with
    | none => return s
    | some c => do
      let (e, c) ← c.next p config (s.clock + elapsed) s.election
      return ⟨e, s.clock + elapsed, s.calls.set i c⟩

/-- No call is under way. -/
def Quiescent (s : Voting) : Prop := ∀ c ∈ s.calls, ∃ replay, c.phase = .finished replay

end Voting

/-! ## Lookups in the votes -/

namespace Votes

theorem find_insert (votes : Votes) {a : Account} {b : Block} (h : votes.find a = none)
    (x : Account) : (votes.insert a b h).find x = if x = a then some b else votes.find x := by
  unfold find insert
  by_cases hx : x = a
  · simp [hx]
  · simp [hx, Ne.symm hx]

theorem find_replace (votes : Votes) (a : Account) (b : Block) (x : Account) :
    (votes.replace a b).find x =
      if x = a then (votes.find a).map fun _ => b else votes.find x := by
  unfold find replace
  dsimp only
  generalize votes.repVotes = l
  induction l with
  | nil => simp
  | cons i l ih =>
    rw [List.map_cons, List.find?_cons, List.find?_cons, List.find?_cons]
    by_cases hi : i.1 = a
    · by_cases hx : x = a
      · simp [hi, hx]
      · simpa [hi, hx, Ne.symm hx] using ih
    · by_cases hx : x = a
      · subst hx
        simpa [hi] using ih
      · by_cases hix : i.1 = x
        · simp [hx, hix]
        · simpa [hi, hx, hix] using ih

end Votes

/-! ## A call on its own -/

section Alone

variable {p : Env} {config : NodeConfig} {m : Moment} {e e' : Election} {effects : Effects}
  {v : Vote}

theorem Election.switchWinner_containers (config : NodeConfig) (e : Election) (b : Block)
    (sum : Uint128) : (e.switchWinner config b sum).1.lastVotes = e.lastVotes ∧
      (e.switchWinner config b sum).1.votes = e.votes := by
  unfold switchWinner
  split
  · exact ⟨rfl, rfl⟩
  · exact ⟨rfl, rfl⟩

theorem Election.confirmOnce_containers (e : Election) :
    e.confirmOnce.1.lastVotes = e.lastVotes ∧ e.confirmOnce.1.votes = e.votes := by
  unfold confirmOnce
  split
  · exact ⟨rfl, rfl⟩
  · exact ⟨rfl, rfl⟩

/-- `confirm_if_quorum` changes neither container. -/
theorem Election.confirmIfQuorum_containers (h : e.confirmIfQuorum config m = .ok (e', effects)) :
    e'.lastVotes = e.lastVotes ∧ e'.votes = e.votes := by
  unfold confirmIfQuorum at h
  split at h
  · cases h
  · rename_i first rest _
    simp only at h
    generalize hs : switchWinner config _ first.2 _ = s at h
    have hswitch : s.1.lastVotes = e.lastVotes ∧ s.1.votes = e.votes := by
      rw [← hs]
      exact switchWinner_containers config _ _ _
    obtain ⟨quorum, -, h⟩ := bind_eq_ok h
    cases quorum with
    | false =>
      obtain ⟨rfl, -⟩ := Prod.mk.inj (Except.ok.inj h)
      exact hswitch
    | true =>
      obtain ⟨rfl, -⟩ := Prod.mk.inj (Except.ok.inj h)
      have honce := s.1.confirmOnce_containers
      exact ⟨honce.1.trans hswitch.1, honce.2.trans hswitch.2⟩

theorem Election.replay_of_process {supply : Uint128}
    (h : (e.shouldProcess p m supply v).1 = true) : (e.shouldProcess p m supply v).2 = false := by
  unfold shouldProcess at h ⊢
  cases hlast : e.lastVotes.lookup v.account with
  | none => rfl
  | some last =>
    simp only [hlast] at h ⊢
    by_cases hlt : last.lt p v = true
    · rw [if_pos hlt]
    · rw [if_neg hlt] at h
      cases h

/-- The steps of one call with none of another in between. -/
inductive Call.Alone (p : Env) (config : NodeConfig) : ℤ → Election → Call → Election → Call → Prop
  | refl {clock : ℤ} {e : Election} {c : Call} : Alone p config clock e c e c
  | step {clock : ℤ} {e e₁ e' : Election} {c c₁ c' : Call} (now : ℤ) : clock ≤ now →
      c.next p config now e = .ok (e₁, c₁) → Alone p config now e₁ c₁ e' c' →
      Alone p config clock e c e' c'

namespace Call.Alone

variable {clock : ℤ} {c c' : Call}

theorem run (h : Alone p config clock e c e' c') {calls : List Call} {i : ℕ}
    (hc : calls[i]? = some c) :
    ∃ ms clock', (∀ move ∈ ms, ∃ elapsed, move = .step i elapsed) ∧
      Machine.run (Voting.apply p config) ⟨e, clock, calls⟩ ms =
        .ok ⟨e', clock', calls.set i c'⟩ := by
  induction h generalizing calls with
  | @refl clock e c =>
    obtain ⟨hlt, rfl⟩ := List.getElem?_eq_some_iff.mp hc
    refine ⟨[], clock, by simp, ?_⟩
    rw [List.set_getElem_self]
    rfl
  | @step clock e e₁ e' c c₁ c' now hnow hnext _ ih =>
    obtain ⟨d, hd⟩ : ∃ d : ℕ, clock + d = now := ⟨(now - clock).toNat, by omega⟩
    have hlt : i < calls.length := (List.getElem?_eq_some_iff.mp hc).1
    obtain ⟨ms, clock', hms, hrun⟩ := ih (List.getElem?_set_self (a := c₁) hlt)
    refine ⟨.step i d :: ms, clock', ?_, ?_⟩
    · rintro move (_ | ⟨_, hmove⟩)
      · exact ⟨d, rfl⟩
      · exact hms move hmove
    · rw [Machine.run, Voting.apply, hc, hd]
      simp only [hnext, ok_bind]
      rw [List.set_set] at hrun
      exact hrun

/-- `votes::vote`, then the rest. -/
theorem enter (h : Alone p config clock { e with votes := (e.votes.vote v).1 }
      ⟨v, m, .confirm⟩ e' c') :
    Alone p config clock e ⟨v, m, .enter⟩ e' c' := by
  unfold Votes.vote at h
  split at h
  · rename_i hfind
    have hinsert : next p config clock e ⟨v, m, .enter⟩ = .ok (e, ⟨v, m, .insert⟩) := by
      unfold next
      simp only [hfind]
      rfl
    refine .step clock le_rfl hinsert (.step clock le_rfl ?_ h)
    unfold next
    simp only [hfind, dite_true]
    rfl
  · rename_i b hfind
    have hcompare : next p config clock e ⟨v, m, .enter⟩ = .ok (e, ⟨v, m, .compare⟩) := by
      unfold next
      simp only [hfind]
      rfl
    split at h
    · rename_i hb
      have hassign : next p config clock e ⟨v, m, .compare⟩ = .ok (e, ⟨v, m, .assign⟩) := by
        unfold next
        simp only [hfind, if_pos hb]
        rfl
      exact .step clock le_rfl hcompare (.step clock le_rfl hassign (.step clock le_rfl rfl h))
    · rename_i hb
      refine .step clock le_rfl hcompare (.step clock le_rfl ?_ h)
      unfold next
      simp only [hfind, if_neg hb]
      rfl

/-- What follows the check of a vote that is processed. -/
theorem record {seen : Option VoteInfo} {stamp : ℤ} {effects : Effects} (hstamp : clock ≤ stamp)
    (h : (e.enter p { m with stamp } v).confirmIfQuorum config { m with stamp } =
      .ok (e', effects)) :
    Alone p config clock e ⟨v, m, .record seen⟩ e' ⟨v, { m with stamp }, .finished false⟩ := by
  refine .step stamp hstamp rfl (enter (.step stamp le_rfl ?_ .refl))
  change ((e.enter p { m with stamp } v).confirmIfQuorum config { m with stamp } >>= _) = _
  rw [h]
  rfl

end Call.Alone

/-- **A call on its own is `Election.vote`.** -/
theorem Voting.alone_vote {s : Voting} {i : ℕ} (hc : s.calls[i]? = some ⟨v, m, .find⟩)
    {now stamp : ℤ} (hnow : s.clock ≤ now) (hstamp : now ≤ stamp) {replay : Bool}
    (h : s.election.vote p config { m with now, stamp } v = .ok (e', effects, replay)) :
    ∃ ms clock m', (∀ move ∈ ms, ∃ elapsed, move = .step i elapsed) ∧
      Machine.run (Voting.apply p config) s ms =
        .ok ⟨e', clock, s.calls.set i ⟨v, m', .finished replay⟩⟩ := by
  suffices hsuff : ∃ m', Call.Alone p config s.clock s.election ⟨v, m, .find⟩ e'
      ⟨v, m', .finished replay⟩ by
    obtain ⟨m', halone⟩ := hsuff
    obtain ⟨ms, clock, hms, hrun⟩ := halone.run hc
    exact ⟨ms, clock, m', hms, hrun⟩
  unfold vote at h
  obtain ⟨⟨⟩, hvalid, h⟩ := bind_eq_ok h
  have hcounts : s.election.counts p config { m with now, stamp } v =
      (eligible p config m v.account && (s.election.shouldProcess p { m with now, stamp }
        (config.onlineStake m.onlineStakeTotal) v).1) := rfl
  have hreplays : s.election.replays p config { m with now, stamp } v =
      (eligible p config m v.account && (s.election.shouldProcess p { m with now, stamp }
        (config.onlineStake m.onlineStakeTotal) v).2) := rfl
  rw [hcounts, hreplays] at h
  cases heligible : eligible p config m v.account with
  | false =>
    rw [heligible] at h
    obtain ⟨rfl, hrest⟩ := Prod.mk.inj (Except.ok.inj h)
    obtain ⟨-, rfl⟩ := Prod.mk.inj hrest
    refine ⟨m, .step s.clock le_rfl ?_ .refl⟩
    unfold Call.next
    simp only [hvalid, heligible, ok_bind]
    rfl
  | true =>
    rw [heligible, Bool.true_and, Bool.true_and] at h
    cases hlast : s.election.lastVotes.lookup v.account with
    | none =>
      have hprocess : s.election.shouldProcess p { m with now, stamp }
          (config.onlineStake m.onlineStakeTotal) v = (true, false) := by
        unfold shouldProcess
        rw [hlast]
      rw [hprocess] at h
      obtain ⟨⟨e₁, effects₁⟩, hconfirm, h⟩ := bind_eq_ok h
      obtain ⟨rfl, hrest⟩ := Prod.mk.inj (Except.ok.inj h)
      obtain ⟨-, rfl⟩ := Prod.mk.inj hrest
      have hrecord : Call.next p config s.clock s.election ⟨v, m, .find⟩ =
          .ok (s.election, ⟨v, m, .record none⟩) := by
        unfold Call.next
        simp only [hvalid, heligible, hlast, ok_bind, if_true]
        rfl
      exact ⟨{ m with stamp }, .step s.clock le_rfl hrecord
        (Call.Alone.record (hnow.trans hstamp) hconfirm)⟩
    | some last =>
      have hfirst : Call.next p config s.clock s.election ⟨v, m, .find⟩ =
          .ok (s.election, ⟨v, m, .read⟩) := by
        unfold Call.next
        simp only [hvalid, heligible, hlast, ok_bind, if_true]
        rfl
      have hshould : s.election.shouldProcess p { m with now, stamp }
          (config.onlineStake m.onlineStakeTotal) v = s.election.shouldProcess p { m with now }
          (config.onlineStake m.onlineStakeTotal) v := rfl
      rw [hshould] at h
      generalize hp : s.election.shouldProcess p { m with now }
        (config.onlineStake m.onlineStakeTotal) v = checked at h
      obtain ⟨process, replays⟩ := checked
      cases process with
      | false =>
        obtain ⟨rfl, hrest⟩ := Prod.mk.inj (Except.ok.inj h)
        obtain ⟨-, rfl⟩ := Prod.mk.inj hrest
        refine ⟨{ m with now }, .step s.clock le_rfl hfirst (.step now hnow ?_ .refl)⟩
        unfold Call.next
        simp only [hp]
        rfl
      | true =>
        obtain ⟨⟨e₁, effects₁⟩, hconfirm, h⟩ := bind_eq_ok h
        obtain ⟨rfl, hrest⟩ := Prod.mk.inj (Except.ok.inj h)
        obtain ⟨-, rfl⟩ := Prod.mk.inj hrest
        have hrecord : Call.next p config now s.election ⟨v, m, .read⟩ = .ok (s.election,
            ⟨v, { m with now }, .record (s.election.lastVotes.lookup v.account)⟩) := by
          unfold Call.next
          simp only [hp]
          rfl
        obtain rfl : replays = false := by
          have hreplay := replay_of_process (congrArg Prod.fst hp)
          rwa [hp] at hreplay
        exact ⟨{ m with now, stamp }, .step s.clock le_rfl hfirst (.step now hnow hrecord
          (Call.Alone.record (m := { m with now }) hstamp hconfirm))⟩

end Alone

end RaiBlocks
