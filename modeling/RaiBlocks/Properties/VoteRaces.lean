import RaiBlocks.Votes.Voting

/-!
# Votes under concurrency

A call of `election::vote` compares its vote with `last_votes`, later writes
`last_votes` and later still `rep_votes`, without a lock. Between these accesses
another call for a vote of the same account may do all of its own, and then the
later writes of the first call put an older vote in place of a newer one.

Nothing of this happens in runs in which a call that writes `last_votes` finds
there what its check has seen, and no other call for that account has yet to
bring its vote into `rep_votes`.
-/

namespace RaiBlocks

open Foundation Voting

namespace Voting

/-- No recorded vote has been replaced by a lesser one. -/
def Forward (s s' : Voting) : Prop :=
  ∀ a last, s.election.lastVotes.lookup a = some last →
    ∃ last', s'.election.lastVotes.lookup a = some last' ∧ last.le last'

/-- Every account votes for the block of its recorded vote. -/
def Consistent (p : Env) (s : Voting) : Prop :=
  ∀ a last, s.election.lastVotes.lookup a = some last →
    ∃ c ∈ s.calls, c.vote.account = a ∧ last.Records p c.vote ∧
      s.election.votes.find a = some c.vote.block

/-- A call that is about to write `last_votes` finds there what its check has
seen, and every vote of the account in `last_votes` has come into `rep_votes`. -/
def Undisturbed (s : Voting) : Move → Prop
  | .call _ _ => True
  | .step i _ =>
    ∀ c, s.calls[i]? = some c → ∀ seen, c.phase = .record seen →
      s.election.lastVotes.lookup c.vote.account = seen ∧
      ∀ d ∈ s.calls, d.entering = true → d.vote.account ≠ c.vote.account

instance decidableUndisturbed (s : Voting) : ∀ m, Decidable (s.Undisturbed m)
  | .call _ _ => .isTrue trivial
  | .step i _ =>
    match hc : s.calls[i]? with
    | none => .isTrue fun c hc' => by
      rw [hc] at hc'
      cases hc'
    | some c =>
      match hphase : c.phase with
      | .record seen =>
        decidable_of_iff (s.election.lastVotes.lookup c.vote.account = seen ∧
            ∀ d ∈ s.calls, d.entering = true → d.vote.account ≠ c.vote.account) <| by
          simp [Undisturbed, hc, hphase]
      | .find | .read | .enter | .insert | .compare | .assign | .confirm | .finished _ =>
        .isTrue (by simp [Undisturbed, hc, hphase])

theorem Forward.refl (s : Voting) : s.Forward s := fun _ last h => ⟨last, h, last.le_self⟩

theorem Forward.trans {s t u : Voting} (hst : s.Forward t) (htu : t.Forward u) : s.Forward u := by
  intro a last h
  obtain ⟨last', h', hle⟩ := hst a last h
  obtain ⟨last'', h'', hle'⟩ := htu a last' h'
  exact ⟨last'', h'', VoteInfo.le_trans hle hle'⟩

end Voting

/-! ## What a step does -/

/-- What one step of a call does to the containers. -/
inductive Call.Effect (p : Env) (e : Election) (c : Call) (e' : Election) (c' : Call) : Prop
  /-- It only looks. -/
  | looks (hlast : e'.lastVotes = e.lastVotes) (hvotes : e'.votes = e.votes)
      (hentering : c'.entering = c.entering)
      (hseen : ∀ last, c'.phase = .record (some last) → last.lt p c.vote = true)
      (hinsert : c'.phase = .insert → e.votes.find c.vote.account = none)
      (hassign : c'.phase = .assign → e.votes.find c.vote.account ≠ none)
  /-- It puts the vote into `last_votes`. -/
  | records (seen : Option VoteInfo) (last : VoteInfo) (hphase : c.phase = .record seen)
      (hlast : e'.lastVotes = e.lastVotes.insert c.vote.account last)
      (hrec : last.Records p c.vote) (hvotes : e'.votes = e.votes) (hphase' : c'.phase = .enter)
  /-- It is the last access of `votes::vote`. -/
  | enters (hlast : e'.lastVotes = e.lastVotes)
      (hvotes : ∀ a, e'.votes.find a =
        if a = c.vote.account then some c.vote.block else e.votes.find a)
      (hentering : c.entering = true) (hphase' : c'.phase = .confirm)

section Next

variable {p : Env} {config : NodeConfig} {now : ℤ} {e e' : Election} {c c' : Call}

/-- Every step is of one of the three kinds, if `rep_votes` is as the call has
found it. -/
theorem Call.next_effect (h : c.next p config now e = .ok (e', c'))
    (hinsert : c.phase = .insert → e.votes.find c.vote.account = none)
    (hassign : c.phase = .assign → e.votes.find c.vote.account ≠ none) :
    c'.vote = c.vote ∧ Effect p e c e' c' := by
  obtain ⟨v, m, phase⟩ := c
  cases phase with
  | find =>
    obtain ⟨⟨⟩, -, h⟩ := bind_eq_ok h
    split at h
    · dsimp only at h
      split at h
      · obtain ⟨rfl, rfl⟩ := Prod.mk.inj (Except.ok.inj h)
        exact ⟨rfl, .looks rfl rfl rfl (by simp) (by simp) (by simp)⟩
      · obtain ⟨rfl, rfl⟩ := Prod.mk.inj (Except.ok.inj h)
        exact ⟨rfl, .looks rfl rfl rfl (by simp) (by simp) (by simp)⟩
    · obtain ⟨rfl, rfl⟩ := Prod.mk.inj (Except.ok.inj h)
      exact ⟨rfl, .looks rfl rfl rfl (by simp) (by simp) (by simp)⟩
  | read =>
    unfold next at h
    dsimp only at h
    split at h
    · rename_i hprocess
      obtain ⟨rfl, rfl⟩ := Prod.mk.inj (Except.ok.inj h)
      refine ⟨rfl, .looks rfl rfl rfl (fun last hseen => ?_) (by simp) (by simp)⟩
      have hlast : e.lastVotes.lookup v.account = some last := Phase.record.inj hseen
      unfold Election.shouldProcess at hprocess
      simp only [hlast] at hprocess
      by_contra hlt
      rw [if_neg hlt] at hprocess
      cases hprocess
    · obtain ⟨rfl, rfl⟩ := Prod.mk.inj (Except.ok.inj h)
      exact ⟨rfl, .looks rfl rfl rfl (by simp) (by simp) (by simp)⟩
  | record seen =>
    obtain ⟨rfl, rfl⟩ := Prod.mk.inj (Except.ok.inj h)
    exact ⟨rfl, .records seen _ rfl rfl ⟨rfl, rfl⟩ rfl rfl⟩
  | enter =>
    unfold next at h
    dsimp only at h
    split at h
    · rename_i hfind
      obtain ⟨rfl, rfl⟩ := Prod.mk.inj (Except.ok.inj h)
      exact ⟨rfl, .looks rfl rfl rfl (by simp) (fun _ => hfind) (by simp)⟩
    · obtain ⟨rfl, rfl⟩ := Prod.mk.inj (Except.ok.inj h)
      exact ⟨rfl, .looks rfl rfl rfl (by simp) (by simp) (by simp)⟩
  | insert =>
    unfold next at h
    dsimp only at h
    rw [dif_pos (hinsert rfl)] at h
    obtain ⟨rfl, rfl⟩ := Prod.mk.inj (Except.ok.inj h)
    exact ⟨rfl, .enters rfl (e.votes.find_insert (hinsert rfl)) rfl rfl⟩
  | compare =>
    unfold next at h
    dsimp only at h
    split at h
    · cases h
    · rename_i b hfind
      split at h
      · obtain ⟨rfl, rfl⟩ := Prod.mk.inj (Except.ok.inj h)
        exact ⟨rfl, .looks rfl rfl rfl (by simp) (by simp) (fun _ => by simp [hfind])⟩
      · rename_i hb
        obtain ⟨rfl, rfl⟩ := Prod.mk.inj (Except.ok.inj h)
        refine ⟨rfl, .enters rfl (fun a => ?_) rfl rfl⟩
        split
        · rename_i ha
          rw [ha, hfind, not_not.mp hb]
        · rfl
  | assign =>
    obtain ⟨rfl, rfl⟩ := Prod.mk.inj (Except.ok.inj h)
    obtain ⟨b, hfind⟩ := Option.ne_none_iff_exists'.mp (hassign rfl)
    refine ⟨rfl, .enters rfl (fun a => ?_) rfl rfl⟩
    rw [Votes.find_replace, hfind]
    rfl
  | confirm =>
    obtain ⟨⟨e₁, effects⟩, hconfirm, h⟩ := bind_eq_ok h
    obtain ⟨rfl, rfl⟩ := Prod.mk.inj (Except.ok.inj h)
    obtain ⟨hlast, hvotes⟩ := Election.confirmIfQuorum_containers hconfirm
    exact ⟨rfl, .looks hlast hvotes rfl (by simp) (by simp) (by simp)⟩
  | finished replay =>
    obtain ⟨rfl, rfl⟩ := Prod.mk.inj (Except.ok.inj h)
    exact ⟨rfl, .looks rfl rfl rfl (by simp) (by simp) (by simp)⟩

end Next

/-! ## Undisturbed runs -/

/-- What a call may rely on until its next step. -/
structure Call.Ok (p : Env) (e : Election) (c : Call) : Prop where
  /-- A vote on its way into `rep_votes` is the one in `last_votes`. -/
  recorded : c.entering = true →
    ∃ last, e.lastVotes.lookup c.vote.account = some last ∧ last.Records p c.vote
  seen : ∀ last, c.phase = .record (some last) → last.lt p c.vote = true
  insert : c.phase = .insert → e.votes.find c.vote.account = none
  assign : c.phase = .assign → e.votes.find c.vote.account ≠ none

/-- The call is about to write, or on its way into `rep_votes`. -/
def Call.Writing (c : Call) : Prop := c.entering = true ∨ ∃ seen, c.phase = .record seen

section Step

variable {p : Env} {e e' : Election} {c c' d : Call}

theorem Call.Ok.new (p : Env) (e : Election) (v : Vote) (m : Moment) :
    Ok p e ⟨v, m, .find⟩ := by
  refine ⟨?_, ?_, ?_, ?_⟩ <;> simp [entering]

theorem Call.entering_of_insert (h : c.phase = .insert) : c.entering = true := by
  unfold entering
  rw [h]

theorem Call.entering_of_assign (h : c.phase = .assign) : c.entering = true := by
  unfold entering
  rw [h]

theorem Call.Ok.step (hc : c.Ok p e) (heff : Effect p e c e' c') (hvote : c'.vote = c.vote) :
    c'.Ok p e' := by
  cases heff with
  | looks hlast hvotes hentering hseen hinsert hassign =>
    refine ⟨fun hce => ?_, ?_, ?_, ?_⟩
    · rw [hlast, hvote]
      exact hc.recorded (hentering ▸ hce)
    all_goals rw [hvote]
    · exact hseen
    · rwa [hvotes]
    · rwa [hvotes]
  | records seen last hphase hlast hrec hvotes hphase' =>
    refine ⟨fun _ => ⟨last, ?_, hvote ▸ hrec⟩, ?_, ?_, ?_⟩
    · rw [hlast, hvote, Finmap.lookup_insert]
    all_goals simp [hphase']
  | enters hlast hvotes hentering hphase' =>
    refine ⟨?_, ?_, ?_, ?_⟩ <;> simp [entering, hphase']

theorem Call.Ok.other (hd : d.Ok p e) (heff : Effect p e c e' c')
    (hne : d.entering = true → c.Writing → d.vote.account ≠ c.vote.account) : d.Ok p e' := by
  cases heff with
  | looks hlast hvotes =>
    refine ⟨fun hde => ?_, hd.seen, ?_, ?_⟩
    · rw [hlast]
      exact hd.recorded hde
    · rw [hvotes]
      exact hd.insert
    · rw [hvotes]
      exact hd.assign
  | records seen last hphase hlast hrec hvotes hphase' =>
    refine ⟨fun hde => ?_, hd.seen, ?_, ?_⟩
    · rw [hlast, Finmap.lookup_insert_of_ne _ (hne hde (Or.inr ⟨seen, hphase⟩))]
      exact hd.recorded hde
    · rw [hvotes]
      exact hd.insert
    · rw [hvotes]
      exact hd.assign
  | enters hlast hvotes hentering hphase' =>
    refine ⟨fun hde => ?_, hd.seen, fun hphase => ?_, fun hphase => ?_⟩
    · rw [hlast]
      exact hd.recorded hde
    · rw [hvotes, if_neg (hne (entering_of_insert hphase) (Or.inl hentering))]
      exact hd.insert hphase
    · rw [hvotes, if_neg (hne (entering_of_assign hphase) (Or.inl hentering))]
      exact hd.assign hphase

end Step

namespace Voting

/-- What holds in every state of an undisturbed run. -/
structure Orderly (p : Env) (s : Voting) : Prop where
  /-- Of each account, at most one vote is on its way into `rep_votes`. -/
  sole : ∀ {i j : ℕ} {c d : Call}, s.calls[i]? = some c → s.calls[j]? = some d →
    c.entering = true → d.entering = true → c.vote.account = d.vote.account → i = j
  /-- Without one, the vote in `last_votes` is in `rep_votes`. -/
  settled : ∀ {a : Account} {last : VoteInfo}, s.election.lastVotes.lookup a = some last →
    (∃ c ∈ s.calls, c.entering = true ∧ c.vote.account = a) ∨
    ∃ c ∈ s.calls, c.vote.account = a ∧ last.Records p c.vote ∧
      s.election.votes.find a = some c.vote.block
  calls : ∀ c ∈ s.calls, c.Ok p s.election

section Orderly

variable {p : Env} {config : NodeConfig} {s s' : Voting} {c c' : Call} {e' : Election} {i : ℕ}
  {now : ℤ} {m : Move}

theorem orderly_start (p : Env) (notAnAccount : Account) (b : Block) :
    (start notAnAccount b).Orderly p := by
  refine ⟨?_, ?_, ?_⟩ <;> simp [start, Election.start]

theorem Orderly.call (hs : s.Orderly p) (v : Vote) (m : Moment) :
    Orderly p { s with calls := s.calls ++ [⟨v, m, .find⟩] } := by
  have hold : ∀ {j : ℕ} {d : Call}, (s.calls ++ [⟨v, m, .find⟩])[j]? = some d →
      d.entering = true → s.calls[j]? = some d := by
    intro j d hd hde
    rw [List.getElem?_append] at hd
    split_ifs at hd with hlt
    · exact hd
    · rw [List.getElem?_singleton] at hd
      split_ifs at hd
      obtain rfl := Option.some.inj hd
      cases hde
  refine ⟨fun hc hd hce hde => hs.sole (hold hc hce) (hold hd hde) hce hde, ?_, ?_⟩
  · intro a last hlast
    rcases hs.settled hlast with ⟨c, hc, hrest⟩ | ⟨c, hc, hrest⟩
    · exact Or.inl ⟨c, List.mem_append_left _ hc, hrest⟩
    · exact Or.inr ⟨c, List.mem_append_left _ hc, hrest⟩
  · intro c hc
    rcases List.mem_append.mp hc with hc | hc
    · exact hs.calls c hc
    · rw [List.mem_singleton.mp hc]
      exact .new p s.election v m

/-- A call after one of them has taken a step: that one, or one of the others. -/
theorem getElem?_set_cases {calls : List Call} {j : ℕ} {d : Call}
    (h : (calls.set i c')[j]? = some d) : (j = i ∧ d = c') ∨ (j ≠ i ∧ calls[j]? = some d) := by
  rw [List.getElem?_set] at h
  split_ifs at h with hij hlt
  · exact Or.inl ⟨hij.symm, (Option.some.inj h).symm⟩
  · exact Or.inr ⟨Ne.symm hij, h⟩

theorem mem_set_of_ne {calls : List Call} {d : Call} (hc : calls[i]? = some c) (hd : d ∈ calls)
    (hne : d ≠ c) : d ∈ calls.set i c' := by
  obtain ⟨j, hj⟩ := List.mem_iff_getElem?.mp hd
  have hji : i ≠ j := by
    rintro rfl
    exact hne (Option.some.inj (hj.symm.trans hc))
  exact List.mem_iff_getElem?.mpr ⟨j, by rw [List.getElem?_set_ne hji, hj]⟩

/-- The call is on its way in after the step only if it was before, or records. -/
theorem writing_of_entering (heff : Call.Effect p s.election c e' c')
    (h : c'.entering = true) : c.Writing := by
  cases heff with
  | looks _ _ hentering => exact Or.inl (hentering ▸ h)
  | records seen _ hphase => exact Or.inr ⟨seen, hphase⟩
  | enters _ _ hentering => exact Or.inl hentering

/-- In an undisturbed run the calls for an account write one after the other. -/
theorem Orderly.apart (hs : s.Orderly p) {elapsed : ℕ} (hg : s.Undisturbed (.step i elapsed))
    (hc : s.calls[i]? = some c) (hw : c.Writing) {j : ℕ} {d : Call} (hd : s.calls[j]? = some d)
    (hji : j ≠ i) (hde : d.entering = true) : d.vote.account ≠ c.vote.account := by
  rcases hw with hce | ⟨seen, hphase⟩
  · exact fun hacc => hji (hs.sole hd hc hde hce hacc)
  · exact (hg c hc seen hphase).2 d (List.mem_iff_getElem?.mpr ⟨j, hd⟩) hde

theorem Orderly.settled_step (hs : s.Orderly p) (hc : s.calls[i]? = some c)
    (heff : Call.Effect p s.election c e' c') (hvote : c'.vote = c.vote) {a : Account}
    {last : VoteInfo} (hlast : e'.lastVotes.lookup a = some last) :
    (∃ d ∈ s.calls.set i c', d.entering = true ∧ d.vote.account = a) ∨
    ∃ d ∈ s.calls.set i c', d.vote.account = a ∧ last.Records p d.vote ∧
      e'.votes.find a = some d.vote.block := by
  have hself : c' ∈ s.calls.set i c' :=
    List.mem_set (List.getElem?_eq_some_iff.mp hc).1 c'
  -- Membership of a call up to its phase.
  have hmem : ∀ {d}, d ∈ s.calls → ∃ d' ∈ s.calls.set i c', d'.vote = d.vote := by
    intro d hd
    by_cases hdc : d = c
    · exact ⟨c', hself, by rw [hvote, hdc]⟩
    · exact ⟨d, mem_set_of_ne hc hd hdc, rfl⟩
  cases heff with
  | looks hlast' hvotes hentering =>
    rw [hlast'] at hlast
    rw [hvotes]
    rcases hs.settled hlast with ⟨d, hd, hde, hacc⟩ | ⟨d, hd, hacc, hrest⟩
    · by_cases hdc : d = c
      · subst hdc
        exact Or.inl ⟨c', hself, hentering.trans hde, by rw [hvote, hacc]⟩
      · exact Or.inl ⟨d, mem_set_of_ne hc hd hdc, hde, hacc⟩
    · obtain ⟨d', hd', heq⟩ := hmem hd
      exact Or.inr ⟨d', hd', by rw [heq, hacc], by rwa [heq]⟩
  | records seen last' hphase hlast' hrec hvotes hphase' =>
    by_cases ha : a = c.vote.account
    · exact Or.inl ⟨c', hself, by simp [Call.entering, hphase'], by rw [hvote, ha]⟩
    · rw [hlast', Finmap.lookup_insert_of_ne _ ha] at hlast
      rw [hvotes]
      rcases hs.settled hlast with ⟨d, hd, hde, hacc⟩ | ⟨d, hd, hacc, hrest⟩
      · have hdc : d ≠ c := fun h => ha (by rw [← hacc, h])
        exact Or.inl ⟨d, mem_set_of_ne hc hd hdc, hde, hacc⟩
      · obtain ⟨d', hd', heq⟩ := hmem hd
        exact Or.inr ⟨d', hd', by rw [heq, hacc], by rwa [heq]⟩
  | enters hlast' hvotes hentering hphase' =>
    rw [hlast'] at hlast
    by_cases ha : a = c.vote.account
    · obtain ⟨last', hlookup, hrec⟩ :=
        (hs.calls c (List.mem_of_getElem? hc)).recorded hentering
      obtain rfl := Option.some.inj (hlookup.symm.trans (ha ▸ hlast))
      exact Or.inr ⟨c', hself, by rw [hvote, ha], by rwa [hvote], by rw [hvotes, if_pos ha, hvote]⟩
    · rw [hvotes, if_neg ha]
      rcases hs.settled hlast with ⟨d, hd, hde, hacc⟩ | ⟨d, hd, hacc, hrest⟩
      · have hdc : d ≠ c := fun h => ha (by rw [← hacc, h])
        exact Or.inl ⟨d, mem_set_of_ne hc hd hdc, hde, hacc⟩
      · obtain ⟨d', hd', heq⟩ := hmem hd
        exact Or.inr ⟨d', hd', by rw [heq, hacc], by rwa [heq]⟩

theorem Orderly.apply (hs : s.Orderly p) (hg : s.Undisturbed m)
    (h : s.apply p config m = .ok s') : s'.Orderly p ∧ s.Forward s' := by
  cases m with
  | call v m =>
    obtain rfl := Except.ok.inj h
    exact ⟨hs.call v m, fun _ last hlast => ⟨last, hlast, last.le_self⟩⟩
  | step i elapsed =>
    unfold apply at h
    dsimp only at h
    split at h
    · obtain rfl := Except.ok.inj h
      exact ⟨hs, .refl s⟩
    · rename_i c hc
      obtain ⟨⟨e', c'⟩, hnext, h⟩ := bind_eq_ok h
      obtain rfl := Except.ok.inj h
      have hok := hs.calls c (List.mem_of_getElem? hc)
      obtain ⟨hvote, heff⟩ := Call.next_effect hnext hok.insert hok.assign
      refine ⟨⟨?_, hs.settled_step hc heff hvote, ?_⟩, ?_⟩
      · intro j k x y hx hy hxe hye hacc
        rcases getElem?_set_cases hx with ⟨hji, rfl⟩ | ⟨hji, hx⟩
        · rcases getElem?_set_cases hy with ⟨hki, -⟩ | ⟨hki, hy⟩
          · rw [hji, hki]
          · rw [hvote] at hacc
            exact absurd hacc.symm
              (hs.apart hg hc (writing_of_entering heff hxe) hy hki hye)
        · rcases getElem?_set_cases hy with ⟨-, hy⟩ | ⟨-, hy⟩
          · rw [hy, hvote] at hacc
            exact absurd hacc (hs.apart hg hc (writing_of_entering heff (by rwa [hy] at hye)) hx
              hji hxe)
          · exact hs.sole hx hy hxe hye hacc
      · intro d hd
        obtain ⟨j, hj⟩ := List.mem_iff_getElem?.mp hd
        rcases getElem?_set_cases hj with ⟨-, rfl⟩ | ⟨hji, hj⟩
        · exact hok.step heff hvote
        · exact (hs.calls d (List.mem_of_getElem? hj)).other heff
            fun hde hw => hs.apart hg hc hw hj hji hde
      · intro a last hlast
        dsimp only
        cases heff with
        | looks hlast' => exact ⟨last, by rwa [hlast'], last.le_self⟩
        | records seen last' hphase hlast' hrec =>
          rw [hlast', Table.lookup_insert_ite]
          split_ifs with ha
          · -- The check has seen what is replaced.
            have hseen := (hg c hc seen hphase).1
            rw [← ha, hlast] at hseen
            subst hseen
            exact ⟨last', rfl, VoteInfo.le_of_lt (hok.seen last hphase) hrec⟩
          · exact ⟨last, hlast, last.le_self⟩
        | enters hlast' => exact ⟨last, by rwa [hlast'], last.le_self⟩

/-- Nothing on its way: every account votes for its recorded vote. -/
theorem Orderly.consistent (hs : s.Orderly p) (hq : s.Quiescent) : s.Consistent p := by
  intro a last hlast
  rcases hs.settled hlast with ⟨c, hc, hce, -⟩ | hsettled
  · obtain ⟨replay, hphase⟩ := hq c hc
    simp [Call.entering, hphase] at hce
  · exact hsettled

/-- **Votes move forward in undisturbed runs.** From the start of an election, let
any calls be made and their steps be interleaved in any way, such that a call that
writes `last_votes` finds there what its check has seen and no other vote of the
account is between `last_votes` and `rep_votes`. Then no recorded vote is ever
replaced by a lesser one, and whenever no call is under way every account votes for
the block of its recorded vote. -/
theorem votes_move_forward (p : Env) (config : NodeConfig) (notAnAccount : Account) (b : Block)
    {ms ms' : List Move} {s s' : Voting}
    (hg : Machine.Guarded (apply p config) Undisturbed (start notAnAccount b) (ms ++ ms'))
    (h : Machine.run (apply p config) (start notAnAccount b) ms = .ok s)
    (h' : Machine.run (apply p config) s ms' = .ok s') :
    s.Forward s' ∧ (s'.Quiescent → s'.Consistent p) := by
  obtain ⟨hg₁, hg₂⟩ := (Machine.guarded_append_iff h).mp hg
  have hstep : ∀ (s : Voting) m s', s.Orderly p → s.Undisturbed m →
      s.apply p config m = .ok s' → s'.Orderly p := fun s m s' hs hm h => (hs.apply hm h).1
  have hs := Machine.run_invariant hstep (orderly_start p notAnAccount b) hg₁ h
  have hs' := Machine.run_invariant hstep hs hg₂ h'
  refine ⟨?_, hs'.consistent⟩
  exact Machine.run_relation Forward.refl Forward.trans hstep
    (fun s m s' hs hm h => (hs.apply hm h).2) hs hg₂ h'

end Orderly

end Voting

/-! ## Two votes of one account -/

namespace Racing

/-- A hash that tells the two blocks apart by their representatives. -/
def env : Env :=
  ⟨fun bytes => BitVec.ofNat 256 (bytes.foldl (fun n byte => n * 256 + byte.toNat) 0),
    fun _ _ _ => false, .raiTestNetwork, false⟩

theorem quorum_le : 50 ≤ 100 := by decide

def config : NodeConfig := ⟨1000, 50, quorum_le⟩

def block (representative : Account) : Block := .changeBlock ⟨⟨5, representative⟩, 0, 0⟩

theorem no_weight (s : Finset Account) : ∑ _a ∈ s, (0 : Uint128).toNat < 2 ^ 128 := by
  simp

/-- Account 1 has no weight: on the test network its votes count all the same. -/
def moment : Moment := ⟨⟨fun _ => 0, no_weight⟩, 0, 0, 0, .plain⟩

/-- Account 1 votes for one block, and then with a higher sequence number for another. -/
def calls : List Move :=
  [.call ⟨1, block 7, 1, 0⟩ moment, .call ⟨2, block 8, 1, 0⟩ moment]

def run (ms : List Move) : Except Fault Voting :=
  Machine.run (apply env config) (.start 0 (block 7)) (calls ++ ms)

/-- Both calls find nothing in `last_votes`, and the second call writes first. -/
def bothCheck : List Move := [.step 0 0, .step 1 0, .step 1 0]

/-- The second call does all of its steps between two of the first. -/
def overtakes : List Move :=
  [.step 0 0, .step 0 0, .step 1 0, .step 1 15000000000, .step 1 0, .step 1 0, .step 1 0,
    .step 1 0, .step 0 0, .step 0 0, .step 0 0, .step 0 0]

/-- One call after the other. -/
def inTurn : List Move :=
  [.step 0 0, .step 0 0, .step 0 0, .step 0 0, .step 0 0, .step 1 0, .step 1 15000000000,
    .step 1 0, .step 1 0, .step 1 0, .step 1 0, .step 1 0]

/-- Whether all calls have returned, what is recorded for account 1, and its block. -/
def observe (s : Voting) : Bool × Option (Uint64 × BlockHash) × Option Block :=
  (s.calls.all fun c => c.phase = .finished false,
    (s.election.lastVotes.lookup 1).map fun last => (last.sequence, last.hash),
    s.election.votes.find 1)

theorem runs_spec :
    [run bothCheck, run (bothCheck ++ [.step 0 0]), run overtakes, run inTurn].map
        (Except.map observe) =
      [.ok (false, some (2, 8), none), .ok (false, some (1, 7), none),
        .ok (true, some (2, 8), some (block 7)), .ok (true, some (2, 8), some (block 8))] ∧
    Machine.Guarded (apply env config) Undisturbed (.start 0 (block 7))
      (calls ++ inTurn) ∧ (block 7).hash env = 7 :=
  ⟨by decide +kernel, by decide +kernel, by decide +kernel⟩

theorem run_append (ms ms' : List Move) :
    run (ms ++ ms') = run ms >>= fun s => Machine.run (apply env config) s ms' := by
  unfold run
  rw [← List.append_assoc, Machine.run_append]

theorem exists_of_map {x : Except Fault Voting}
    {r : Bool × Option (Uint64 × BlockHash) × Option Block} (h : x.map observe = .ok r) :
    ∃ s, x = .ok s ∧ observe s = r := by
  cases x with
  | error e => cases h
  | ok s => exact ⟨s, rfl, Except.ok.inj h⟩

theorem runs_exist : (∃ s, run bothCheck = .ok s ∧ observe s = (false, some (2, 8), none)) ∧
    (∃ s, run (bothCheck ++ [.step 0 0]) = .ok s ∧ observe s = (false, some (1, 7), none)) ∧
    (∃ s, run overtakes = .ok s ∧ observe s = (true, some (2, 8), some (block 7))) ∧
    (∃ s, run inTurn = .ok s ∧ observe s = (true, some (2, 8), some (block 8))) := by
  have hspec := runs_spec.1
  simp only [List.map_cons, List.map_nil, List.cons.injEq, and_true] at hspec
  exact ⟨exists_of_map hspec.1, exists_of_map hspec.2.1, exists_of_map hspec.2.2.1,
    exists_of_map hspec.2.2.2⟩

theorem recorded_of_observe {s : Voting} {done : Bool} {sequence : Uint64} {hash : BlockHash}
    {b : Option Block} (h : observe s = (done, some (sequence, hash), b)) :
    ∃ last, s.election.lastVotes.lookup 1 = some last ∧ last.sequence = sequence ∧
      last.hash = hash := by
  obtain ⟨-, hrest⟩ := Prod.mk.inj h
  obtain ⟨last, hlast, heq⟩ := Option.map_eq_some_iff.mp (Prod.mk.inj hrest).1
  exact ⟨last, hlast, Prod.mk.inj heq⟩

theorem quiescent_of_observe {s : Voting} {r : Option (Uint64 × BlockHash) × Option Block}
    (h : observe s = (true, r)) : s.Quiescent := by
  intro c hc
  have hall : (s.calls.all fun c => c.phase = .finished false) = true := (Prod.mk.inj h).1
  exact ⟨false, of_decide_eq_true (List.all_eq_true.mp hall c hc)⟩

end Racing

/-- Both calls pass the check and the older vote is written last; and a vote that
has been overtaken goes into `rep_votes` in place of the recorded one. -/
theorem older_vote_replaces_newer :
    (∃ s s', Racing.run Racing.bothCheck = .ok s ∧
      Machine.run (apply Racing.env Racing.config) s [.step 0 0] = .ok s' ∧ ¬ s.Forward s') ∧
    ∃ s, Racing.run Racing.overtakes = .ok s ∧ s.Quiescent ∧ ¬ s.Consistent Racing.env := by
  obtain ⟨⟨s, hs, hobs⟩, ⟨s', hs', hobs'⟩, ⟨t, ht, hobst⟩, -⟩ := Racing.runs_exist
  refine ⟨⟨s, s', hs, ?_, fun hforward => ?_⟩, t, ht, Racing.quiescent_of_observe hobst,
    fun hconsistent => ?_⟩
  · rw [Racing.run_append, hs] at hs'
    exact hs'
  · obtain ⟨last, hlast, hseq, -⟩ := Racing.recorded_of_observe hobs
    obtain ⟨last₁, hlast₁, hseq₁, -⟩ := Racing.recorded_of_observe hobs'
    obtain ⟨last', hlast', hle⟩ := hforward 1 last hlast
    obtain rfl := Option.some.inj (hlast₁.symm.trans hlast')
    rw [VoteInfo.le, hseq, hseq₁] at hle
    revert hle
    simp
  · obtain ⟨last, hlast, -, hhash⟩ := Racing.recorded_of_observe hobst
    obtain ⟨c, -, -, hrec, hfind⟩ := hconsistent 1 last hlast
    have hblock : t.election.votes.find 1 = some (Racing.block 7) :=
      (Prod.mk.inj (Prod.mk.inj hobst).2).2
    have hb : c.vote.block = Racing.block 7 := Option.some.inj (hfind.symm.trans hblock)
    have h78 : (8 : BlockHash) = 7 := by
      rw [← Racing.runs_spec.2.2, ← hb, ← hrec.2, hhash]
    exact absurd h78 (by decide)

/-- The two votes one after the other. -/
theorem votes_move_forward_in_turn :
    ∃ s, Racing.run Racing.inTurn = .ok s ∧ s.Quiescent ∧ s.Consistent Racing.env := by
  obtain ⟨-, -, -, s, hs, hobs⟩ := Racing.runs_exist
  have hquiescent := Racing.quiescent_of_observe hobs
  have hguarded := Racing.runs_spec.2.1
  rw [← List.append_nil (Racing.calls ++ Racing.inTurn)] at hguarded
  exact ⟨s, hs, hquiescent,
    (votes_move_forward Racing.env Racing.config 0 (Racing.block 7) hguarded hs rfl).2
      hquiescent⟩

end RaiBlocks
