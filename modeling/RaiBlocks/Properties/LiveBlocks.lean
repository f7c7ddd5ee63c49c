import RaiBlocks.Node.Arrivals

/-!
# Live blocks

`process_active` drops a block whose hash it has seen lately, before anything has
looked at the signature. So of several blocks with one hash only the first is
ever handled, until the record of arrivals has been pruned.
-/

namespace RaiBlocks

open Foundation Signed

variable {p : NodeEnv} {U : Set Block} {Λ : Lattice p.toEnv} {n : Node} {b x : Block}
  {σ σ' : NodeState} {s : BlockStore}

/-! ## A stored block stays -/

/-- A valid ledger with `b` in it. -/
def Stored (p : NodeEnv) (U : Set Block) (b : Block) (s : BlockStore) : Prop :=
  ∃ Λ : Lattice p.toEnv, Valid U s Λ ∧ ∃ e, Λ.entry (b.hash p.toEnv) = some e ∧ e.block = b

/-- `b` is in the ledger, and nothing is about to be forced. -/
structure Settled (p : NodeEnv) (U : Set Block) (b : Block) (σ : NodeState) : Prop where
  stored : Stored p U b σ.node.store
  unforced : σ.node.forced = []
  plain : ∀ x force, σ.stage = .taken x force → force = false
  mem : ∀ x, Worklist.Holds σ.worklist x → x ∈ U

theorem Settled.blockGet (hs : Settled p U b σ) :
    σ.node.store.blockGet (b.hash p.toEnv) = some b := by
  obtain ⟨Λ, hv, e, he, hblock⟩ := hs.stored
  rw [hv.refines.blocks.blockGet_some he, hblock]

theorem Valid.process_within (hass : HashAssumptions p.toEnv U) {s' : BlockStore}
    (hv : Valid U s Λ) (hx : x ∈ U) {now : ℕ} {ret : ProcessReturn}
    (hrun : Ledger.process p.toEnv now s x = .ok (s', ret)) :
    ∃ Λ' : Lattice p.toEnv, Valid U s' Λ' ∧ Λ.Within Λ' := by
  obtain ⟨r, hrun', hout⟩ := hv.process hass hx now
  obtain rfl := Except.ok.inj (hrun'.symm.trans hrun)
  cases hout with
  | refused _ _ _ => exact ⟨Λ, hv, Lattice.Within.refl Λ⟩
  | accepted ad hblock _ _ _ hi =>
    exact ⟨Λ.insert ad, hv.accepted hass ad (hblock ▸ hx) hi, Lattice.within_insert ad⟩

/-- What a handled block leaves behind was there before, or is the block itself. -/
theorem Node.Framed.holds {n' : Node} (hframe : n.Framed n' b) (force : Bool)
    (hx : x ∈ n'.blocks ∨ ∃ k, (k, x) ∈ n'.waiting) :
    Worklist.Holds (NodeState.worklist ⟨n, .taken b force⟩) x := by
  rcases hx with hq | ⟨k, hw⟩
  · rw [hframe.blocks] at hq
    exact .queued hq
  · rcases hframe.waiting _ hw with hw | rfl
    · exact .waiting hw
    · exact .held rfl

/-- Blocks come from the queue, the hand or the unchecked table. -/
theorem NodeStep.holds (hstep : NodeStep p σ σ') (hforced : σ.node.forced = [])
    (hplain : ∀ x force, σ.stage = .taken x force → force = false)
    (hx : Worklist.Holds σ'.worklist x) : Worklist.Holds σ.worklist x := by
  cases hstep with
  | @take n n' b force hf =>
    obtain ⟨_, hblocks, hn'⟩ := Node.front_of_unforced hforced hf
    have hfront : x ∈ b :: n'.blocks → x ∈ n.blocks := by
      rw [hblocks]
      exact id
    rcases hx with hq | hheld | ⟨hr, _⟩ | hw
    · exact .queued (hfront (List.mem_cons_of_mem _ hq))
    · cases hheld
      exact .queued (hfront List.mem_cons_self)
    · cases hr
    · rw [hn'] at hw
      exact .waiting hw
  | @settle n n' b force code c hrun _ =>
    obtain rfl := hplain b force rfl
    obtain ⟨_, hframe⟩ := Node.of_judge hrun
    rcases hx with hq | hheld | ⟨hr, _⟩ | hw
    · exact hframe.holds false (Or.inl hq)
    · cases hheld
    · cases hr
    · exact hframe.holds false (Or.inr ⟨_, hw⟩)
  | @unlock n n' b force code l c hrun _ hl =>
    obtain rfl := hplain b force rfl
    obtain ⟨_, hframe⟩ := Node.of_judge hrun
    rcases hx with hq | hheld | ⟨hr, hmem⟩ | hw
    · exact hframe.holds false (Or.inl hq)
    · cases hheld
    · cases hr
      exact hframe.holds false (Or.inr ⟨_, Node.mem_uncheckedGet.mp (hl.mem_iff.mp hmem)⟩)
    · exact hframe.holds false (Or.inr ⟨_, hw⟩)
  | @release n n' h b rest hrel =>
    obtain ⟨_, rfl⟩ := Node.of_add hrel
    rcases hx with hq | hheld | ⟨hr, hmem⟩ | hw
    · rcases List.mem_cons.mp hq with rfl | hq
      · exact .releasing rfl List.mem_cons_self
      · exact .queued hq
    · cases hheld
    · cases hr
      exact .releasing rfl (List.mem_cons_of_mem _ hmem)
    · exact .waiting (Node.mem_waiting_uncheckedDel.mp hw).1
  | @finish n h =>
    rcases hx with hq | hheld | ⟨hr, _⟩ | hw
    · exact .queued hq
    · cases hheld
    · cases hr
    · exact .waiting hw

section Settled

variable (hass : HashAssumptions p.toEnv U)

include hass

theorem Settled.step (hs : Settled p U b σ) (hstep : NodeStep p σ σ') : Settled p U b σ' := by
  have hmem : ∀ x, Worklist.Holds σ'.worklist x → x ∈ U :=
    fun x hx => hs.mem x (hstep.holds hs.unforced hs.plain hx)
  -- a handled block leaves the stored one where it is
  have hkeep : ∀ {n n' : Node} {x : Block} {force : Bool} {code : ProcessResult} {c : Clock},
      Settled p U b ⟨n, .taken x force⟩ → n.handle p c x force = .ok (n', code) →
      Stored p U b n'.store ∧ n'.forced = [] := by
    intro n n' x force code c hs hrun
    obtain rfl := hs.plain x force rfl
    obtain ⟨⟨ret, hprocess, _⟩, hframe⟩ := Node.of_judge hrun
    obtain ⟨Λ, hv, e, he, hblock⟩ := hs.stored
    obtain ⟨Λ', hv', hsub⟩ := hv.process_within hass (hs.mem x (.held rfl)) hprocess
    exact ⟨⟨Λ', hv', e, hsub he, hblock⟩, hframe.forced.trans hs.unforced⟩
  cases hstep with
  | @take n n' x force hf =>
    obtain ⟨hforce, _, hn'⟩ := Node.front_of_unforced hs.unforced hf
    refine ⟨?_, ?_, fun y f hy => ?_, hmem⟩
    · rw [hn']
      exact hs.stored
    · rw [hn']
      exact hs.unforced
    · cases hy
      exact hforce
  | settle c hrun _ =>
    obtain ⟨hstored, hforced⟩ := hkeep hs hrun
    exact ⟨hstored, hforced, (fun y f hy => by cases hy), hmem⟩
  | unlock c hrun _ _ =>
    obtain ⟨hstored, hforced⟩ := hkeep hs hrun
    exact ⟨hstored, hforced, (fun y f hy => by cases hy), hmem⟩
  | release hrel =>
    obtain ⟨_, rfl⟩ := Node.of_add hrel
    exact ⟨hs.stored, hs.unforced, (fun y f hy => by cases hy), hmem⟩
  | finish => exact ⟨hs.stored, hs.unforced, (fun y f hy => by cases hy), hmem⟩

end Settled

/-! ## The way of a live block -/

/-- The ledger is `s`, nothing is forced, and only blocks of `U` wait. -/
structure Node.Quiet (U : Set Block) (s : BlockStore) (n : Node) : Prop where
  store : n.store = s
  forced : n.forced = []
  waiting : ∀ x ∈ n.waiting, x.2 ∈ U

theorem Node.Quiet.flush (hn : n.Quiet U s) : n.flush.Quiet U s :=
  ⟨hn.store, hn.forced, fun x hx => hn.waiting x hx⟩

theorem Node.Quiet.taken (hn : n.Quiet U s) (hblocks : n.blocks = [b])
    (hstep : NodeStep p ⟨n, .idle⟩ σ') :
    ∃ n' : Node, σ' = ⟨n', .taken b false⟩ ∧ n'.Quiet U s ∧ n'.blocks = [] ∧
      n'.arrival = n.arrival := by
  cases hstep with
  | @take _ n' x force hf =>
    obtain ⟨rfl, hfront, hn'⟩ := Node.front_of_unforced hn.forced hf
    obtain ⟨rfl, hempty⟩ := List.cons.inj (hblocks.symm.trans hfront)
    rw [hn', ← hempty]
    exact ⟨_, rfl, ⟨hn.store, hn.forced, hn.waiting⟩, rfl, rfl⟩

/-- How far `b` is on its way into the ledger. -/
inductive Live (p : NodeEnv) (U : Set Block) (s : BlockStore) (b : Block) : NodeState → Prop
  | queued {n : Node} : n.Quiet U s → n.blocks = [b] → n.arrival.find (b.hash p.toEnv) = true →
      Live p U s b ⟨n, .idle⟩
  | held {n : Node} : n.Quiet U s → n.blocks = [] → n.arrival.find (b.hash p.toEnv) = true →
      Live p U s b ⟨n, .taken b false⟩
  | stored {σ : NodeState} : Settled p U b σ → Live p U s b σ

section Live

variable (hass : HashAssumptions p.toEnv U) (hv : Valid U s Λ) (hb : b ∈ U) {e : Entry}
  (ad : Λ.Admissible (b.hash p.toEnv) e) (hblock : e.block = b)

include hass hv hb ad hblock

/-- A block that can be added is accepted, whatever the clock shows. -/
theorem Valid.judge_admissible (hn : n.store = s) (c : Clock) :
    ∃ n', n.judge p c b = .ok (n', .progress) ∧ Stored p U b n'.store := by
  subst hn
  obtain ⟨r, hrun, hout⟩ := hv.process hass hb c.secondsSinceEpoch
  cases hout with
  | refused _ hno _ => exact absurd ad (hno e hblock)
  | @accepted s' ret e' ad' hblock' hcode _ _ hi =>
    exact ⟨_, Node.judge_progress hrun hcode, Λ.insert ad',
      hv.accepted hass ad' (hblock' ▸ hb) hi, e', Lattice.insert_entry_self ad', hblock'⟩

theorem Node.Quiet.settled (hn : n.Quiet U s) (hblocks : n.blocks = [])
    (hstep : NodeStep p ⟨n, .taken b false⟩ σ') : Settled p U b σ' := by
  have hmem : ∀ x, Worklist.Holds σ'.worklist x → x ∈ U := by
    intro x hx
    have hback := hstep.holds hn.forced (fun y f hy => by cases hy; rfl) hx
    rcases hback with hq | hheld | ⟨hr, _⟩ | hw
    · have hq : x ∈ n.blocks := hq
      rw [hblocks] at hq
      cases hq
    · cases hheld
      exact hb
    · cases hr
    · exact hn.waiting _ hw
  -- the block is accepted, so only one of the two steps can follow
  have haccepted : ∀ {n' : Node} {code : ProcessResult} {c : Clock},
      n.handle p c b false = .ok (n', code) →
      code = .progress ∧ Stored p U b n'.store ∧ n'.forced = [] := by
    intro n' code c hrun
    obtain ⟨n₁, hjudge, hstored⟩ := hv.judge_admissible hass hb ad hblock hn.store c
    obtain ⟨rfl, rfl⟩ := Prod.mk.inj (Except.ok.inj (hjudge.symm.trans hrun))
    exact ⟨rfl, hstored, (Node.of_judge hrun).2.forced.trans hn.forced⟩
  cases hstep with
  | settle c hrun hcode =>
    obtain ⟨rfl, _⟩ := haccepted hrun
    cases hcode
  | unlock c hrun _ _ =>
    obtain ⟨_, hstored, hforced⟩ := haccepted hrun
    exact ⟨hstored, hforced, (fun y f hy => by cases hy), hmem⟩

theorem Live.step (hl : Live p U s b σ) (hstep : NodeStep p σ σ') : Live p U s b σ' := by
  cases hl with
  | queued hn hblocks harrival =>
    obtain ⟨n', rfl, hn', hblocks', hsame⟩ := hn.taken hblocks hstep
    refine .held hn' hblocks' ?_
    rw [hsame]
    exact harrival
  | held hn hblocks _ => exact .stored (hn.settled hass hv hb ad hblock hblocks hstep)
  | stored hs => exact .stored (hs.step hass hstep)

/-- **The block gets into the ledger.** -/
theorem Live.leads (hl : Live p U s b σ) :
    Leads p (fun τ => τ.node.store.blockGet (b.hash p.toEnv) = some b) σ := by
  have hheld : ∀ {n : Node}, n.Quiet U s → n.blocks = [] →
      Leads p (fun τ => τ.node.store.blockGet (b.hash p.toEnv) = some b)
        ⟨n, .taken b false⟩ := by
    intro n hn hblocks
    refine .later (fun hrest => by cases hrest.2.2) (fun hfails => ?_) fun σ' hstep => ?_
    · cases hfails with
      | handle c hrun =>
        obtain ⟨n₁, hjudge, _⟩ := hv.judge_admissible hass hb ad hblock hn.store c
        cases hjudge.symm.trans hrun
    · exact .now (hn.settled hass hv hb ad hblock hblocks hstep).blockGet
  cases hl with
  | queued hn hblocks _ =>
    refine .later (fun hrest => ?_) (fun hfails => by cases hfails) fun σ' hstep => ?_
    · cases hblocks.symm.trans hrest.1
    · obtain ⟨n', rfl, hn', hblocks', _⟩ := hn.taken hblocks hstep
      exact hheld hn' hblocks'
  | held hn hblocks _ => exact hheld hn hblocks
  | stored hs => exact .now hs.blockGet

omit hass hv hb ad hblock in
/-- Another call with the hash of `b` changes nothing about that. -/
theorem Live.processActive {n n' : Node} {stage : Stage} {x : Block} {now : ℤ}
    (hl : Live p U s b ⟨n, stage⟩) (hx : x ∈ U) (hhash : x.hash p.toEnv = b.hash p.toEnv)
    (hrun : n.processActive p now x = .ok n') : Live p U s b ⟨n', stage⟩ := by
  rcases Node.of_processActive hrun with ⟨_, rfl⟩ | ⟨hnew, _, arrival, _, rfl⟩
  · exact hl
  · rw [hhash] at hnew
    cases hl with
    | queued _ _ harrival => cases hnew.symm.trans harrival
    | held _ _ harrival => cases hnew.symm.trans harrival
    | stored hs =>
      refine .stored ⟨hs.stored, hs.unforced, hs.plain, fun y hy => ?_⟩
      rcases hy with hq | hheld | ⟨hr, hmem⟩ | hw
      · rcases List.mem_cons.mp hq with rfl | hq
        · exact hx
        · exact hs.mem y (.queued hq)
      · exact hs.mem y (.held hheld)
      · exact hs.mem y (.releasing hr hmem)
      · exact hs.mem y (.waiting hw)

omit hass hv hb ad hblock in
theorem Live.flush (hl : Live p U s b ⟨n, .idle⟩) : Live p U s b ⟨n.flush, .idle⟩ := by
  cases hl with
  | queued hn hblocks harrival => exact .queued hn.flush hblocks harrival
  | stored hs =>
    refine .stored ⟨hs.stored, hs.unforced, hs.plain, fun y hy => ?_⟩
    rw [worklist_flush] at hy
    exact hs.mem y hy

/-- **The first call decides**: when it brings `b` itself, `b` has been on its way
ever since. -/
theorem NodeRun.live (hn : n.Quiet U s) (hblocks : n.blocks = [])
    (hnew : n.arrival.find (b.hash p.toEnv) = false) {inputs : List Input}
    (hrun : NodeRun p ⟨n, .idle⟩ inputs σ) : ∀ calls : List (ℤ × Block),
    inputs = calls.map (fun x => .active x.1 x.2) →
    (∀ x ∈ calls, x.2 ∈ U ∧ x.2.hash p.toEnv = b.hash p.toEnv) →
    (calls = [] → ∃ n' : Node, σ = ⟨n', .idle⟩ ∧ n'.Quiet U s ∧ n'.blocks = [] ∧
      n'.arrival.find (b.hash p.toEnv) = false) ∧
    (calls.head?.map Prod.snd = some b → b.Worked p ∧ Live p U s b σ) := by
  induction hrun with
  | start =>
    intro calls hin _
    obtain rfl := List.map_eq_nil_iff.mp hin.symm
    exact ⟨fun _ => ⟨n, rfl, hn, hblocks, hnew⟩, fun hhead => by cases hhead⟩
  | @give inputs n₁ n₂ stage i _ hgive ih =>
    intro calls hin hcalls
    obtain ⟨l, l', rfl, hl, hl'⟩ := List.map_eq_append_iff.mp hin.symm
    obtain ⟨x, rfl, hi⟩ := List.map_eq_singleton_iff.mp hl'
    subst hi
    obtain ⟨hbefore, hafter⟩ := ih l hl.symm fun y hy => hcalls y (List.mem_append_left _ hy)
    obtain ⟨hx, hhash⟩ := hcalls x (List.mem_append_right _ List.mem_cons_self)
    refine ⟨fun hnil => by simp at hnil, fun hhead => ?_⟩
    cases l with
    | nil =>
      obtain ⟨n', hσ, hn', hblocks', hnew'⟩ := hbefore rfl
      cases hσ
      obtain rfl := Option.some.inj hhead
      rcases Node.of_processActive hgive with ⟨hknown, _⟩ | ⟨_, hwork, arrival, hfind, rfl⟩
      · cases hnew'.symm.trans hknown
      · refine ⟨hwork, .queued ⟨hn'.store, hn'.forced, hn'.waiting⟩ ?_ hfind⟩
        exact congrArg (x.2 :: ·) hblocks'
    | cons y l =>
      obtain ⟨hwork, hlive⟩ := hafter hhead
      exact ⟨hwork, hlive.processActive hx hhash hgive⟩
  | step _ hstep ih =>
    intro calls hin hcalls
    obtain ⟨hbefore, hafter⟩ := ih calls hin hcalls
    refine ⟨fun hnil => ?_, fun hhead => ?_⟩
    · obtain ⟨n', rfl, hn', hblocks', _⟩ := hbefore hnil
      cases hstep with
      | take hf => cases hblocks'.symm.trans (Node.front_of_unforced hn'.forced hf).2.1
    · obtain ⟨hwork, hlive⟩ := hafter hhead
      exact ⟨hwork, hlive.step hass hv hb ad hblock hstep⟩
  | @flush inputs n₁ _ ih =>
    intro calls hin hcalls
    obtain ⟨hbefore, hafter⟩ := ih calls hin hcalls
    refine ⟨fun hnil => ?_, fun hhead => ?_⟩
    · obtain ⟨n', hσ, hn', hblocks', hnew'⟩ := hbefore hnil
      cases hσ
      exact ⟨_, rfl, hn'.flush, hblocks', hnew'⟩
    · obtain ⟨hwork, hlive⟩ := hafter hhead
      exact ⟨hwork, hlive.flush⟩

end Live

/-! ## The copy comes first -/

/-- Further calls with a hash that has arrived do nothing. -/
theorem NodeRun.known {σ₀ : NodeState} {stage : Stage} {h : BlockHash}
    (hknown : n.arrival.find h = true) : ∀ {calls : List (ℤ × Block)} {inputs : List Input},
    (∀ x ∈ calls, x.2.hash p.toEnv = h) → NodeRun p σ₀ inputs ⟨n, stage⟩ →
    NodeRun p σ₀ (inputs ++ calls.map fun x => .active x.1 x.2) ⟨n, stage⟩ := by
  intro calls
  induction calls with
  | nil =>
    intro inputs _ hrun
    simpa using hrun
  | cons x calls ih =>
    intro inputs hcalls hrun
    have hx : n.give p (.active x.1 x.2) = .ok n := by
      apply Node.processActive_known
      rw [hcalls x List.mem_cons_self]
      exact hknown
    have hrest := ih (fun y hy => hcalls y (List.mem_cons_of_mem _ hy)) (hrun.give _ hx)
    simpa using hrest

/-- A copy is judged and gone, but its hash has arrived. -/
theorem NodeRun.forged (hass : HashAssumptions p.toEnv U) {Λ₀ Λ' : Lattice p.toEnv}
    (hv : Valid U n.store Λ₀) (hsub : Λ₀.Within Λ') (hx : Offered U Λ₀ Λ' x)
    (hcopy : x ∉ (items Λ₀ Λ').genuine) (hblocks : n.blocks = []) (hforced : n.forced = [])
    (hnew : n.arrival.find (x.hash p.toEnv) = false) (now : ℤ) :
    ∃ n' : Node, NodeRun p ⟨n, .idle⟩ [.active now x] ⟨n', .idle⟩ ∧ n'.store = n.store ∧
      n'.blocks = [] ∧ n'.forced = [] ∧ n'.arrival.find (x.hash p.toEnv) = true := by
  obtain ⟨arrival, hfind, hactive⟩ := Node.processActive_new hnew hx.worked now
  obtain ⟨n', code, hjudge, hhandled⟩ := handle_offered (n := { n with arrival := arrival }) hass
    ⟨Λ₀, hv, Lattice.Within.refl Λ₀, hsub⟩ hx ⟨0, 0⟩
  have hheld : NodeRun p ⟨n, .idle⟩ [.active now x]
      ⟨{ n with arrival := arrival }, .taken x false⟩ :=
    (NodeRun.start.give (.active now x) hactive).step
      (.take (Node.front_cons (n := { n with arrival := arrival }) hforced x))
  cases hhandled with
  | old hstored =>
    rw [hv.refines.blocks.blockExists_false hx.new] at hstored
    cases hstored
  | progress hgenuine _ _ _ _ => exact absurd hgenuine hcopy
  | @wait k _ hcode _ _ _ =>
    refine ⟨_, hheld.step (.settle _ hjudge hcode), Node.uncheckedPut_store, ?_⟩
    rcases Node.uncheckedPut_cases p { n with arrival := arrival } k x with ⟨hput, _⟩ | hput
    · rw [hput]
      exact ⟨hblocks, hforced, hfind⟩
    · rw [hput]
      exact ⟨hblocks, hforced, hfind⟩
  | drop hcode _ _ =>
    exact ⟨_, hheld.step (.settle _ hjudge hcode), rfl, hblocks, hforced, hfind⟩

/-- **When a live block cannot be suppressed by forged copies.** The ledger is
reachable and `process` would accept `b`; nothing is queued, and the hash of `b`
is not among the recent arrivals. In a sequence of `process_active` calls that
brings `b` and copies of it, with the same hash and valid work but signatures
that do not validate for the owner, no assertion fails and `b` gets into the
ledger, whatever else the processor does meanwhile, exactly if `b` has valid work
and comes first. -/
theorem live_block_stored_iff (hass : HashAssumptions p.toEnv U)
    (hs : Ledger.Reachable p.toEnv U n.store) (hblocks : n.blocks = []) (hforced : n.forced = [])
    (hwaiting : ∀ x ∈ n.waiting, x.2 ∈ U) (hb : b ∈ U) {now : ℕ} {s' : BlockStore}
    {ret : ProcessReturn} {a : Account}
    (hprogress : Ledger.process p.toEnv now n.store b = .ok (s', ret))
    (hcode : ret.code = .progress) (howner : ret.account = some a)
    (hnew : n.arrival.find (b.hash p.toEnv) = false) {calls : List (ℤ × Block)}
    (hmem : b ∈ calls.map Prod.snd)
    (hcalls : ∀ x ∈ calls, x.2 = b ∨ x.2 ∈ U ∧ x.2.Worked p ∧ x.2.hash p.toEnv = b.hash p.toEnv ∧
      p.validateMessage a (x.2.hash p.toEnv) x.2.blockSignature = true) :
    ((∃ σ, NodeRun p ⟨n, .idle⟩ (calls.map fun x => .active x.1 x.2) σ) ∧
      ∀ σ, NodeRun p ⟨n, .idle⟩ (calls.map fun x => .active x.1 x.2) σ →
        Leads p (fun τ => τ.node.store.blockGet (b.hash p.toEnv) = some b) σ) ↔
    calls.head?.map Prod.snd = some b ∧ b.Worked p := by
  obtain ⟨Λ₀, hv⟩ := Ledger.Reachable.valid hass _ hs
  have hquiet : n.Quiet U n.store := ⟨rfl, hforced, hwaiting⟩
  have hsame : ∀ x ∈ calls, x.2 ∈ U ∧ x.2.hash p.toEnv = b.hash p.toEnv := by
    intro x hx
    rcases hcalls x hx with rfl | ⟨hU, _, hhash, _⟩
    · exact ⟨hb, rfl⟩
    · exact ⟨hU, hhash⟩
  obtain ⟨r, hrun, hout⟩ := hv.process hass hb now
  obtain rfl := Except.ok.inj (hrun.symm.trans hprogress)
  cases hout with
  | refused hne _ _ => exact absurd hcode hne
  | @accepted _ _ e ad hblock _ haccount _ _ =>
  obtain rfl := Option.some.inj (haccount.symm.trans howner)
  obtain ⟨⟨now₀, x⟩, rest, rfl⟩ := List.exists_cons_of_ne_nil (l := calls) (by
    rintro rfl
    cases hmem)
  constructor
  · rintro ⟨⟨σ, hσ⟩, hall⟩
    by_cases hx : x = b
    · subst hx
      exact ⟨rfl, (hσ.live hass hv hb ad hblock hquiet hblocks hnew _ rfl hsame).2 rfl |>.1⟩
    · -- the copy is handled, then everything else is dropped
      exfalso
      obtain ⟨hU, hwork, hhash, hbad⟩ := (hcalls _ List.mem_cons_self).resolve_left hx
      have hoffered : Offered U Λ₀ (Λ₀.insert ad) x := by
        refine ⟨hU, hwork, ?_, e, ?_, hblock ▸ hb, Or.inr hbad⟩
        · rw [hhash]
          exact ad.fresh
        · rw [hhash]
          exact Lattice.insert_entry_self ad
      have hcopy : x ∉ (items Λ₀ (Λ₀.insert ad)).genuine := by
        rintro ⟨_, e', he', rfl⟩
        rw [hhash, Lattice.insert_entry_self] at he'
        rw [← Option.some.inj he'] at hx
        exact hx hblock
      obtain ⟨n', hfirst, hstore, hblocks', hforced', hknown⟩ := NodeRun.forged hass hv
        (Lattice.within_insert ad) hoffered hcopy hblocks hforced (hhash ▸ hnew) now₀
      have hrest : ∀ y ∈ rest, y.2.hash p.toEnv = x.hash p.toEnv := fun y hy =>
        (hsame y (List.mem_cons_of_mem _ hy)).2.trans hhash.symm
      have hstored := (hall _ (hfirst.known hknown hrest)).of_atRest ⟨hblocks', hforced', rfl⟩
      dsimp only at hstored
      rw [hstore, hv.refines.blockGet_eq, Lattice.blocks_none.mpr ad.fresh] at hstored
      cases hstored
  · rintro ⟨hhead, hwork⟩
    obtain rfl := Option.some.inj hhead
    refine ⟨?_, fun σ hσ => ?_⟩
    · obtain ⟨arrival, hfind, hactive⟩ := Node.processActive_new hnew hwork now₀
      have hfirst : NodeRun p ⟨n, .idle⟩ [.active now₀ x] _ :=
        NodeRun.start.give (.active now₀ x) hactive
      have hrest : ∀ y ∈ rest, y.2.hash p.toEnv = x.hash p.toEnv := fun y hy =>
        (hsame y (List.mem_cons_of_mem _ hy)).2
      exact ⟨_, hfirst.known hfind hrest⟩
    · have hlive := (hσ.live hass hv hb ad hblock hquiet hblocks hnew _ rfl hsame).2 rfl
      exact hlive.2.leads hass hv hb ad hblock

namespace Signed

/-- The forged send is published first, the signed one after it. -/
def liveRun : Except Fault Node :=
  node.serve nodeEnv (fun _ => ⟨1, 0⟩) [.active 0 forgedSend, .active 1 send]

def missed : Node := liveRun.toOption.getD node

theorem liveRun_spec : liveRun.isOk = true ∧ missed.blocks = [] ∧ missed.forced = [] ∧
    missed.store.blockGet (send.hash env) = none := by
  decide +kernel

theorem liveRun_eq : liveRun = .ok missed := eq_ok_getD liveRun_spec.1 node

end Signed

/-- The signed send is published first. -/
theorem live_block_stored_iff_signed_first :
    ∃ τ : NodeState, τ.node.store.blockGet (send.hash env) = some send := by
  have hmem : send ∈ [((0 : ℤ), send), (1, forgedSend)].map Prod.snd :=
    List.mem_cons_self
  have hforged : forgedSend ∈ all := by simp [all]
  have hcalls : ∀ x ∈ [((0 : ℤ), send), (1, forgedSend)], x.2 = send ∨
      x.2 ∈ blocks ∧ x.2.Worked nodeEnv ∧ x.2.hash env = send.hash env ∧
      env.validateMessage genesisAccount (x.2.hash env)
        x.2.blockSignature = true := by
    intro x hx
    rcases List.mem_cons.mp hx with rfl | hx
    · exact Or.inl rfl
    · obtain rfl := List.mem_singleton.mp hx
      exact Or.inr ⟨hforged, worked _ (by simp), forgedSend_spec⟩
  have hwork : send.Worked nodeEnv := worked _ (by simp)
  obtain ⟨⟨σ, hrun⟩, hall⟩ := (live_block_stored_iff (p := nodeEnv) (n := node)
    assumptions first_reachable rfl rfl (fun x hx => by cases hx)
    (mem_blocks (by simp [all])) send_process sendProcess_spec.2.1
    sendProcess_spec.2.2 rfl hmem hcalls).mpr ⟨rfl, hwork⟩
  obtain ⟨τ, _, hstored⟩ := (hall σ hrun).exists_run
  exact ⟨τ, hstored⟩

/-- The forged send is published first and is found out, but the signed one is then
dropped because its hash has already arrived. -/
theorem live_send_suppressed : HashAssumptions env blocks ∧
    Ledger.Reachable env blocks node.store ∧ node.Fresh ∧ node.arrival = [] ∧
    (∀ x ∈ [send, forgedSend], x ∈ blocks ∧ x.Worked nodeEnv) ∧
    Ledger.process env 1 node.store send = .ok (sendResult.1, sendResult.2) ∧
    sendResult.2.code = .progress ∧ sendResult.2.account = some genesisAccount ∧
    forgedSend.hash env = send.hash env ∧
    env.validateMessage genesisAccount (forgedSend.hash env)
      forgedSend.blockSignature = true ∧
    NodeRun nodeEnv ⟨node, .idle⟩
      [.active 0 forgedSend, .active 1 send] ⟨missed, .idle⟩ ∧ NodeState.AtRest ⟨missed, .idle⟩ ∧
    missed.store.blockGet (send.hash env) = none := by
  have hmem : ∀ x ∈ [send, forgedSend],
      x ∈ all ∧ x.Worked nodeEnv := by
    simp [all, worked]
  have hrun : NodeRun nodeEnv ⟨node, .idle⟩
      [.active 0 forgedSend, .active 1 send] ⟨missed, .idle⟩ := by
    have hserve := liveRun_eq
    unfold liveRun at hserve
    exact NodeRun.start.serve hserve
  obtain ⟨-, hblocks, hforced, hlost⟩ := liveRun_spec
  exact ⟨assumptions, first_reachable, node_fresh, rfl, hmem,
    send_process, sendProcess_spec.2.1, sendProcess_spec.2.2,
    forgedSend_spec.1, forgedSend_spec.2, hrun, ⟨hblocks, hforced, rfl⟩, hlost⟩

end RaiBlocks
