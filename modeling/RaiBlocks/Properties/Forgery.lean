import RaiBlocks.Node.Arrivals

/-!
# Forged copies

A copy of a block with a signature that does not validate has the hash of the
block. Two filters go by the hash: the unchecked table, which holds one block for
each hash and key, and the record of recent arrivals in front of the processor.
Either can prefer the copy.
-/

namespace RaiBlocks

open Foundation Signed Worklist

variable {p : NodeEnv} {U : Set Block} {Λ₀ Λ' : Lattice p.toEnv} {n : Node} {b b' : Block}
  {l : List Block} {e : Entry} {σ : NodeState}

/-- A block of the older kinds rests on nothing but what is looked up first. -/
theorem Lattice.dependencies_subset_needs {p : Env} {Λ : Lattice p} {h : BlockHash} {e : Entry}
    (he : Λ.entry h = some e) (hg : h ≠ p.genesisHash) (hl : e.block.isLegacy = true)
    {x : BlockHash} (hx : x ∈ e.dependencies p) : x ∈ e.block.needs := by
  obtain ⟨h0, hdep⟩ := hx
  unfold Entry.DependsOn Entry.receives at hdep
  cases hb : e.block with
  | stateBlock b =>
    rw [hb] at hl
    cases hl
  | openBlock b =>
    have hsource := ((Λ.justified he).of_openBlock hg hb).2.1
    unfold Entry.receives at hsource
    rw [hb] at hdep hsource
    rcases hdep with rfl | hrec
    · exact absurd rfl h0
    · rw [Option.some.inj (hrec.symm.trans hsource)]
      exact List.mem_cons_self
  | sendBlock b =>
    rw [hb] at hdep
    rcases hdep with rfl | hrec
    · exact List.mem_cons_self
    · cases hrec
  | changeBlock b =>
    rw [hb] at hdep
    rcases hdep with rfl | hrec
    · exact List.mem_cons_self
    · cases hrec
  | receiveBlock b =>
    rw [hb] at hdep
    rcases hdep with rfl | hrec
    · exact List.mem_cons_self
    · rw [← Option.some.inj hrec]
      exact List.mem_cons_of_mem _ List.mem_cons_self

/-! ## A copy in the unchecked table -/

/-- The new blocks `b` and `l` of `Λ'`, and a copy `b'` of `b` that the owner of
`b` has not signed. -/
structure Copied (U : Set Block) (Λ₀ Λ' : Lattice p.toEnv) (s : BlockStore) (b b' : Block)
    (l : List Block) : Prop where
  valid : Valid U s Λ₀
  ext : Λ₀.Extends Λ' (b :: l)
  other : b ∉ l
  mem : ∀ x ∈ b :: b' :: l, x ∈ U
  worked : ∀ x ∈ b :: b' :: l, x.Worked p
  hash_eq : b'.hash p.toEnv = b.hash p.toEnv
  forged : ∃ e, Λ'.entry (b.hash p.toEnv) = some e ∧ e.block = b ∧
    p.validateMessage e.owner (b'.hash p.toEnv) b'.blockSignature = true

namespace Copied

variable (hc : Copied U Λ₀ Λ' n.store b b' l) {x : BlockHash}

include hc

theorem fresh : Λ₀.entry (b.hash p.toEnv) = none := (hc.ext.added b List.mem_cons_self).1

theorem ne : b' ≠ b := by
  rintro rfl
  obtain ⟨e, he, hblock, hbad⟩ := hc.forged
  have hsigned := Λ'.signed he (Lattice.ne_genesis_of_unstored hc.fresh)
  rw [hblock] at hsigned
  cases hbad.symm.trans hsigned

theorem genuine : b ∈ (items Λ₀ Λ').genuine := hc.ext.mem_genuine.mpr List.mem_cons_self

theorem mem_of_genuine {x : Block} (hx : x ∈ b :: l) : x ∈ b :: b' :: l := by
  rcases List.mem_cons.mp hx with rfl | hx
  · exact List.mem_cons_self
  · exact List.mem_cons_of_mem _ (List.mem_cons_of_mem _ hx)

theorem offered {x : Block} (hx : x ∈ b :: b' :: l) : Offered U Λ₀ Λ' x := by
  have hgenuine : ∀ y ∈ b :: l, Offered U Λ₀ Λ' y := fun y hy =>
    hc.ext.offered (fun z hz => hc.mem z (hc.mem_of_genuine hz))
      (fun z hz => hc.worked z (hc.mem_of_genuine hz)) hy
  rcases List.mem_cons.mp hx with rfl | hx
  · exact hgenuine _ List.mem_cons_self
  · rcases List.mem_cons.mp hx with rfl | hx
    · obtain ⟨e, he, hblock, hbad⟩ := hc.forged
      refine ⟨hc.mem x (by simp), hc.worked x (by simp), ?_, e, ?_, ?_, Or.inr hbad⟩
      · rw [hc.hash_eq]
        exact hc.fresh
      · rw [hc.hash_eq]
        exact he
      · rw [hblock]
        exact hc.mem b List.mem_cons_self
    · exact hgenuine _ (List.mem_cons_of_mem _ hx)

theorem hashInput_eq (hass : HashAssumptions p.toEnv U) : b'.hashInput = b.hashInput :=
  hass.collision_free (hc.mem b' (by simp)) (hc.mem b List.mem_cons_self) hc.hash_eq

theorem stored_iff : n.store.blockExists x = true ↔ ∃ o, Λ₀.entry x = some o := by
  rw [hc.valid.refines.blocks.blockExists]
  exact Option.isSome_iff_exists

theorem deps_copy (hx : x ∈ (items Λ₀ Λ').deps b') : x ∈ b'.needs := by
  obtain ⟨e, he, ⟨hblock, _⟩ | ⟨_, hx⟩⟩ := hx
  · obtain ⟨e', he', hblock', _⟩ := hc.forged
    rw [hc.hash_eq, he'] at he
    rw [← Option.some.inj he, hblock'] at hblock
    exact absurd hblock.symm hc.ne
  · exact hx

theorem deps_genuine (hl : b.isLegacy = true) (hx : x ∈ (items Λ₀ Λ').deps b) : x ∈ b.needs := by
  obtain ⟨e, he, ⟨rfl, hx⟩ | ⟨_, hx⟩⟩ := hx
  · exact Lattice.dependencies_subset_needs he (Lattice.ne_genesis_of_unstored hc.fresh) hl hx
  · exact hx

/-- **When the copy does not get into the way of the block.** -/
theorem apart (hass : HashAssumptions p.toEnv U)
    (hwhen : (∀ x ∈ b.needs, n.store.blockExists x = true) ∨
      ∀ x ∈ b'.needs, n.store.blockExists x = true) {inputs : List Block}
    (hin : ∀ x ∈ inputs, x ∈ b :: b' :: l) {a : Block} (ha : a ∈ (items Λ₀ Λ').genuine) :
    Apart (items Λ₀ Λ') {h | n.store.blockExists h = true} inputs a := by
  intro x hx hkey
  have ha' := hc.ext.mem_genuine.mp ha
  by_cases hcopy : x = b'
  · subst hcopy
    obtain rfl : a = b := by
      apply hc.ext.eq_of_hash ha' List.mem_cons_self
      exact hkey.symm.trans hc.hash_eq
    right
    rcases hwhen with hb | hb'
    · cases hl : a.isLegacy with
      | true => exact Or.inr fun y hy => hb y (hc.deps_genuine hl hy)
      | false =>
        -- a copy of a state block is a state block, and waits for nothing
        left
        intro y hy
        have hstate := (hashInput_eq_place (hc.hashInput_eq hass)).2.2.2.trans hl
        have hneeds := hc.deps_copy hy
        cases x with
        | stateBlock x => cases hneeds
        | _ => cases hstate
    · exact Or.inl fun y hy => hb' y (hc.deps_copy hy)
  · left
    apply hc.ext.eq_of_hash _ ha' hkey
    have hmem := hin x hx
    simp only [List.mem_cons] at hmem ⊢
    tauto

/-- Then the processor comes to rest with the block stored. -/
theorem leads (hass : HashAssumptions p.toEnv U) (hn : n.Fresh)
    (hwhen : (∀ x ∈ b.needs, n.store.blockExists x = true) ∨
      ∀ x ∈ b'.needs, n.store.blockExists x = true) {inputs : List Block}
    (hperm : inputs.Perm (b :: b' :: l))
    (hrun : NodeRun p ⟨n, .idle⟩ (inputs.map .add) σ) :
    Leads p (fun τ => τ.AtRest ∧ τ.node.store.blockGet (b.hash p.toEnv) = some b) σ := by
  have hin : ∀ x ∈ inputs, x ∈ b :: b' :: l := fun x hx => hperm.mem_iff.mp hx
  have hleads := hn.leads hass hc.valid hc.ext.within hc.ext.finite
    (fun x hx => hc.offered (hin x hx)) hrun
  refine hleads.mono fun τ ⟨hrest, ht, hlist⟩ => ⟨hrest, ?_⟩
  obtain ⟨hdone, _⟩ := hlist.complete hrest.worklist
    (fun a ha => hc.apart hass hwhen hin ha) hc.valid.closed
    (fun a ha => hperm.mem_iff.mpr (hc.mem_of_genuine (hc.ext.mem_genuine.mp ha)))
    b hc.genuine
  exact ht.blockGet hc.genuine hdone

/-- **Otherwise the block can get lost**: the copy comes first and waits, and the
block is taken for it. -/
theorem lost (hass : HashAssumptions p.toEnv U) (hn : n.Fresh) {k k' : BlockHash}
    (hk : b.firstMissing Λ₀ = some k) (hk' : b'.firstMissing Λ₀ = some k') :
    ∃ n₁ : Node, NodeRun p ⟨n, .idle⟩ [.add b', .add b] ⟨n₁, .idle⟩ ∧
      Lost (items Λ₀ Λ') (NodeState.worklist ⟨n₁, .idle⟩) b := by
  obtain ⟨e, he, hblock, _⟩ := hc.forged
  have hinput := hc.hashInput_eq hass
  obtain rfl := Block.firstMissing_unique hinput hk' hk
  have hwaiting : n.waiting = [] := by
    unfold Node.waiting
    rw [hn.uncheckedCache, hn.unchecked]
    rfl
  -- the copy waits
  obtain ⟨code', hcode', hjudge'⟩ := hc.valid.judge_missing hc.ext.within (c := ⟨0, 0⟩)
    (hc.hash_eq ▸ he) (hc.hash_eq ▸ hc.fresh) (hblock ▸ hinput) hk'
  have hput : n.uncheckedPut p k' b' = { n with uncheckedCache := [(k', b')] } := by
    rcases Node.uncheckedPut_cases p n k' b' with ⟨_, x, hx, _⟩ | hput
    · rw [hwaiting] at hx
      cases hx
    · rw [hput, hn.uncheckedCache]
  rw [hput] at hjudge'
  -- the block is dropped
  obtain ⟨code, hcode, hjudge⟩ := Valid.judge_missing
    (n := { n with uncheckedCache := [(k', b')] }) (c := ⟨0, 0⟩) hc.valid hc.ext.within he hc.fresh
    (by rw [hblock]) hk
  rw [Node.uncheckedPut_of_mem (x := b') List.mem_cons_self hc.hash_eq] at hjudge
  refine ⟨{ n with uncheckedCache := [(k', b')] }, ?_, ?_, ?_⟩
  · have hfirst := NodeRun.start.add_settled hn.forced (hc.worked b' (by simp)) hjudge' hcode'
    exact hfirst.add_settled hn.forced (hc.worked b (by simp)) hjudge hcode
  · intro hdone
    obtain ⟨o, ho⟩ := hc.stored_iff.mp hdone
    cases hc.fresh.symm.trans ho
  · rintro (hq | hheld | ⟨hr, _⟩ | hw)
    · have hblocks : b ∈ n.blocks := hq
      rw [hn.blocks] at hblocks
      cases hblocks
    · cases hheld
    · cases hr
    · rcases List.mem_append.mp hw with hw | hw
      · exact hc.ne (Prod.mk.inj (List.mem_singleton.mp hw)).2.symm
      · rw [hn.unchecked] at hw
        cases hw

end Copied

/-- Giving other blocks does not bring a lost one back. -/
theorem NodeRun.add_lost {σ₀ : NodeState} {I : Items BlockHash Block} :
    ∀ {l : List Block}, (∀ x ∈ l, x.Worked p ∧ x ≠ b) → ∀ {inputs : List Input} {n : Node},
    NodeRun p σ₀ inputs ⟨n, .idle⟩ → Lost I (NodeState.worklist ⟨n, .idle⟩) b →
    ∃ n', NodeRun p σ₀ (inputs ++ l.map .add) ⟨n', .idle⟩ ∧
      Lost I (NodeState.worklist ⟨n', .idle⟩) b := by
  intro l
  induction l with
  | nil =>
    intro _ inputs n hrun hlost
    exact ⟨n, by simpa using hrun, hlost⟩
  | cons x l ih =>
    intro hl inputs n hrun hlost
    obtain ⟨hwork, hne⟩ := hl x List.mem_cons_self
    have hlost' : Lost I
        (NodeState.worklist ⟨{ n with blocks := x :: n.blocks }, .idle⟩) b := by
      refine ⟨hlost.1, fun hh => hlost.2 ?_⟩
      rcases hh with hq | hheld | ⟨hr, _⟩ | hw
      · exact .queued (List.mem_of_ne_of_mem hne.symm hq)
      · cases hheld
      · cases hr
      · exact .waiting hw
    obtain ⟨n', hrun', hlost'⟩ := ih (fun y hy => hl y (List.mem_cons_of_mem _ hy))
      (hrun.add hwork) hlost'
    exact ⟨n', by simpa using hrun', hlost'⟩

theorem Tame.lost (hass : HashAssumptions p.toEnv U) {σ' : NodeState}
    (hsole : ∀ g ∈ (items Λ₀ Λ').genuine, g.hash p.toEnv = b.hash p.toEnv → g = b)
    (ht : Tame U Λ₀ Λ' σ) (hlost : Lost (items Λ₀ Λ') σ.worklist b)
    (hsteps : Relation.ReflTransGen (NodeStep p) σ σ') :
    σ'.node.store.blockGet (b.hash p.toEnv) ≠ some b := by
  have hkeep : Tame U Λ₀ Λ' σ' ∧ Lost (items Λ₀ Λ') σ'.worklist b := by
    induction hsteps with
    | refl => exact ⟨ht, hlost⟩
    | tail _ hstep ih =>
      exact ⟨ih.1.step hass hstep, ih.2.step hsole (ih.1.step_worklist hass hstep)⟩
  intro hget
  obtain ⟨Λ, hv, _⟩ := hkeep.1.between
  rw [hv.refines.blockGet_eq] at hget
  obtain ⟨e, he, _⟩ := Lattice.of_blocks hget
  exact hkeep.2.1 (hv.refines.blocks.blockExists_true he)

/-- **When a forged copy cannot suppress a waiting block.** A reachable ledger
accepts the blocks of `order` and then `b`; the copy `b'` has the hash of `b`, but
its signature does not validate for the owner of `b`. All of them are given to the
block processor of a node with nothing else to do, in any order and at any moments.
The processor always comes to rest with `b` stored exactly if everything that
`process` looks up before it checks the signature is there from the start, for `b`
or for `b'`. -/
theorem forged_copy_harmless_iff (hass : HashAssumptions p.toEnv U)
    (hs : Ledger.Reachable p.toEnv U n.store) (hn : n.Fresh) {order : List (ℕ × Block)}
    (hU : ∀ x ∈ b :: b' :: order.map Prod.snd, x ∈ U)
    (hwork : ∀ x ∈ b :: b' :: order.map Prod.snd, x.Worked p) {s₁ s₂ : BlockStore}
    {codes : List ProcessResult} {now : ℕ} {ret : ProcessReturn} {a : Account}
    (haccept : Ledger.processAll p.toEnv n.store order = .ok (s₁, codes))
    (hcodes : ∀ c ∈ codes, c = .progress)
    (hprogress : Ledger.process p.toEnv now s₁ b = .ok (s₂, ret)) (hcode : ret.code = .progress)
    (howner : ret.account = some a) (hhash : b'.hash p.toEnv = b.hash p.toEnv)
    (hbad : p.validateMessage a (b'.hash p.toEnv) b'.blockSignature = true) :
    (∀ inputs : List Block, inputs.Perm (b :: b' :: order.map Prod.snd) →
      ∀ σ, NodeRun p ⟨n, .idle⟩ (inputs.map .add) σ →
      Leads p (fun τ => τ.AtRest ∧ τ.node.store.blockGet (b.hash p.toEnv) = some b) σ) ↔
    (∀ x ∈ b.needs, n.store.blockExists x = true) ∨
      ∀ x ∈ b'.needs, n.store.blockExists x = true := by
  obtain ⟨Λ₀, hv⟩ := Ledger.Reachable.valid hass _ hs
  have hU' : ∀ x ∈ order, x.2 ∈ U := fun x hx =>
    hU x.2 (List.mem_cons_of_mem _ (List.mem_cons_of_mem _ (List.mem_map_of_mem hx)))
  obtain ⟨Λ₁, hv₁, hext⟩ := hv.extends hass hU' haccept hcodes
  obtain ⟨Λ', hc⟩ : ∃ Λ' : Lattice p.toEnv,
      Copied U Λ₀ Λ' n.store b b' (order.map Prod.snd) := by
    obtain ⟨r, hrun, hout⟩ := hv₁.process hass (hU b List.mem_cons_self) now
    obtain rfl := Except.ok.inj (hrun.symm.trans hprogress)
    cases hout with
    | refused hne => exact absurd hcode hne
    | @accepted _ _ e ad hblock _ haccount _ _ =>
      obtain rfl := Option.some.inj (haccount.symm.trans howner)
      subst hblock
      refine ⟨Λ₁.insert ad, hv, hext.insert ad, fun hmem => ?_, hU, hwork, hhash, e,
        Lattice.insert_entry_self ad, rfl, hbad⟩
      obtain ⟨_, q, hq, _⟩ := hext.added e.block hmem
      cases ad.fresh.symm.trans hq
  constructor
  · intro hall
    by_contra hwhen
    push Not at hwhen
    obtain ⟨⟨x, hx, hxn⟩, ⟨y, hy, hyn⟩⟩ := hwhen
    -- both have a gap, so the block can get lost
    have hgap : ∀ {c : Block} {z : BlockHash}, z ∈ c.needs → n.store.blockExists z ≠ true →
        ∃ k, c.firstMissing Λ₀ = some k := by
      intro c z hz hzn
      apply Option.ne_none_iff_exists'.mp
      intro hnone
      exact hzn (hc.stored_iff.mpr (Block.stored_of_firstMissing hnone hz))
    obtain ⟨k, hk⟩ := hgap hx hxn
    obtain ⟨k', hk'⟩ := hgap hy hyn
    obtain ⟨n₁, hrun₁, hlost₁⟩ := hc.lost hass hn hk hk'
    have hothers : ∀ z ∈ order.map Prod.snd, z.Worked p ∧ z ≠ b := by
      intro z hz
      refine ⟨hwork z (by simp [hz]), ?_⟩
      rintro rfl
      exact hc.other hz
    obtain ⟨n₂, hrun₂, hlost₂⟩ := hrun₁.add_lost hothers hlost₁
    have hinputs : [Input.add b', .add b] ++ (order.map Prod.snd).map .add =
        (b' :: b :: order.map Prod.snd).map .add := rfl
    rw [hinputs] at hrun₂
    obtain ⟨ht, _⟩ := (hn.tame hv hc.ext.within).run hass hrun₂ _ rfl fun z hz =>
      hc.offered ((List.Perm.swap b b' _).mem_iff.mp hz)
    obtain ⟨τ, hsteps, _, hstored⟩ := (hall _ (List.Perm.swap b b' _) _ hrun₂).exists_run
    refine ht.lost hass (fun g hg hkey => ?_) hlost₂ hsteps hstored
    exact hc.ext.eq_of_hash (hc.ext.mem_genuine.mp hg) List.mem_cons_self hkey
  · intro hwhen inputs hperm σ hrun
    exact hc.leads hass hn hwhen hperm hrun

namespace Signed

/-- The open block after the send. -/
def openProcess : Except Fault (BlockStore × ProcessReturn) := Ledger.process env 2 sent opens

def openResult : BlockStore × ProcessReturn := openProcess.toOption.getD (.empty, .of .old)

theorem openProcess_spec : openProcess.isOk = true ∧
    openResult.2.code = .progress ∧ openResult.2.account = some account := by
  decide +kernel

theorem openProcess_eq : openProcess = .ok openResult :=
  eq_ok_getD openProcess_spec.1 (.empty, .of .old)

/-- The state block that opens the account, after the send. -/
def stateProcess : Except Fault (BlockStore × ProcessReturn) := Ledger.process env 2 sent stateOpens

def stateResult : BlockStore × ProcessReturn := stateProcess.toOption.getD (.empty, .of .old)

theorem stateProcess_spec : stateProcess.isOk = true ∧
    stateResult.2.code = .progress ∧ stateResult.2.account = some account := by
  decide +kernel

theorem stateProcess_eq : stateProcess = .ok (stateResult.1, stateResult.2) := by
  rw [Prod.mk.eta]
  exact eq_ok_getD stateProcess_spec.1 (.empty, .of .old)

theorem forgedStateOpen_spec : forgedStateOpen.hash env = stateOpens.hash env ∧
    env.validateMessage account (forgedStateOpen.hash env)
      forgedStateOpen.blockSignature = true := by
  decide +kernel

theorem forgedOpen_spec : forgedOpen.hash env = opens.hash env ∧
    env.validateMessage account (forgedOpen.hash env) forgedOpen.blockSignature = true := by
  decide +kernel

/-- The forged open block comes first, then the signed one, then the send that
both receive. -/
def suppressRun : Except Fault Node :=
  node.serve nodeEnv (fun _ => ⟨1, 0⟩) [.add forgedOpen, .add opens, .add send]

def suppressed : Node := suppressRun.toOption.getD node

/-- The processor rests, and the open block is not there. -/
theorem suppressRun_spec : suppressRun.isOk = true ∧ suppressed.blocks = [] ∧
    suppressed.forced = [] ∧ suppressed.store.blockGet (opens.hash env) = none := by
  decide +kernel

theorem suppressRun_eq : suppressRun = .ok suppressed := eq_ok_getD suppressRun_spec.1 node

end Signed

/-- A state block that opens an account and its copy arrive before the send that both receive. The
block waits for the send, the copy is refused for its signature. -/
theorem forged_copy_harmless_iff_state : node.store.blockExists sendHash = false ∧
    ∃ τ : NodeState, τ.AtRest ∧
      τ.node.store.blockGet (stateOpens.hash env) = some stateOpens := by
  have hU : ∀ x ∈ [stateOpens, forgedStateOpen, send], x ∈ all := by
    simp [all]
  have hwork : ∀ x ∈ [stateOpens, forgedStateOpen, send],
      x.Worked nodeEnv := by
    simp [worked]
  have hneeds : ∀ x ∈ stateOpens.needs, node.store.blockExists x = true := by
    intro x hx
    cases hx
  have hall := (forged_copy_harmless_iff (p := nodeEnv) (n := node)
    assumptions first_reachable node_fresh hU hwork sendRun_eq
    (by simp) stateProcess_eq stateProcess_spec.2.1 stateProcess_spec.2.2
    forgedStateOpen_spec.1 forgedStateOpen_spec.2).mpr (Or.inl hneeds)
  have hrun : NodeRun nodeEnv ⟨node, .idle⟩
      ([forgedStateOpen, stateOpens, send].map .add)
      ⟨{ node with blocks := [send, stateOpens, forgedStateOpen] }, .idle⟩ :=
    ((NodeRun.start.add (hwork _ (by simp))).add (hwork _ (by simp))).add (hwork _ (by simp))
  obtain ⟨τ, _, hτ⟩ := (hall _ (List.Perm.swap _ _ _) _ hrun).exists_run
  exact ⟨by decide +kernel, τ, hτ⟩

/-- The forged open block waits for the send, the signed one is dropped, and when
the send has arrived there is only the forged one left. -/
theorem waiting_open_suppressed : HashAssumptions env blocks ∧
    Ledger.Reachable env blocks node.store ∧ node.Fresh ∧
    (∀ x ∈ [opens, forgedOpen, send], x ∈ blocks ∧ x.Worked nodeEnv) ∧
    Ledger.processAll env node.store [(1, send)] = .ok (sent, [.progress]) ∧
    Ledger.process env 2 sent opens = .ok openResult ∧ openResult.2.code = .progress ∧
    openResult.2.account = some account ∧
    forgedOpen.hash env = opens.hash env ∧
    env.validateMessage account (forgedOpen.hash env)
      forgedOpen.blockSignature = true ∧
    NodeRun nodeEnv ⟨node, .idle⟩
      ([forgedOpen, opens, send].map .add) ⟨suppressed, .idle⟩ ∧
    NodeState.AtRest ⟨suppressed, .idle⟩ ∧
    suppressed.store.blockGet (opens.hash env) = none := by
  have hmem : ∀ x ∈ [opens, forgedOpen, send],
      x ∈ all ∧ x.Worked nodeEnv := by
    simp [all, worked]
  have hrun : NodeRun nodeEnv ⟨node, .idle⟩
      ([forgedOpen, opens, send].map .add) ⟨suppressed, .idle⟩ := by
    have hserve := suppressRun_eq
    unfold suppressRun at hserve
    exact NodeRun.start.serve hserve
  obtain ⟨-, hblocks, hforced, hlost⟩ := suppressRun_spec
  exact ⟨assumptions, first_reachable, node_fresh, hmem, sendRun_eq,
    openProcess_eq, openProcess_spec.2.1, openProcess_spec.2.2,
    forgedOpen_spec.1, forgedOpen_spec.2, hrun, ⟨hblocks, hforced, rfl⟩, hlost⟩

end RaiBlocks
