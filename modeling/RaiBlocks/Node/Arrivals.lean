import RaiBlocks.Node.Simulation
import RaiBlocks.Refinement.Acceptance

/-!
# Blocks given to the processor

Blocks that a ledger accepts one after the other extend its lattice. The extension bounds what
the processor can come to, and its ranks say in which order it gets there.
-/

namespace RaiBlocks

open Foundation

/-! ## The lattice that is being built -/

section Lattice

variable {p : Env} {U : Set Block} (hass : HashAssumptions p U)

include hass

/-- Blocks accepted one after the other extend the lattice. -/
theorem Valid.extends {order : List (ℕ × Block)} (hU : ∀ x ∈ order, x.2 ∈ U) :
    ∀ {s Λ s' codes}, Valid (p := p) U s Λ → Ledger.processAll p s order = .ok (s', codes) →
    (∀ c ∈ codes, c = .progress) →
    ∃ Λ' : Lattice p, Valid U s' Λ' ∧ Λ.Extends Λ' (order.map Prod.snd) := by
  induction order with
  | nil =>
    intro s Λ s' codes hv hrun _
    cases hrun
    exact ⟨Λ, hv, .refl Λ⟩
  | cons x order ih =>
    intro s Λ s' codes hv hrun hcodes
    obtain ⟨s₁, ret, codes', hp, hrest, rfl⟩ := Ledger.processAll_cons hrun
    obtain ⟨e, ad, hblock, hv₁⟩ := hv.progress hass (hU x List.mem_cons_self) hp
      (hcodes _ List.mem_cons_self)
    obtain ⟨Λ', hv', hext⟩ := ih (fun y hy => hU y (List.mem_cons_of_mem _ hy)) hv₁ hrest
      fun c hc => hcodes c (List.mem_cons_of_mem _ hc)
    refine ⟨Λ', hv', ?_⟩
    rw [List.map_cons, ← hblock]
    exact .cons ad hext

end Lattice

variable {p : NodeEnv} {U : Set Block} {Λ₀ Λ' : Lattice p.toEnv} {n : Node} {b : Block}
  {l : List Block} {σ : NodeState}

/-- The order in which blocks of `Λ'` can be accepted. -/
noncomputable def Lattice.rankOf (Λ' : Lattice p.toEnv) (b : Block) : ℕ :=
  ((Λ'.entry (b.hash p.toEnv)).map Entry.rank).getD 0

/-- What a block depends on is stored or is one of the new blocks, of lower
rank. -/
theorem Valid.closed (hv : Valid U n.store Λ₀) :
    Worklist.Closed (items Λ₀ Λ') {h | n.store.blockExists h = true} Λ'.rankOf := by
  rintro b ⟨_, e, he, rfl⟩ k ⟨e', he', hdep⟩
  obtain rfl := Option.some.inj (he.symm.trans he')
  obtain ⟨h0, hdep⟩ : k ∈ e.dependencies p.toEnv := by
    rcases hdep with ⟨_, hk⟩ | ⟨hne, _⟩
    · exact hk
    · exact absurd rfl hne
  obtain ⟨q, hq⟩ := Lattice.dep_of_dependsOn he hdep h0
  cases hk : Λ₀.entry k with
  | some q' => exact Or.inl (hv.refines.blocks.blockExists_true hk)
  | none =>
    have hhash := Λ'.hash_eq hq
    subst hhash
    refine Or.inr ⟨q.block, ⟨hk, q, hq, rfl⟩, rfl, ?_⟩
    unfold Lattice.rankOf
    rw [hq, he]
    exact Lattice.Dep.rank_lt ⟨e, q, he, hq, hdep⟩ he hq

section Extends

variable (hext : Λ₀.Extends Λ' l)

include hext

theorem Lattice.Extends.mem_genuine : b ∈ (items Λ₀ Λ').genuine ↔ b ∈ l := by
  constructor
  · rintro ⟨hfresh, e, he, rfl⟩
    exact (hext.only _ e he).resolve_left fun hx => by cases hfresh.symm.trans hx
  · exact hext.added b

theorem Lattice.Extends.finite : (items Λ₀ Λ').genuine.Finite := by
  apply (List.finite_toSet l).subset
  intro b hb
  exact hext.mem_genuine.mp hb

/-- The hash of a new block belongs to it alone, among the new blocks. -/
theorem Lattice.Extends.eq_of_hash {b' : Block} (hb : b ∈ l) (hb' : b' ∈ l)
    (hh : b.hash p.toEnv = b'.hash p.toEnv) : b = b' := by
  obtain ⟨_, e, he, rfl⟩ := hext.added b hb
  obtain ⟨_, e', he', rfl⟩ := hext.added b' hb'
  rw [hh, he'] at he
  rw [Option.some.inj he]

theorem Lattice.Extends.offered (hU : ∀ x ∈ l, x ∈ U) (hwork : ∀ x ∈ l, x.Worked p)
    (hb : b ∈ l) : Offered U Λ₀ Λ' b := by
  obtain ⟨hfresh, e, he, hblock⟩ := hext.added b hb
  exact ⟨hU b hb, hwork b hb, hfresh, e, he, hblock ▸ hU b hb, Or.inl hblock⟩

end Extends

theorem NodeState.AtRest.worklist (hrest : σ.AtRest) : σ.worklist.AtRest := by
  obtain ⟨hblocks, _, hstage⟩ := hrest
  exact ⟨hblocks, by rw [NodeState.worklist, hstage]; rfl⟩

theorem Tame.blockGet (ht : Tame U Λ₀ Λ' σ) (hb : b ∈ (items Λ₀ Λ').genuine)
    (hdone : σ.node.store.blockExists (b.hash p.toEnv) = true) :
    σ.node.store.blockGet (b.hash p.toEnv) = some b := by
  obtain ⟨_, e, he, rfl⟩ := hb
  obtain ⟨Λ, hv, _, hsub⟩ := ht.between
  rw [hv.refines.blocks.blockExists] at hdone
  obtain ⟨q, hq⟩ := Option.isSome_iff_exists.mp hdone
  rw [hv.refines.blocks.blockGet_some hq, hsub.entry_eq hq he]

/-! ## The signed blocks on a node -/

namespace Signed

/-- With the work values of the blocks. -/
def nodeEnv : NodeEnv where
  toEnv := env
  workValue root work :=
    if root = genesisHash ∧ work = 0x19b then 0xff856c87b6de1263
    else if root = account ∧ work = 0x259 then 0xffc1b695bec2e273
    else if root = returnHash ∧ work = 0xaf then 0xff7e002e6e91be80
    else 0

/-- A new node. -/
def node : Node := ⟨first, [], [], [], [], []⟩

theorem node_fresh : node.Fresh := ⟨rfl, rfl, rfl, rfl⟩

theorem worked : ∀ b ∈ [send, forgedSend, opens, forgedOpen, stateOpens, forgedStateOpen],
    b.Worked nodeEnv := by
  decide +kernel

def sendRun : Except Fault (BlockStore × List ProcessResult) :=
  Ledger.processAll env first [(1, send)]

/-- The ledger in which the genesis account has sent. -/
def sent : BlockStore := (sendRun.toOption.getD (.empty, [])).1

theorem sendRun_eq : sendRun = .ok (sent, [.progress]) := by
  have hspec : sendRun.isOk = true ∧
      (sendRun.toOption.getD (.empty, [])).2 = [.progress] := by
    decide +kernel
  unfold sent
  rw [← hspec.2, Prod.mk.eta]
  exact eq_ok_getD hspec.1 (.empty, [])

/-- The send at first. -/
def sendProcess : Except Fault (BlockStore × ProcessReturn) := Ledger.process env 1 first send

def sendResult : BlockStore × ProcessReturn := sendProcess.toOption.getD (.empty, .of .old)

theorem sendProcess_spec : sendProcess.isOk = true ∧
    sendResult.2.code = .progress ∧ sendResult.2.account = some genesisAccount := by
  decide +kernel

theorem send_process : Ledger.process env 1 first send = .ok (sendResult.1, sendResult.2) := by
  rw [Prod.mk.eta]
  exact eq_ok_getD sendProcess_spec.1 (.empty, .of .old)

theorem forgedSend_spec : forgedSend.hash env = send.hash env ∧
    env.validateMessage genesisAccount (forgedSend.hash env) forgedSend.blockSignature = true := by
  decide +kernel

end Signed

end RaiBlocks
