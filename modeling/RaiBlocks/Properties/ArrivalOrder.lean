import RaiBlocks.Node.Arrivals

/-!
# Arrival order

Blocks that can be accepted in some order are accepted in every order in which
they reach the block processor, however often each of them arrives and whatever
the processor is doing meanwhile. Those that come too early wait, and in the end
none is left waiting.
-/

namespace RaiBlocks

open Foundation Signed

variable {p : NodeEnv} {U : Set Block} {n : Node} {σ : NodeState}

/-- **Arrival order does not matter.** Let a set of blocks with valid work be
accepted in the given order by a reachable ledger. From a node with this ledger,
empty queues and nothing unchecked, give the processor these blocks in any order
and any number of times, at any moments of its work. Then, however it goes on,
it comes to rest without a failure; and if every block was given, every block is
then stored and none is left in the unchecked table or its cache. -/
theorem arrival_order_irrelevant (hass : HashAssumptions p.toEnv U)
    (hs : Ledger.Reachable p.toEnv U n.store) (hn : n.Fresh) {order : List (ℕ × Block)}
    (hU : ∀ x ∈ order, x.2 ∈ U) (hwork : ∀ x ∈ order, x.2.Worked p) {s' : BlockStore}
    {codes : List ProcessResult}
    (haccept : Ledger.processAll p.toEnv n.store order = .ok (s', codes))
    (hcodes : ∀ c ∈ codes, c = .progress) {inputs : List Block}
    (hin : ∀ b ∈ inputs, b ∈ order.map Prod.snd)
    (hrun : NodeRun p ⟨n, .idle⟩ (inputs.map .add) σ) :
    Leads p (fun τ => τ.AtRest ∧ ((∀ b ∈ order.map Prod.snd, b ∈ inputs) →
      ∀ b ∈ order.map Prod.snd, τ.node.store.blockGet (b.hash p.toEnv) = some b ∧
        ∀ k, (k, b) ∉ τ.node.uncheckedCache ∧ (k, b) ∉ τ.node.unchecked)) σ := by
  obtain ⟨Λ₀, hv⟩ := Ledger.Reachable.valid hass _ hs
  obtain ⟨Λ', _, hext⟩ := hv.extends hass hU haccept hcodes
  have hmem : ∀ b ∈ order.map Prod.snd, b ∈ U ∧ b.Worked p := by
    intro b hb
    obtain ⟨x, hx, rfl⟩ := List.mem_map.mp hb
    exact ⟨hU x hx, hwork x hx⟩
  have hoffered : ∀ b ∈ inputs, Offered U Λ₀ Λ' b := fun b hb =>
    hext.offered (fun x hx => (hmem x hx).1) (fun x hx => (hmem x hx).2) (hin b hb)
  have hleads := hn.leads hass hv hext.within hext.finite hoffered hrun
  refine hleads.mono fun τ ⟨hrest, ht, hlist⟩ => ⟨hrest, fun hall b hb => ?_⟩
  have happart : ∀ a ∈ (items Λ₀ Λ').genuine,
      Worklist.Apart (items Λ₀ Λ') {h | n.store.blockExists h = true} inputs a := by
    intro a ha x hx hkey
    exact Or.inl (hext.eq_of_hash (hin x hx) (hext.mem_genuine.mp ha) hkey)
  have hgenuine := hext.mem_genuine.mpr hb
  obtain ⟨hdone, hwaits⟩ := hlist.complete hrest.worklist happart hv.closed
    (fun a ha => hall a (hext.mem_genuine.mp ha)) b hgenuine
  refine ⟨ht.blockGet hgenuine hdone, fun k => ⟨fun hk => hwaits k ?_, fun hk => hwaits k ?_⟩⟩
  · exact List.mem_append_left _ hk
  · exact List.mem_append_right _ hk

namespace Signed

def openRun : Except Fault (BlockStore × List ProcessResult) :=
  Ledger.processAll env first [(1, send), (2, opens)]

/-- The ledger in which the second account is open. -/
def opened : BlockStore := (openRun.toOption.getD (.empty, [])).1

theorem openRun_eq : openRun = .ok (opened, [.progress, .progress]) := by
  have hspec : openRun.isOk = true ∧
      (openRun.toOption.getD (.empty, [])).2 = [.progress, .progress] := by
    decide +kernel
  unfold opened
  rw [← hspec.2, Prod.mk.eta]
  exact eq_ok_getD hspec.1 (.empty, [])

end Signed

/-- The open block arrives before the send that it receives. -/
theorem arrival_order_irrelevant_reversed :
    ∃ τ : NodeState, τ.AtRest ∧
      τ.node.store.blockGet (opens.hash env) = some opens := by
  have hU : ∀ x ∈ [(1, send), (2, opens)], x.2 ∈ all := by
    simp [all]
  have hrun : NodeRun nodeEnv ⟨node, .idle⟩
      ([opens, send].map .add)
      ⟨{ node with blocks := [send, opens] }, .idle⟩ :=
    (NodeRun.start.add (worked opens (by simp))).add
      (worked send (by simp))
  have hwork : ∀ x ∈ [(1, send), (2, opens)], x.2.Worked nodeEnv := by
    simp [worked]
  have hin : ∀ b ∈ [opens, send],
      b ∈ [(1, send), (2, opens)].map Prod.snd := by
    simp
  have hleads := arrival_order_irrelevant (p := nodeEnv) (n := node)
    assumptions first_reachable node_fresh hU hwork openRun_eq
    (by decide) hin hrun
  obtain ⟨τ, _, hrest, hstored⟩ := hleads.exists_run
  exact ⟨τ, hrest, (hstored (by simp) opens (by simp)).1⟩

end RaiBlocks
