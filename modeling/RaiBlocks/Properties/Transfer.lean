import RaiBlocks.Bootstrap.Segments

/-!
# Pulling a chain transfers the missing segment

The server sends the blocks of the account from the head down to the requested end,
the client reads back what was sent, and the hash it expects runs down the chain
from where the pull begins. So the client ends where it should.
-/

namespace RaiBlocks

open Foundation Bootstrap Sample BulkPullServer

/-- **Pulling a chain transfers exactly the missing segment.** The ledger of the server
is reachable and its blocks have work. A client pulls from a block `h` of the chain `l`
of an account down to `e`, which is zero or a block under `h`. It is given the blocks of
`l` above `e` from the head down, ends where it should and puts nothing back in the
queue. If the account is unknown, or the end is a block of another account, the server
sends no block. -/
theorem pull_transfers_segment {p : NodeEnv} {U : Set Block} {s : BlockStore}
    (hass : HashAssumptions p.toEnv U) (hs : Ledger.Reachable p.toEnv U s)
    (hwork : ∀ h b, s.blockGet h = some b → b.Worked p) :
    (∀ a info, s.accountGet a = some info → ∃ l, BlockSet.Chain s.blockGet info.head l ∧
      ∀ h ∈ l, ∀ e, (e = 0 ∨ ∃ lh, BlockSet.Chain s.blockGet h lh ∧ e ∈ lh) → ∀ attempts,
      ∃ bytes c, respond s a e = .ok bytes ∧
        BulkPullClient.run p (.request ⟨a, h, e, attempts⟩ bytes) = .ok c ∧
        c.added = segment s l e ∧ c.expected = e ∧ c.requeued = none) ∧
    ∀ a e, (s.accountGet a = none ∨ s.blockExists e = true ∧ ¬ BlockSet.Owner s.blockGet e a) →
      respond s a e = .ok [1] := by
  obtain ⟨Λ, hv⟩ := Ledger.Reachable.valid hass s hs
  have hr := hv.refines
  have hget := hr.blockGet_eq
  have hread := hr.blocks.readable hr.blocksInfo
  refine ⟨fun a info hi => ?_, fun a e hno => ?_⟩
  · obtain ⟨ex, hd⟩ := hr.accounts.sound hi
    obtain ⟨l, hc⟩ := Lattice.exists_chain _ ex hd.head
    refine ⟨l, hget ▸ hc, fun h hh e he attempts => ?_⟩
    obtain ⟨ey, hy, hown, hle⟩ := (Lattice.mem_chain hc hd.head).mp hh
    have hend : EndOf Λ e ey := by
      refine he.imp_right fun ⟨lh, hlh, hmem⟩ => ?_
      exact (Lattice.mem_chain (hget ▸ hlh) hy).mp hmem
    have hel : e = 0 ∨ e ∈ l := by
      refine hend.imp_right fun ⟨ee, hee, howns, hlee⟩ => ?_
      exact (Lattice.mem_chain hc hd.head).mpr ⟨ee, hee, howns.trans hown, hlee.trans hle⟩
    have hfuel : l.length < s.fuel := by
      have hlength := Lattice.chain_length hc hd.head
      have hheight := hread.height_lt_fuel hd.head
      omega
    obtain ⟨v, hloop, hwritten⟩ := loop_segment (hget ▸ hc) hel s.fuel
      { current := info.head, endHash := e } hfuel rfl rfl rfl
    obtain ⟨c, hrun, hpull, hadded, hexp⟩ := BulkPullClient.run_segment (l := l) (e := e) hwork
      ⟨a, h, e, attempts⟩
    have hexp' : c.expected = e := hexp.trans (follow_segment hr hc hd.head h ey hy hh hend)
    refine ⟨_, c, ?_, hrun, hadded, hexp', ?_⟩
    · unfold respond
      rw [setCurrentEnd_known hass hr hi hend (hown.trans hd.owner), ok_bind, hloop,
        ok_bind, hwritten]
      rfl
    · unfold BulkPullClient.requeued
      rw [hpull, if_neg (not_not.mpr hexp')]
  · obtain ⟨z, hz⟩ := setCurrentEnd_foreign hass hr hno
    obtain ⟨v, hloop, hwritten⟩ := loop_finished (s := s)
      { current := z, endHash := z } rfl rfl (s.fuel - 1)
    have hfuel : s.fuel - 1 + 1 = s.fuel := by
      have := hread.below_le_fuel 0
      omega
    unfold respond
    rw [hz, ok_bind, ← hfuel, hloop, ok_bind, hwritten]
    rfl

namespace Sample

theorem chain_stored : (store.accountGet env.genesisAccount).map AccountInfo.head = some sendHash ∧
    store.blockGet sendHash = some send ∧ store.blockGet genesisHash = some genesis := by
  decide +kernel

theorem send_chain : BlockSet.Chain store.blockGet sendHash [sendHash, genesisHash] := by
  have hlast : BlockSet.Chain store.blockGet genesisHash [genesisHash] :=
    .first chain_stored.2.2 rfl
  exact .next (b := send) chain_stored.2.1 (by decide) hlast

end Sample

/-- The client pulls what is above the genesis block. -/
theorem pull_transfers_segment_send :
    ∃ l bytes c, BlockSet.Chain store.blockGet sendHash l ∧
      respond store env.genesisAccount genesisHash = .ok bytes ∧
      BulkPullClient.run nodeEnv
        (.request ⟨env.genesisAccount, sendHash, genesisHash, 0⟩ bytes) = .ok c ∧
      c.added = segment store l genesisHash ∧ c.expected = genesisHash ∧
      c.requeued = none := by
  obtain ⟨info, hi, hhead⟩ := Option.map_eq_some_iff.mp chain_stored.1
  obtain ⟨l, hl, hpull⟩ := (pull_transfers_segment (p := nodeEnv) assumptions
    reachable (fun _ b _ => worked b)).1 _ info hi
  rw [hhead] at hl
  have hmem : sendHash ∈ l := by
    cases hl with
    | first => exact List.mem_cons_self
    | next => exact List.mem_cons_self
  obtain ⟨bytes, c, hrespond, hrun, hadded, hexp, hnone⟩ := hpull _ hmem genesisHash
    (Or.inr ⟨_, send_chain, by simp⟩) 0
  exact ⟨l, bytes, c, hl, hrespond, hrun, hadded, hexp, hnone⟩

end RaiBlocks
