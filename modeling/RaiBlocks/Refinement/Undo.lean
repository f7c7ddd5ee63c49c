import RaiBlocks.Refinement.Shrink
import RaiBlocks.Refinement.Commit
import RaiBlocks.Ledger.Rollback

/-!
# The writes of a rollback

The methods of `rollback_visitor`, for a head on which nothing rests any more.
Each recomputes what it needs by walking the chains, and its writes are the
ones `Removed` lists. The loops that first clear away the receivers are left to
`Refinement.Rollback`.
-/

namespace RaiBlocks

open Foundation BlockStore Ledger RaiBlocks.Lattice Database BlocksOk

variable {p : Env} {U : Set Block} {Λ : Lattice p} {s s' : BlockStore} {h : BlockHash}
  {e q rep : Entry}

/-! ## Weights -/

/-- The representation table has given up the share of the removed head and
taken up that of its predecessor. -/
def WeightsMoved (s s' : BlockStore) (Λ : Lattice p) (e : Entry) : Prop :=
  ∀ r, s'.representationGet r + BitVec.ofNat 128 (entryWeight Λ r e) =
    s.representationGet r + BitVec.ofNat 128 ((Λ.entry e.block.previous).elim 0 (entryWeight Λ r))

theorem ofNat_entryWeight (hrep : Λ.entry e.rep = some rep) (r : Account) :
    BitVec.ofNat 128 (entryWeight Λ r e) =
      if rep.block.representative = r then BitVec.ofNat 128 e.balance else 0 := by
  unfold entryWeight repAccount
  rw [hrep]
  simp only [Option.map_some, Option.some.injEq]
  split <;> rfl

/-- One correction is enough when the block named no representative. -/
theorem weightsMoved_inherit {x : Uint128} (hq : Λ.entry e.block.previous = some q)
    (hrep : Λ.entry e.rep = some rep) (hsame : e.rep = q.rep)
    (hx : x + BitVec.ofNat 128 e.balance = BitVec.ofNat 128 q.balance)
    (hget : ∀ r, s'.representationGet r = s.representationGet r +
      if rep.block.representative = r then x else 0) :
    WeightsMoved s s' Λ e := by
  intro r
  rw [hq, Option.elim_some, hget, ofNat_entryWeight hrep, ofNat_entryWeight (hsame ▸ hrep)]
  split
  · rw [add_assoc, hx]
  · simp

/-- One correction is enough when there is no block below. -/
theorem weightsMoved_first (hnone : Λ.entry e.block.previous = none)
    (hrep : Λ.entry e.rep = some rep)
    (hget : ∀ r, s'.representationGet r = s.representationGet r +
      if rep.block.representative = r then 0 - BitVec.ofNat 128 e.balance else 0) :
    WeightsMoved s s' Λ e := by
  intro r
  rw [hnone, Option.elim_none, hget, ofNat_entryWeight hrep]
  split
  · rw [add_assoc, zero_sub, neg_add_cancel]
    rfl
  · rw [add_assoc, add_zero]
    rfl

/-- Two corrections when both blocks name a representative. -/
theorem weightsMoved_named {below : Entry} (hq : Λ.entry e.block.previous = some q)
    (hrep : Λ.entry e.rep = some rep) (hbelow : Λ.entry q.rep = some below)
    (hget : ∀ r, s'.representationGet r = s.representationGet r +
      (if rep.block.representative = r then 0 - BitVec.ofNat 128 e.balance else 0) +
      if below.block.representative = r then BitVec.ofNat 128 q.balance else 0) :
    WeightsMoved s s' Λ e := by
  intro r
  rw [hq, Option.elim_some, hget, ofNat_entryWeight hrep, ofNat_entryWeight hbelow]
  split
  · ring
  · ring

/-- When the tables and the weights have both moved, the drift is what it
was. -/
theorem drift_erase {Λ' : Lattice p}
    (hw : ∀ r, entryWeight Λ r e + weight s'.accounts Λ' r =
      (Λ.entry e.block.previous).elim 0 (entryWeight Λ r) + weight s.accounts Λ r)
    (hm : WeightsMoved s s' Λ e) (r : Account) : drift s' Λ' r = drift s Λ r := by
  have hw' := congrArg (BitVec.ofNat 128) (hw r)
  rw [BitVec.ofNat_add, BitVec.ofNat_add] at hw'
  have hm' := hm r
  unfold drift
  linear_combination hm' - hw'

/-! ## Single writes -/

/-- `change_latest` back to the predecessor. -/
theorem Ledger.changeLatest_below {info : AccountInfo} (hq : Λ.entry e.block.previous = some q)
    (hfol : e.Follows q) (hi : s.accounts.lookup e.owner = some info)
    (hc : ∃ c, s.checksum.lookup 0 = some c) (now : ℕ) {rep : BlockHash} {balance : Uint128}
    {count : ℕ} (hrep : rep = q.rep) (hbal : balance = BitVec.ofNat 128 q.balance)
    (hcount : count = q.height) :
    ∃ t, changeLatest now s e.owner e.block.previous rep balance count false =
      .ok { s with
        accounts := accountsErase now s.accounts e (some q)
        blocksInfo := blocksInfoBelow s.blocksInfo e (some q)
        checksum := t } ∧ ∃ c, t.lookup 0 = some c := by
  subst hrep hbal hcount
  have hrow : s.accounts.lookup e.owner ≠ none := by simp [hi]
  obtain ⟨t, hlatest, hcheck⟩ := changeLatest_eq hc (Λ.ne_zero hq)
    (fun hn => absurd hn hrow) now q.rep (BitVec.ofNat 128 q.balance) q.height false
  refine ⟨t, hlatest.trans ?_, hcheck⟩
  unfold accountsErase accountRow blocksInfoBelow Entry.blockInfo
  dsimp only
  rw [hfol.owner]
  simp only [and_true]

/-- `change_latest` to zero deletes the account. -/
theorem Ledger.changeLatest_zero {a : Account} {info : AccountInfo}
    (hi : s.accounts.lookup a = some info) (hc : ∃ c, s.checksum.lookup 0 = some c) (now : ℕ)
    (rep : BlockHash) (balance : Uint128) (count : ℕ) (isState : Bool) :
    ∃ t, changeLatest now s a 0 rep balance count isState =
      .ok { s with accounts := s.accounts.erase a, checksum := t } ∧
      ∃ c, t.lookup 0 = some c := by
  obtain ⟨c, hc⟩ := hc
  obtain ⟨t, ht, hcheck⟩ := checksumUpdate_eq hc info.head
  refine ⟨t, ?_, hcheck⟩
  unfold changeLatest accountGet accountDel
  simp only [hi, ht, ok_bind, pure_bind]
  rw [if_neg (not_not.mpr rfl)]
  rfl

/-! ## Blocks -/

section Blocks

variable (rm : Λ.Removable h e) {d : Database}

include rm

omit rm in
theorem BlocksOk.erasedStored_zero (hb : BlocksOk d Λ) (x : BlockHash) :
    erasedStored d.stored h 0 x = if x = h then none else d.stored x := by
  unfold erasedStored
  by_cases hx : x = 0
  · rw [if_pos hx, hx, hb.stored_none Λ.entry_zero]
    rfl
  · rw [if_neg hx]

/-- The two writes that take the head off its predecessor, in either order. -/
theorem BlocksOk.clear_stored {d' : Database} (hb : BlocksOk d Λ)
    (hq : Λ.entry e.block.previous = some q)
    (hst : ∀ x, d'.stored x =
      putStored (fun x => if x = h then none else d.stored x) e.block.previous q.block x) :
    ∀ x, d'.stored x = erasedStored d.stored h e.block.previous x := by
  intro x
  have hpre := rm.previous_ne
  rw [hst, putStored, erasedStored]
  by_cases hxq : q.block.previous ≠ 0 ∧ x = q.block.previous
  · -- the block under the predecessor already points at it
    rw [if_pos hxq]
    obtain ⟨q', hq', hfol'⟩ := follows_of_previous_ne hq hxq.1
    have hxp : x ≠ e.block.previous := by
      intro heq
      have hrank := hfol'.rank
      rw [← hxq.2, heq, hq] at hq'
      rw [Option.some.inj hq'] at hrank
      exact lt_irrefl _ hrank
    have hxh : x ≠ h := by
      intro heq
      exact rm.head _ q hq (hxq.2.symm.trans heq)
    rw [if_neg hxh, if_neg hxh, if_neg hxp]
    obtain ⟨y, hy, hnext⟩ := hb.stored_some (hxq.2 ▸ hq')
    rw [hy, Option.map_some]
    rcases hnext with ⟨hhead, _⟩ | ⟨e', he', hp⟩
    · exact absurd hxq.2.symm (hhead _ q hq)
    · rw [previous_inj hq he' (hxq.2.symm.trans hp.symm) hxq.1]
  · rw [if_neg hxq]
    by_cases hxp : x = e.block.previous
    · obtain ⟨y, hy, _⟩ := hb.stored_some hq
      rw [if_pos hxp, hxp, if_neg hpre, if_pos rfl, hy]
      rfl
    · rw [if_neg hxp, if_neg hxp]

/-- `block_successor_clear` of the predecessor, before or after the head is
deleted: `removed` tells which. -/
theorem BlocksOk.blockSuccessorClear (hb : BlocksOk d Λ)
    (hq : Λ.entry e.block.previous = some q) (hc : Coherent s.blockDatabase)
    (hst : ∀ x, x ≠ h → stored s.blockDatabase x = d.stored x) :
    ∃ d', s.blockSuccessorClear p e.block.previous = .ok { s with blockDatabase := d' } ∧
      Coherent d' ∧ ∀ x, stored d' x =
        putStored (stored s.blockDatabase) e.block.previous q.block x := by
  obtain ⟨y, hy, _⟩ := hb.stored_some hq
  refine blockSuccessorClear_eq hc (v := ⟨q.block, y⟩) ?_ (Λ.hash_eq hq) ?_
  · rw [hst _ rm.previous_ne, hy]
  · rcases first_or_follows hq with hf | ⟨q', hq', hfol'⟩
    · exact Or.inl ⟨hf.previous, by rw [hf.account]; exact Option.some_ne_none _⟩
    · obtain ⟨y', hy', _⟩ := hb.stored_some hq'
      refine Or.inr ⟨?_, Λ.ne_zero hq', _, (hst _ (rm.head _ q hq)).trans hy'⟩
      intro heq
      have hrank := hfol'.rank
      rw [show q.block.previous = e.block.previous from heq, hq] at hq'
      rw [Option.some.inj hq'] at hrank
      exact lt_irrefl _ hrank

/-- The common end of undoing a send, a receive or a change, once the block is
deleted and the account row is back. -/
theorem restorePrevious_eq {t : Table BlockHash BlockInfo} (hl : e.block.isLegacy = true)
    (hq : Λ.entry e.block.previous = some q) (hfol : e.Follows q) (hb : BlocksOk d Λ)
    (hf : FrontiersOk s.frontiers Λ) (hi : BlocksInfoOk U t Λ) (hc : Coherent s.blockDatabase)
    (hst : ∀ x, stored s.blockDatabase x = if x = h then none else d.stored x)
    (hinfo : s.blocksInfo = blocksInfoBelow t e (some q)) :
    ∃ d', restorePrevious p s h e.block.previous e.owner e.height =
      .ok { s with
        frontiers := frontiersErase s.frontiers h e (some q)
        blockDatabase := d'
        blocksInfo := blocksInfoErase t h e (some q) } ∧ Coherent d' ∧
      ∀ x, stored d' x = erasedStored d.stored h e.block.previous x := by
  have hfront : s.frontiers.lookup h = some e.owner :=
    (hf h e.owner).mpr ⟨e, rm.stored, rfl, rm.head, hl⟩
  obtain ⟨d', hclear, hc', hst'⟩ := blockSuccessorClear
    (s := { s with frontiers := (s.frontiers.erase h).insert e.block.previous e.owner }) rm hb hq hc
    (fun x hx => (hst x).trans (if_neg hx))
  have hfinal : ∀ x, stored d' x = erasedStored d.stored h e.block.previous x :=
    hb.clear_stored rm hq fun x => by
      rw [hst', show stored s.blockDatabase = _ from funext hst]
  refine ⟨d', ?_, hc', hfinal⟩
  have hrow : (blocksInfoBelow t e (some q)).lookup h = t.lookup h := by
    unfold blocksInfoBelow
    dsimp only
    split
    · rw [Table.lookup_insert_ite, if_neg rm.previous_ne.symm]
    · rfl
  unfold restorePrevious
  rw [frontierDel_eq hfront, ok_bind]
  dsimp only [frontierPut]
  rw [hclear, ok_bind]
  unfold frontiersErase blocksInfoErase
  dsimp only
  rw [if_pos (hfol.legacy hl)]
  by_cases hmod : e.height % blockInfoMax = 0
  · rw [if_pos hmod, if_pos ⟨hmod, hl⟩, blockInfoDel_eq (i := e.blockInfo), hinfo]
    show s.blocksInfo.lookup h = _
    rw [hinfo, hrow, hi.legacy rm.stored hl, if_pos hmod]
  · rw [if_neg hmod, if_neg fun h => hmod h.1, ← hinfo]
    rfl

end Blocks

/-! ## The visitor methods -/

section Undo

variable (hr : Refines U s Λ) (rm : Λ.Removable h e)

include hr rm

theorem sendBlockUndo_removed {b : SendBlock} (hblock : e.block = .sendBlock b) (now : ℕ) :
    ∃ s', sendBlockUndo p now s b = .ok s' ∧ Removed now s s' Λ h e ∧
      WeightsMoved s s' Λ e := by
  obtain ⟨info, hi, _, hd⟩ := hr.accounts.of_head rm.stored rm.head
  obtain ⟨q, hq, hfol⟩ := follows_of_account?_eq rm.stored (by rw [hblock]; rfl)
  have hsend : e.sendsTo = some b.hashables.destination := by
    unfold Entry.sendsTo
    rw [hblock]
  have hmove : e.balance + e.amount = e.prior := by
    cases rm.moves with
    | sends _ _ hmove => exact hmove
    | takes hn => cases hn.symm.trans hsend
    | keeps hn => cases hn.symm.trans hsend
  have hrow : s.pending.lookup ⟨b.hashables.destination, h⟩ = some e.pendingInfo :=
    (hr.pending _ _ _).mpr ⟨e, rm.stored, hsend, rm.unreceived, rfl⟩
  have hinherit : e.rep = q.rep := hfol.rep (by rw [hblock]; rfl)
  obtain ⟨rep, hrep, _⟩ := rep_entry _ e rm.stored
  -- the store after each write, with the tables the later steps read unchanged
  have hrepr := (readable
    (s := { s with pending := s.pending.erase ⟨b.hashables.destination, h⟩ }) hr.blocks
    hr.blocksInfo).representative rm.stored
  obtain ⟨w, hadd, hget⟩ := representationAdd
    (s := { s with pending := s.pending.erase ⟨b.hashables.destination, h⟩ }) hr.blocks hrep
    (BitVec.ofNat 128 e.amount)
  have hbalance := (readable (s := { s with
      pending := s.pending.erase ⟨b.hashables.destination, h⟩
      representation := w }) hr.blocks hr.blocksInfo).balance hq
  obtain ⟨t, hlatest, hcheck⟩ := changeLatest_below hq hfol (s := { s with
      pending := s.pending.erase ⟨b.hashables.destination, h⟩
      representation := w }) hi hr.checksum now (hd.rep.trans hinherit) rfl
      (show info.blockCount - 1 = q.height by rw [hd.count, hfol.height]; rfl)
  obtain ⟨y, hy, _⟩ := hr.blocks.stored_some rm.stored
  obtain ⟨d, hdel, hc, hst⟩ := blockDel_eq (s := { s with
      pending := s.pending.erase ⟨b.hashables.destination, h⟩
      representation := w
      accounts := accountsErase now s.accounts e (some q)
      blocksInfo := blocksInfoBelow s.blocksInfo e (some q)
      checksum := t }) hr.blocks.coherent hy
  obtain ⟨d', hrestore, hc', hst'⟩ := restorePrevious_eq rm (s := { s with
      pending := s.pending.erase ⟨b.hashables.destination, h⟩
      representation := w
      accounts := accountsErase now s.accounts e (some q)
      blocksInfo := blocksInfoBelow s.blocksInfo e (some q)
      checksum := t
      blockDatabase := d }) (by rw [hblock]; rfl) hq hfol hr.blocks hr.frontiers hr.blocksInfo
      hc hst rfl
  have hprev : b.hashables.previous = e.block.previous := by
    rw [hblock]
    rfl
  unfold sendBlockUndo pendingGet accountGet
  rw [show (Block.sendBlock b).hash p = h from hblock ▸ Λ.hash_eq rm.stored, hprev]
  dsimp only
  rw [hrow]
  dsimp only [Entry.pendingInfo]
  rw [hi]
  dsimp only
  rw [pendingDel_eq hrow, ok_bind, hrepr, ok_bind, hadd, ok_bind, hbalance, ok_bind,
    hlatest, ok_bind, hdel, ok_bind, hd.count, hrestore]
  refine ⟨_, rfl, ⟨hc', hst', ?_, ?_, ?_, ?_, hcheck⟩, ?_⟩
  · rw [hq]
  · rw [hq]
  · exact (pendingErase_sends hsend _).symm
  · rw [hq]
  · refine weightsMoved_inherit hq hrep hinherit ?_ hget
    rw [← BitVec.ofNat_add, Nat.add_comm, hmove, hfol.prior]

variable (hass : HashAssumptions p U)

include hass

theorem rollbackReceive_removed {b : ReceiveBlock} (hblock : e.block = .receiveBlock b)
    (now : ℕ) :
    ∃ s', rollbackReceive p now s b = .ok s' ∧ Removed now s s' Λ h e ∧
      WeightsMoved s s' Λ e := by
  obtain ⟨info, hi, _, hd⟩ := hr.accounts.of_head rm.stored rm.head
  obtain ⟨q, hq, hfol⟩ := follows_of_account?_eq rm.stored (by rw [hblock]; rfl)
  have hrec : e.receives p = some b.hashables.source := by
    unfold Entry.receives
    rw [hblock]
  obtain ⟨src, hs, ht⟩ := (Λ.justified rm.stored).takes hrec
  have hinherit : e.rep = q.rep := hfol.rep (by rw [hblock]; rfl)
  obtain ⟨rep, hrep, _⟩ := rep_entry _ e rm.stored
  have hread := hr.blocks.readable hr.blocksInfo
  have howner : ∀ {x a}, Λ.entry x = some a → account s x = .ok a.owner :=
    fun hx => hr.blocks.account hass hr.frontiers hr.blocksInfo hx
  obtain ⟨w, hadd, hget⟩ := hr.blocks.representationAdd hrep (0 - BitVec.ofNat 128 src.amount)
  have hbalance := (readable (s := { s with representation := w }) hr.blocks
    hr.blocksInfo).balance hq
  obtain ⟨t, hlatest, hcheck⟩ := changeLatest_below hq hfol
    (s := { s with representation := w }) hi hr.checksum now (Eq.refl q.rep) rfl
    (show info.blockCount - 1 = q.height by rw [hd.count, hfol.height]; rfl)
  obtain ⟨y, hy, _⟩ := hr.blocks.stored_some rm.stored
  obtain ⟨d, hdel, hc, hst⟩ := blockDel_eq (s := { s with
      representation := w
      accounts := accountsErase now s.accounts e (some q)
      blocksInfo := blocksInfoBelow s.blocksInfo e (some q)
      checksum := t }) hr.blocks.coherent hy
  obtain ⟨d', hrestore, hc', hst'⟩ := restorePrevious_eq rm (s := { s with
      pending := s.pending.insert ⟨e.owner, b.hashables.source⟩ src.pendingInfo
      representation := w
      accounts := accountsErase now s.accounts e (some q)
      blocksInfo := blocksInfoBelow s.blocksInfo e (some q)
      checksum := t
      blockDatabase := d }) (by rw [hblock]; rfl) hq hfol hr.blocks hr.frontiers hr.blocksInfo
      hc hst rfl
  have hprev : b.hashables.previous = e.block.previous := by
    rw [hblock]
    rfl
  unfold rollbackReceive accountGet
  rw [show (Block.receiveBlock b).hash p = h from hblock ▸ Λ.hash_eq rm.stored, hprev]
  dsimp only
  rw [hread.representative hq, ok_bind, hread.amount hs, ok_bind, howner rm.stored, ok_bind,
    howner hs, ok_bind, hi]
  dsimp only
  rw [hread.representative rm.stored, ok_bind, hadd, ok_bind, hbalance, ok_bind, hlatest, ok_bind,
    hdel, ok_bind]
  dsimp only [pendingPut]
  rw [hd.count]
  refine ⟨_, hrestore, ⟨hc', hst', ?_, ?_, ?_, ?_, hcheck⟩, ?_⟩
  · rw [hq]
  · rw [hq]
  · exact (pendingErase_receives hrec hs _).symm
  · rw [hq]
  · refine weightsMoved_inherit hq hrep hinherit ?_ hget
    rw [ht.balance, hfol.prior, BitVec.ofNat_add]
    ring

theorem rollbackOpen_removed {b : OpenBlock} (hblock : e.block = .openBlock b) (now : ℕ) :
    ∃ s', rollbackOpen p now s b = .ok s' ∧ Removed now s s' Λ h e ∧
      WeightsMoved s s' Λ e := by
  obtain ⟨info, hi, _, hd⟩ := hr.accounts.of_head rm.stored rm.head
  have hf : e.First := first_of_previous_eq rm.stored (by rw [hblock]; rfl)
  have hnone : Λ.entry e.block.previous = none := by rw [hf.previous, Λ.entry_zero]
  have hrec : e.receives p = some b.hashables.source :=
    ((Λ.justified rm.stored).of_openBlock rm.ne_genesis hblock).2.1
  obtain ⟨src, hs, ht⟩ := (Λ.justified rm.stored).takes hrec
  obtain ⟨rep, hrep, _⟩ := rep_entry _ e rm.stored
  have hread := hr.blocks.readable hr.blocksInfo
  have howner : ∀ {x a}, Λ.entry x = some a → account s x = .ok a.owner :=
    fun hx => hr.blocks.account hass hr.frontiers hr.blocksInfo hx
  have hfront : s.frontiers.lookup h = some e.owner :=
    (hr.frontiers h e.owner).mpr ⟨e, rm.stored, rfl, rm.head, by rw [hblock]; rfl⟩
  obtain ⟨w, hadd, hget⟩ := hr.blocks.representationAdd hrep (0 - BitVec.ofNat 128 src.amount)
  obtain ⟨t, hlatest, hcheck⟩ := changeLatest_zero (s := { s with representation := w })
    hi hr.checksum now 0 0 0 false
  obtain ⟨y, hy, _⟩ := hr.blocks.stored_some rm.stored
  obtain ⟨d, hdel, hc, hst⟩ := blockDel_eq (s := { s with
      representation := w
      accounts := s.accounts.erase e.owner
      checksum := t }) hr.blocks.coherent hy
  unfold rollbackOpen
  rw [show (Block.openBlock b).hash p = h from hblock ▸ Λ.hash_eq rm.stored]
  dsimp only
  rw [hread.amount hs, ok_bind, howner rm.stored, ok_bind, howner hs, ok_bind,
    hread.representative rm.stored, ok_bind, hadd, ok_bind, hlatest, ok_bind, hdel, ok_bind]
  dsimp only [pendingPut]
  rw [frontierDel_eq (a := e.owner)]
  · refine ⟨_, rfl, ⟨hc, fun x => ?_, ?_, ?_, ?_, ?_, hcheck⟩, ?_⟩
    · rw [hf.previous, hr.blocks.erasedStored_zero]
      exact hst x
    · rw [hnone]
      rfl
    · rw [hnone]
      rfl
    · exact (pendingErase_receives hrec hs _).symm
    · unfold blocksInfoErase
      rw [hf.height, if_neg (fun hm => absurd hm.1 (by decide)), hnone]
      rfl
    · refine weightsMoved_first hnone hrep fun r => ?_
      rw [ht.balance, hf.prior, Nat.zero_add]
      exact hget r
  · exact hfront

theorem rollbackChange_removed {b : ChangeBlock} (hblock : e.block = .changeBlock b) (now : ℕ) :
    ∃ s', rollbackChange p now s b = .ok s' ∧ Removed now s s' Λ h e ∧
      WeightsMoved s s' Λ e := by
  obtain ⟨info, hi, _, hd⟩ := hr.accounts.of_head rm.stored rm.head
  obtain ⟨q, hq, hfol⟩ := follows_of_account?_eq rm.stored (by rw [hblock]; rfl)
  have hsend : e.sendsTo = none := by
    unfold Entry.sendsTo
    rw [hblock]
  have hrec : e.receives p = none := by
    unfold Entry.receives
    rw [hblock]
  have hkeep : e.balance = q.balance := by
    cases rm.moves with
    | sends hn => cases hn.symm.trans hsend
    | takes _ hn => cases hn.symm.trans hrec
    | keeps _ _ hkeep => exact hkeep.trans hfol.prior
  have hself : e.rep = h := (Λ.justified rm.stored).rep_self (by rw [hblock]; rfl)
  have hrep : Λ.entry e.rep = some e := hself ▸ rm.stored
  obtain ⟨below, hbelow, _⟩ := rep_entry _ q hq
  have hread := hr.blocks.readable hr.blocksInfo
  have howner := hr.blocks.account hass hr.frontiers hr.blocksInfo hq
  rw [hfol.owner] at howner
  obtain ⟨w₁, hadd₁, hget₁⟩ := hr.blocks.representationAdd hbelow (BitVec.ofNat 128 q.balance)
  obtain ⟨w₂, hadd₂, hget₂⟩ := representationAdd (s := { s with representation := w₁ })
    hr.blocks rm.stored (0 - BitVec.ofNat 128 q.balance)
  obtain ⟨y, hy, _⟩ := hr.blocks.stored_some rm.stored
  obtain ⟨d, hdel, hc, hst⟩ := blockDel_eq (s := { s with representation := w₂ })
    hr.blocks.coherent hy
  obtain ⟨t, hlatest, hcheck⟩ := changeLatest_below hq hfol
    (s := { s with representation := w₂, blockDatabase := d }) hi hr.checksum now
    (Eq.refl q.rep)
    (show info.balance = BitVec.ofNat 128 q.balance by rw [eq_ofNat_of_toNat hd.balance, hkeep])
    (show info.blockCount - 1 = q.height by rw [hd.count, hfol.height]; rfl)
  obtain ⟨d', hrestore, hc', hst'⟩ := restorePrevious_eq rm (s := { s with
      representation := w₂
      accounts := accountsErase now s.accounts e (some q)
      blocksInfo := blocksInfoBelow s.blocksInfo e (some q)
      checksum := t
      blockDatabase := d }) (by rw [hblock]; rfl) hq hfol hr.blocks hr.frontiers hr.blocksInfo
      hc hst rfl
  have hprev : b.hashables.previous = e.block.previous := by
    rw [hblock]
    rfl
  unfold rollbackChange accountGet
  rw [show (Block.changeBlock b).hash p = h from hblock ▸ Λ.hash_eq rm.stored, hprev]
  dsimp only
  rw [hread.representative hq, ok_bind, howner, ok_bind, hi]
  dsimp only
  rw [hread.balance hq, ok_bind, hadd₁, ok_bind, hadd₂, ok_bind, hdel, ok_bind, hlatest, ok_bind,
    hd.count]
  refine ⟨_, hrestore, ⟨hc', hst', ?_, ?_, ?_, ?_, hcheck⟩, ?_⟩
  · rw [hq]
  · rw [hq]
  · exact (pendingErase_keeps hsend hrec _).symm
  · rw [hq]
  · refine weightsMoved_named hq hrep hbelow fun r => ?_
    rw [hkeep]
    refine (hget₂ r).trans ((congrArg (· + _) (hget₁ r)).trans ?_)
    exact add_right_comm _ _ _

end Undo

/-! ## State blocks -/

section State

variable {b : StateBlock} (hblock : e.block = .stateBlock b)

include hblock

theorem stateBlock_previous : b.hashables.previous = e.block.previous := by
  rw [hblock]
  rfl

/-- The representative block and the balance under a state block, as rollback
computes them. -/
theorem stateBlock_below (hread : Readable s Λ) (he : Λ.entry h = some e) :
    (if b.hashables.previous ≠ 0 then representative p s b.hashables.previous
      else pure 0) = .ok ((Λ.entry e.block.previous).elim 0 Entry.rep) ∧
    balance p s b.hashables.previous = .ok (BitVec.ofNat 128 e.prior) := by
  rw [stateBlock_previous hblock]
  rcases first_or_follows he with hf | ⟨q, hq, hfol⟩
  · rw [hf.previous, if_neg (not_not.mpr rfl), Λ.entry_zero, hf.prior, balance_zero]
    exact ⟨rfl, rfl⟩
  · rw [if_pos (Λ.ne_zero hq), hq, hfol.prior]
    exact ⟨hread.representative hq, hread.balance hq⟩

theorem stateBlockReweigh_eq (hb : BlocksOk s.blockDatabase Λ) (he : Λ.entry h = some e) :
    ∃ w, stateBlockReweigh s h b ((Λ.entry e.block.previous).elim 0 Entry.rep)
        (BitVec.ofNat 128 e.prior) = .ok { s with representation := w } ∧
      WeightsMoved s { s with representation := w } Λ e := by
  have hself : e.rep = h := (Λ.justified he).rep_self (by rw [hblock]; rfl)
  have hrep : Λ.entry e.rep = some e := hself ▸ he
  have hbal : b.hashables.balance = BitVec.ofNat 128 e.balance :=
    (Λ.justified he).balance?_eq (by rw [hblock]; rfl)
  obtain ⟨w₁, hadd₁, hget₁⟩ := hb.representationAdd he (0 - b.hashables.balance)
  unfold stateBlockReweigh
  rw [hadd₁, ok_bind]
  rw [hbal] at hget₁
  rcases first_or_follows he with hf | ⟨q, hq, hfol⟩
  · have hnone : Λ.entry e.block.previous = none := by rw [hf.previous, Λ.entry_zero]
    rw [hnone, Option.elim_none, if_neg (not_not.mpr rfl)]
    exact ⟨w₁, rfl, weightsMoved_first hnone hrep hget₁⟩
  · obtain ⟨below, hbelow, _⟩ := rep_entry _ q hq
    obtain ⟨w₂, hadd₂, hget₂⟩ := representationAdd (s := { s with representation := w₁ })
      hb hbelow (BitVec.ofNat 128 e.prior)
    rw [hq, Option.elim_some, if_pos (Λ.ne_zero hbelow)]
    refine ⟨w₂, hadd₂, weightsMoved_named hq hrep hbelow fun r => ?_⟩
    rw [← hfol.prior]
    exact (hget₂ r).trans (congrArg (· + _) (hget₁ r))

variable (hr : Refines U s Λ) (rm : Λ.Removable h e)

include hr rm

theorem frontiers_erase_state : s.frontiers.erase h = s.frontiers := by
  refine Table.erase_of_lookup_none ?_
  cases hl : s.frontiers.lookup h with
  | none => rfl
  | some a =>
    obtain ⟨e', he', _, _, hlegacy⟩ := (hr.frontiers _ _).mp hl
    obtain rfl := Option.some.inj (rm.stored.symm.trans he')
    rw [hblock] at hlegacy
    cases hlegacy

omit hr in
/-- The last two steps of undoing a state block: the predecessor loses its
successor and may be a frontier again, and the block goes. -/
theorem stateBlockRestore_del (hb : BlocksOk s.blockDatabase Λ)
    (hq : Λ.entry e.block.previous = some q) (howner : b.hashables.account = e.owner) :
    ∃ d, (stateBlockRestorePrevious p s b >>= fun s => s.blockDel h) = .ok { s with
        blockDatabase := d
        frontiers := if q.block.isLegacy then s.frontiers.insert e.block.previous e.owner
          else s.frontiers } ∧ Coherent d ∧
      ∀ x, stored d x =
        erasedStored (stored s.blockDatabase) h e.block.previous x := by
  obtain ⟨d₁, hclear, hc₁, hst₁⟩ := blockSuccessorClear (s := s) rm hb hq hb.coherent
    fun x _ => rfl
  obtain ⟨y, hy, _⟩ := hb.stored_some rm.stored
  have hkeep : stored d₁ h = some ⟨e.block, y⟩ := by
    rw [hst₁, putStored, if_neg fun hx => rm.head _ q hq hx.2.symm, if_neg rm.previous_ne.symm, hy]
  obtain ⟨d, hdel, hc, hst⟩ := blockDel_eq (s := { s with
    blockDatabase := d₁
    frontiers := if q.block.isLegacy then s.frontiers.insert e.block.previous e.owner
      else s.frontiers }) hc₁ hkeep
  refine ⟨d, ?_, hc, hb.clear_stored rm hq fun x => ?_⟩
  · unfold stateBlockRestorePrevious
    rw [stateBlock_previous hblock, hb.blockGet, hq, howner]
    dsimp only [Option.map_some]
    rw [hclear, ok_bind]
    refine Eq.trans ?_ hdel
    by_cases hl : q.block.isLegacy
    · rw [if_pos hl, if_pos hl]
      rfl
    · rw [if_neg hl, if_neg hl]
      rfl
  · rw [hst, hst₁]
    unfold putStored
    by_cases hx : x = h
    · rw [if_pos hx, if_neg fun hx' => rm.head _ q hq (hx'.2.symm.trans hx),
        if_neg (hx ▸ rm.previous_ne.symm)]
      exact (if_pos hx).symm
    · simp only [if_neg hx]

theorem stateBlockUndo_removed (now : ℕ) :
    ∃ s', stateBlockUndo p now { s with pending := pendingErase Λ s.pending h e } b
        ((Λ.entry e.block.previous).elim 0 Entry.rep) (BitVec.ofNat 128 e.prior) = .ok s' ∧
      Removed now s s' Λ h e ∧ s'.representation = s.representation := by
  obtain ⟨info, hi, _, hd⟩ := hr.accounts.of_head rm.stored rm.head
  have howner : b.hashables.account = e.owner :=
    account?_eq rm.stored (by rw [hblock]; rfl)
  have hstate : ¬ (e.height % blockInfoMax = 0 ∧ e.block.isLegacy = true) := by
    rintro ⟨_, hl⟩
    rw [hblock] at hl
    cases hl
  have hfronts := frontiers_erase_state hblock hr rm
  obtain ⟨y, hy, _⟩ := hr.blocks.stored_some rm.stored
  unfold stateBlockUndo accountGet
  rw [show (Block.stateBlock b).hash p = h from hblock ▸ Λ.hash_eq rm.stored, howner]
  dsimp only
  rw [hi]
  dsimp only
  rw [stateBlock_previous hblock]
  rcases first_or_follows rm.stored with hf | ⟨q, hq, hfol⟩
  · have hnone : Λ.entry e.block.previous = none := by rw [hf.previous, Λ.entry_zero]
    obtain ⟨t, hlatest, hcheck⟩ := changeLatest_zero (a := e.owner)
      (s := { s with pending := pendingErase Λ s.pending h e }) hi hr.checksum now
      ((Λ.entry e.block.previous).elim 0 Entry.rep) (BitVec.ofNat 128 e.prior)
      (info.blockCount - 1) false
    obtain ⟨d, hdel, hc, hst⟩ := blockDel_eq (s := { s with
      pending := pendingErase Λ s.pending h e
      accounts := s.accounts.erase e.owner
      checksum := t }) hr.blocks.coherent hy
    have hprev : stateBlockRestorePrevious p { s with
        pending := pendingErase Λ s.pending h e
        accounts := s.accounts.erase e.owner
        checksum := t } b = .ok { s with
        pending := pendingErase Λ s.pending h e
        accounts := s.accounts.erase e.owner
        checksum := t } := by
      unfold stateBlockRestorePrevious
      rw [stateBlock_previous hblock, blockGet (Λ := Λ), hnone]
      · rfl
      · exact hr.blocks
    rw [hf.previous] at hlatest ⊢
    rw [hlatest, ok_bind, hprev, ok_bind, hdel]
    refine ⟨_, rfl, ⟨hc, fun x => ?_, ?_, ?_, rfl, ?_, hcheck⟩, rfl⟩
    · rw [hf.previous, hr.blocks.erasedStored_zero]
      exact hst x
    · rw [hnone]
      rfl
    · rw [hnone]
      exact hfronts.symm
    · unfold blocksInfoErase
      rw [if_neg hstate, hnone]
      rfl
  · obtain ⟨t, hlatest, hcheck⟩ := changeLatest_below hq hfol
      (s := { s with pending := pendingErase Λ s.pending h e }) hi hr.checksum now
      (show (Λ.entry e.block.previous).elim 0 Entry.rep = q.rep by rw [hq, Option.elim_some])
      (congrArg _ hfol.prior)
      (show info.blockCount - 1 = q.height by rw [hd.count, hfol.height]; rfl)
    obtain ⟨d, hrestore, hc, hst⟩ := stateBlockRestore_del hblock (s := { s with
      pending := pendingErase Λ s.pending h e
      accounts := accountsErase now s.accounts e (some q)
      blocksInfo := blocksInfoBelow s.blocksInfo e (some q)
      checksum := t }) rm hr.blocks hq howner
    rw [hlatest, ok_bind, hrestore]
    refine ⟨_, rfl, ⟨hc, hst, ?_, ?_, rfl, ?_, hcheck⟩, rfl⟩
    · rw [hq]
    · rw [hq, frontiersErase, hfronts]
    · rw [hq, blocksInfoErase, if_neg hstate]

end State

end RaiBlocks
