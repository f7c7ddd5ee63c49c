import RaiBlocks.Refinement.Growth
import RaiBlocks.Ledger.Process

/-!
# The writes of an accepted block

The five `...Commit` parts of `ledger_processor`. Each is run on a store that
refines a lattice to which the block may be added; it does not fail, and its
writes are the ones `Inserted` lists.
-/

namespace RaiBlocks

open Foundation Ledger BlockStore RaiBlocks.Lattice BlocksOk

variable {p : Env} {U : Set Block} {Λ : Lattice p} {s : BlockStore} {h : BlockHash} {e : Entry}

/-! ## Single writes -/

namespace BlockStore

theorem frontierDel_eq {a : Account} (hl : s.frontiers.lookup h = some a) :
    s.frontierDel h = .ok { s with frontiers := s.frontiers.erase h } := by
  unfold frontierDel
  rw [hl]
  rfl

theorem pendingDel_eq {k : PendingKey} {i : PendingInfo} (hl : s.pending.lookup k = some i) :
    s.pendingDel k = .ok { s with pending := s.pending.erase k } := by
  unfold pendingDel
  rw [hl]
  rfl

theorem blockInfoDel_eq {i : BlockInfo} (hl : s.blocksInfo.lookup h = some i) :
    s.blockInfoDel h = .ok { s with blocksInfo := s.blocksInfo.erase h } := by
  unfold blockInfoDel
  rw [hl]
  rfl

end BlockStore

/-- `block_put` of a block that may be added. -/
theorem BlocksOk.blockPut (hb : BlocksOk s.blockDatabase Λ) (ad : Λ.Admissible h e) :
    ∃ d, s.blockPut p h e.block 0 = .ok { s with blockDatabase := d } ∧ Database.Coherent d ∧
      (∀ x, Database.stored d x = putStored (Database.stored s.blockDatabase) h e.block x) ∧
      BlocksOk d (Λ.insert ad) := by
  have hprev : (e.block.previous = 0 ∧ e.block.account? ≠ none) ∨
      (e.block.previous ≠ h ∧ e.block.previous ≠ 0 ∧
        ∃ v, Database.stored s.blockDatabase e.block.previous = some v) := by
    rcases ad.justified.first_or_follows with hf | ⟨q, hq, hfol⟩
    · exact Or.inl ⟨hf.previous, by rw [hf.account]; exact Option.some_ne_none _⟩
    · obtain ⟨y, hy, _⟩ := hb.stored_some hq
      exact Or.inr ⟨ad.ne_of_stored hq, Λ.ne_zero hq, _, hy⟩
  obtain ⟨d, hput, hc, hst⟩ := blockPut_eq hb.coherent ad.hash_eq
    (fun v hv => by rw [hb.stored_none ad.fresh] at hv; cases hv) hprev
  exact ⟨d, hput, hc, hst, hb.insert ad hc hst⟩

theorem Ledger.checksumUpdate_eq {c : Uint256} (hc : s.checksum.lookup 0 = some c)
    (x : BlockHash) : ∃ t, checksumUpdate s x = .ok { s with checksum := t } ∧
      ∃ c', t.lookup 0 = some c' := by
  unfold checksumUpdate checksumGet
  rw [hc]
  exact ⟨_, rfl, _, Finmap.lookup_insert _⟩

/-- The last writes of `change_latest`, shared by a new and a known account. -/
theorem Ledger.changeLatest_tail {c : Uint256} (hc : s.checksum.lookup 0 = some c)
    (a : Account) (info : AccountInfo) (isState : Bool) :
    ∃ t, checksumUpdate
        (if info.blockCount % blockInfoMax = 0 ∧ isState = false
          then (s.accountPut a info).blockInfoPut h ⟨a, info.balance⟩ else s.accountPut a info) h =
      .ok { s with
        accounts := s.accounts.insert a info
        blocksInfo := if info.blockCount % blockInfoMax = 0 ∧ isState = false
          then s.blocksInfo.insert h ⟨a, info.balance⟩ else s.blocksInfo
        checksum := t } ∧ ∃ c, t.lookup 0 = some c := by
  split
  · exact checksumUpdate_eq (s := (s.accountPut a info).blockInfoPut h _) hc h
  · exact checksumUpdate_eq (s := s.accountPut a info) hc h

/-- **`change_latest`** to a head that is a block: the row of the account is
written, keeping the open block or making the head the open block. -/
theorem Ledger.changeLatest_eq (hc : ∃ c, s.checksum.lookup 0 = some c) (h0 : h ≠ 0)
    {a : Account} (hopen : s.accounts.lookup a = none → ∃ b, s.blockGet h = some b ∧ b.previous = 0)
    (now : ℕ) (rep : BlockHash) (balance : Uint128) (count : ℕ) (isState : Bool) :
    ∃ t, changeLatest now s a h rep balance count isState =
      .ok { s with
        accounts := s.accounts.insert a
          ⟨h, rep, (s.accounts.lookup a).elim h AccountInfo.openBlock, balance, now, count⟩
        blocksInfo := if count % blockInfoMax = 0 ∧ isState = false
          then s.blocksInfo.insert h ⟨a, balance⟩ else s.blocksInfo
        checksum := t } ∧ ∃ c, t.lookup 0 = some c := by
  obtain ⟨c, hc⟩ := hc
  unfold changeLatest accountGet
  cases hl : s.accounts.lookup a with
  | none =>
    obtain ⟨b, hb, hprev⟩ := hopen hl
    simp only [hb, decide_eq_true hprev, assertThat_true, ok_bind, pure_bind, if_pos h0]
    exact changeLatest_tail hc a ⟨h, rep, h, balance, now, count⟩ isState
  | some info =>
    obtain ⟨t₀, ht₀, c₀, hc₀⟩ := checksumUpdate_eq hc info.head
    simp only [ht₀, ok_bind, pure_bind, if_pos h0]
    exact changeLatest_tail (s := { s with checksum := t₀ }) hc₀ a
      ⟨h, rep, info.openBlock, balance, now, count⟩ isState

/-- `change_latest` to a block that has just been put. -/
theorem Ledger.changeLatest_insert (ad : Λ.Admissible h e) (ha : AccountsOk s.accounts Λ)
    (hb : BlocksOk s.blockDatabase (Λ.insert ad)) (hc : ∃ c, s.checksum.lookup 0 = some c)
    (now : ℕ) (isState : Bool) {rep : BlockHash} {balance : Uint128} {count : ℕ}
    (hrep : rep = e.rep) (hbal : balance = BitVec.ofNat 128 e.balance) (hcount : count = e.height)
    (hstate : e.block.isLegacy = !isState) :
    ∃ t, changeLatest now s e.owner h rep balance count isState =
      .ok { s with
        accounts := s.accounts.insert e.owner (accountRow now s.accounts h e)
        blocksInfo := blocksInfoInsert s.blocksInfo h e
        checksum := t } ∧ ∃ c, t.lookup 0 = some c := by
  subst hrep hbal hcount
  have hopen : s.accounts.lookup e.owner = none →
      ∃ b, s.blockGet h = some b ∧ b.previous = 0 := by
    intro hn
    refine ⟨e.block, hb.blockGet_some (insert_entry_self ad), ?_⟩
    rcases ha.row_below ad with ⟨_, hf⟩ | ⟨info, _, hl, _⟩
    · exact hf.previous
    · rw [hn] at hl
      cases hl
  obtain ⟨t, hlatest, hcheck⟩ := changeLatest_eq hc ad.ne_zero hopen now e.rep
    (BitVec.ofNat 128 e.balance) e.height isState
  refine ⟨t, hlatest.trans ?_, hcheck⟩
  have hinfo : blocksInfoInsert s.blocksInfo h e =
      if e.height % blockInfoMax = 0 ∧ isState = false
        then s.blocksInfo.insert h e.blockInfo else s.blocksInfo := by
    unfold blocksInfoInsert
    rw [hstate]
    simp
  rw [hinfo]
  rfl

/-! ## Weights of rows -/

/-- The share of a row, when its representative block is known. -/
theorem ofNat_rowWeight {info : AccountInfo} {rep : Entry} (hrep : Λ.entry info.repBlock = some rep)
    (r : Account) : BitVec.ofNat 128 (rowWeight Λ r info) =
      if rep.block.representative = r then info.balance else 0 := by
  unfold rowWeight repAccount
  rw [hrep]
  simp only [Option.map_some, Option.some.injEq]
  split
  · simp
  · rfl

section Rows

variable (ad : Λ.Admissible h e) {info : AccountInfo} {q rep : Entry}
  {t : Table Account AccountInfo}

include ad

/-- The weights move as the rows do when the representative stays. -/
theorem weights_inherit (hi : t.lookup e.owner = some info)
    (hrep : Λ.entry info.repBlock = some rep) (hsame : e.rep = info.repBlock) (now : ℕ)
    {x : Uint128} (hx : x + info.balance = BitVec.ofNat 128 e.balance) (r : Account)
    (w : Uint128) :
    (w + if rep.block.representative = r then x else 0) +
        BitVec.ofNat 128 ((t.lookup e.owner).elim 0 (rowWeight Λ r)) =
      w + BitVec.ofNat 128 (rowWeight (Λ.insert ad) r (accountRow now t h e)) := by
  have hnew : (Λ.insert ad).entry (accountRow now t h e).repBlock = some rep :=
    insert_entry_of_stored ad (by rw [← hrep]; exact congrArg _ hsame)
  rw [hi, Option.elim_some, ofNat_rowWeight hrep, ofNat_rowWeight hnew]
  split
  · rw [add_assoc, hx]
    rfl
  · simp

/-- The weights move as the rows do when the block names its own
representative. -/
theorem weights_named (hi : t.lookup e.owner = some info)
    (hrep : Λ.entry info.repBlock = some rep) (hself : e.rep = h) (now : ℕ) (r : Account)
    (w : Uint128) :
    (w + (if rep.block.representative = r then 0 - info.balance else 0) +
        if e.block.representative = r then BitVec.ofNat 128 e.balance else 0) +
        BitVec.ofNat 128 ((t.lookup e.owner).elim 0 (rowWeight Λ r)) =
      w + BitVec.ofNat 128 (rowWeight (Λ.insert ad) r (accountRow now t h e)) := by
  have hnew : (Λ.insert ad).entry (accountRow now t h e).repBlock = some e :=
    (congrArg _ hself).trans (insert_entry_self ad)
  rw [hi, Option.elim_some, ofNat_rowWeight hrep, ofNat_rowWeight hnew]
  show _ = w + if e.block.representative = r then BitVec.ofNat 128 e.balance else 0
  split <;> ring

/-- The weights move as the rows do for the first block of an account. -/
theorem weights_open (hi : t.lookup e.owner = none) (hself : e.rep = h) (now : ℕ) (r : Account)
    (w : Uint128) :
    (w + if e.block.representative = r then BitVec.ofNat 128 e.balance else 0) +
        BitVec.ofNat 128 ((t.lookup e.owner).elim 0 (rowWeight Λ r)) =
      w + BitVec.ofNat 128 (rowWeight (Λ.insert ad) r (accountRow now t h e)) := by
  have hnew : (Λ.insert ad).entry (accountRow now t h e).repBlock = some e :=
    (congrArg _ hself).trans (insert_entry_self ad)
  rw [hi, Option.elim_none, ofNat_rowWeight hnew]
  exact add_zero _

end Rows

/-! ## The commits -/

section Commit

variable {info : AccountInfo} (hr : Refines U s Λ) (ad : Λ.Admissible h e) {pending : PendingInfo}

include hr ad

/-- The entry under a block of an account that has a row. -/
theorem Refines.below (hi : s.accounts.lookup e.owner = some info) :
    ∃ q, Λ.entry e.block.previous = some q ∧ Λ.Describes e.owner info q ∧ e.Follows q ∧
      info.head = e.block.previous := by
  rcases hr.accounts.row_below ad with ⟨hn, _⟩ | ⟨info', q, hl, hd, hhead, hfol⟩
  · rw [hn] at hi
    cases hi
  · obtain rfl := Option.some.inj (hl.symm.trans hi)
    exact ⟨q, hhead ▸ hd.head, hd, hfol, hhead⟩

/-- The predecessor of a legacy block is in the frontier table. -/
theorem Refines.frontier_below {q : Entry} (hq : Λ.entry e.block.previous = some q)
    (hfol : e.Follows q) (hl : e.block.isLegacy = true) :
    s.frontiers.lookup e.block.previous = some e.owner :=
  (hr.frontiers _ _).mpr ⟨q, hq, hfol.owner, ad.head (Λ.ne_zero hq), hfol.legacy hl⟩

theorem sendBlockCommit_inserted {b : SendBlock} (hblock : e.block = .sendBlock b)
    (hi : s.accounts.lookup e.owner = some info) (now : ℕ) :
    ∃ s', sendBlockCommit p now s b e.owner info (BitVec.ofNat 128 e.amount) = .ok s' ∧
      Inserted now s s' Λ ad := by
  obtain ⟨q, hq, hd, hfol, _⟩ := hr.below ad hi
  have hbal : b.hashables.balance = BitVec.ofNat 128 e.balance :=
    ad.justified.balance?_eq (by rw [hblock]; rfl)
  have hrep : info.repBlock = e.rep := hd.rep.trans (hfol.rep (by rw [hblock]; rfl)).symm
  have hcount : info.blockCount + 1 = e.height := by rw [hd.count, hfol.height]
  have hsend : e.sendsTo = some b.hashables.destination := by
    unfold Entry.sendsTo
    rw [hblock]
  have hmove := ad.sends_of_block hblock
  have hfront := hr.frontier_below ad hq hfol (by rw [hblock]; rfl)
  obtain ⟨rep, hrepe, _⟩ := hd.rep_stored
  obtain ⟨w, hadd, hget⟩ := hr.blocks.representationAdd hrepe (0 - BitVec.ofNat 128 e.amount)
  obtain ⟨d, hput, hc, hst, hb⟩ := blockPut (s := { s with representation := w })
    hr.blocks ad
  obtain ⟨t, hlatest, hcheck⟩ := changeLatest_insert ad
    (s := { s with representation := w, blockDatabase := d }) hr.accounts hb hr.checksum now
    false hrep hbal hcount (by rw [hblock]; rfl)
  rw [hblock] at hput hfront
  unfold sendBlockCommit
  rw [show (Block.sendBlock b).hash p = h from hblock ▸ ad.hash_eq, hadd, ok_bind, hput, ok_bind,
    hlatest, ok_bind]
  dsimp only [pendingPut]
  rw [frontierDel_eq (a := e.owner), ok_bind]
  · refine ⟨_, rfl, hc, hst, rfl, ?_, ?_, rfl, hcheck, fun r => ?_⟩
    · rw [frontiersInsert_legacy (by rw [hblock]; rfl), hblock]
      rfl
    · rw [pendingInsert_sends hsend]
      rfl
    · refine (congrArg (· + _) (hget r)).trans (weights_inherit ad hi hrepe hrep.symm now ?_ r _)
      rw [eq_ofNat_of_toNat hd.balance, ← hfol.prior, ← hmove, BitVec.ofNat_add]
      ring
  · exact hfront

/-- The pending row a receiving block finds, and what it says. -/
theorem Refines.pending_below {x : BlockHash} (hrec : e.receives p = some x)
    (hp : s.pending.lookup ⟨e.owner, x⟩ = some pending) :
    pending.amount = BitVec.ofNat 128 (e.balance - e.prior) ∧ e.prior ≤ e.balance ∧
      (s.accountGet pending.source).isSome = true := by
  obtain ⟨src, hs, ht⟩ := ad.justified.takes hrec
  have hrow := hr.pending.lookup_source ad hrec hs ht
  obtain rfl := Option.some.inj (hp.symm.trans hrow)
  have hbal := ht.balance
  obtain ⟨info, hinfo⟩ := hr.accounts.complete hs
  refine ⟨congrArg (BitVec.ofNat 128) (by omega), by omega, ?_⟩
  exact Option.isSome_iff_exists.mpr ⟨info, hinfo⟩

theorem receiveBlockCommit_inserted {b : ReceiveBlock} (hblock : e.block = .receiveBlock b)
    (hi : s.accounts.lookup e.owner = some info)
    (hp : s.pending.lookup ⟨e.owner, b.hashables.source⟩ = some pending) (now : ℕ) :
    ∃ s', receiveBlockCommit p now s b e.owner info pending = .ok s' ∧
      Inserted now s s' Λ ad := by
  obtain ⟨q, hq, hd, hfol, _⟩ := hr.below ad hi
  have hrec : e.receives p = some b.hashables.source := by
    unfold Entry.receives
    rw [hblock]
  obtain ⟨hamount, hle, hsource⟩ := hr.pending_below ad hrec hp
  have hrep : info.repBlock = e.rep := hd.rep.trans (hfol.rep (by rw [hblock]; rfl)).symm
  have hcount : info.blockCount + 1 = e.height := by rw [hd.count, hfol.height]
  have hprior : info.balance = BitVec.ofNat 128 e.prior := by
    rw [hfol.prior]
    exact eq_ofNat_of_toNat hd.balance
  have hnew : balanceAdd p info.balance pending.amount = .ok (BitVec.ofNat 128 e.balance) := by
    have hlt := (sound (insert_entry_self ad)).2.2
    rw [hprior, hamount, balanceAdd_ofNat p (by omega), Nat.add_sub_cancel' hle]
  have hfront := hr.frontier_below ad hq hfol (by rw [hblock]; rfl)
  obtain ⟨rep, hrepe, _⟩ := hd.rep_stored
  obtain ⟨d, hput, hc, hst, hb⟩ := blockPut
    (s := { s with pending := s.pending.erase ⟨e.owner, b.hashables.source⟩ }) hr.blocks ad
  obtain ⟨t, hlatest, hcheck⟩ := changeLatest_insert ad
    (s := { s with pending := s.pending.erase ⟨e.owner, b.hashables.source⟩, blockDatabase := d })
    hr.accounts hb hr.checksum now false hrep rfl hcount (by rw [hblock]; rfl)
  obtain ⟨w, hadd, hget⟩ := representationAdd
    (s := { s with
      accounts := s.accounts.insert e.owner (accountRow now s.accounts h e)
      blocksInfo := blocksInfoInsert s.blocksInfo h e
      pending := s.pending.erase ⟨e.owner, b.hashables.source⟩
      blockDatabase := d
      checksum := t }) hb (insert_entry_of_stored ad hrepe) pending.amount
  rw [hblock] at hput hfront
  unfold receiveBlockCommit
  rw [show (Block.receiveBlock b).hash p = h from hblock ▸ ad.hash_eq, hnew, ok_bind, hsource,
    assertThat_true, ok_bind, pendingDel_eq hp, ok_bind, hput, ok_bind, hlatest, ok_bind,
    hadd, ok_bind, frontierDel_eq (a := e.owner), ok_bind]
  · refine ⟨_, rfl, hc, hst, rfl, ?_, ?_, rfl, hcheck, fun r => ?_⟩
    · rw [frontiersInsert_legacy (by rw [hblock]; rfl), hblock]
      rfl
    · exact (pendingInsert_receives hrec _).symm
    · refine (congrArg (· + _) (hget r)).trans (weights_inherit ad hi hrepe hrep.symm now ?_ r _)
      rw [hprior, hamount, ← BitVec.ofNat_add, Nat.sub_add_cancel hle]
  · exact hfront

theorem openBlockCommit_inserted {b : OpenBlock} (hblock : e.block = .openBlock b)
    (hrec : e.receives p = some b.hashables.source) (hi : s.accounts.lookup e.owner = none)
    (hp : s.pending.lookup ⟨e.owner, b.hashables.source⟩ = some pending) (now : ℕ) :
    ∃ s', openBlockCommit p now s b pending = .ok s' ∧ Inserted now s s' Λ ad := by
  have hf : e.First := by
    rcases hr.accounts.row_below ad with ⟨_, hf⟩ | ⟨info, _, hl, _⟩
    · exact hf
    · cases hi.symm.trans hl
  have howner : b.hashables.account = e.owner := by
    have := hf.account
    rw [hblock] at this
    exact Option.some.inj this
  have hself : e.rep = h := ad.justified.rep_self (by rw [hblock]; rfl)
  obtain ⟨hamount, hle, hsource⟩ := hr.pending_below ad hrec hp
  rw [hf.prior, Nat.sub_zero] at hamount
  obtain ⟨d, hput, hc, hst, hb⟩ := blockPut
    (s := { s with pending := s.pending.erase ⟨e.owner, b.hashables.source⟩ }) hr.blocks ad
  obtain ⟨t, hlatest, hcheck⟩ := changeLatest_insert ad
    (s := { s with pending := s.pending.erase ⟨e.owner, b.hashables.source⟩, blockDatabase := d })
    hr.accounts hb hr.checksum now false hself.symm hamount
    (show AccountInfo.zero.blockCount + 1 = e.height from hf.height.symm) (by rw [hblock]; rfl)
  obtain ⟨w, hadd, hget⟩ := representationAdd
    (s := { s with
      accounts := s.accounts.insert e.owner (accountRow now s.accounts h e)
      blocksInfo := blocksInfoInsert s.blocksInfo h e
      pending := s.pending.erase ⟨e.owner, b.hashables.source⟩
      blockDatabase := d
      checksum := t }) hb (insert_entry_self ad) pending.amount
  rw [hblock] at hput
  unfold openBlockCommit
  rw [show (Block.openBlock b).hash p = h from hblock ▸ ad.hash_eq, howner, hsource,
    assertThat_true, ok_bind, pendingDel_eq hp, ok_bind, hput, ok_bind, hlatest, ok_bind,
    hadd, ok_bind]
  refine ⟨_, rfl, hc, hst, rfl, ?_, ?_, rfl, hcheck, fun r => ?_⟩
  · rw [frontiersInsert_legacy (by rw [hblock]; rfl), hf.previous,
      Table.erase_of_lookup_none hr.frontiers.lookup_zero]
    rfl
  · exact (pendingInsert_receives hrec _).symm
  · rw [hamount] at hget
    exact (congrArg (· + _) (hget r)).trans (weights_open ad hi hself now r _)

/-- The walks still read the lattice when the new block has been put. -/
theorem Refines.readable_put {d : Database} (hb : BlocksOk d (Λ.insert ad)) :
    Readable { s with blockDatabase := d } Λ where
  blockGet he := blockGet_some (s := { s with blockDatabase := d }) hb
    (insert_entry_of_stored ad he)
  genesisAccount := by
    rw [blockGet (s := { s with blockDatabase := d }) hb,
      show (Λ.insert ad).entry p.genesisAccount = none from
        (Λ.insert ad).owner_unstored (Λ.insert ad).genesis]
    rfl
  blockInfo := (hr.blocks.readable hr.blocksInfo).blockInfo

theorem changeBlockCommit_inserted {b : ChangeBlock} (hblock : e.block = .changeBlock b)
    (hi : s.accounts.lookup e.owner = some info) (now : ℕ) :
    ∃ s', changeBlockCommit p now s b e.owner info = .ok s' ∧ Inserted now s s' Λ ad := by
  obtain ⟨q, hq, hd, hfol, _⟩ := hr.below ad hi
  have hself : e.rep = h := ad.justified.rep_self (by rw [hblock]; rfl)
  have hcount : info.blockCount + 1 = e.height := by rw [hd.count, hfol.height]
  have hsend : e.sendsTo = none := by
    unfold Entry.sendsTo
    rw [hblock]
  have hrec : e.receives p = none := by
    unfold Entry.receives
    rw [hblock]
  have hkeep : e.balance = e.prior := by
    cases ad.moves with
    | sends hn => cases hn.symm.trans hsend
    | takes _ hn => cases hn.symm.trans hrec
    | keeps _ _ hkeep => exact hkeep
  have hbal : info.balance = BitVec.ofNat 128 e.balance := by
    rw [hkeep, hfol.prior]
    exact eq_ofNat_of_toNat hd.balance
  have hfront := hr.frontier_below ad hq hfol (by rw [hblock]; rfl)
  obtain ⟨rep, hrepe, _⟩ := hd.rep_stored
  obtain ⟨d, hput, hc, hst, hb⟩ := blockPut (s := s) hr.blocks ad
  have hbalance := (hr.readable_put ad hb).balance hq
  rw [← hfol.prior, ← hkeep] at hbalance
  obtain ⟨w₁, hadd₁, hget₁⟩ := representationAdd (s := { s with blockDatabase := d }) hb
    (insert_entry_self ad) (BitVec.ofNat 128 e.balance)
  obtain ⟨w₂, hadd₂, hget₂⟩ := representationAdd
    (s := { s with blockDatabase := d, representation := w₁ }) hb
    (insert_entry_of_stored ad hrepe) (0 - BitVec.ofNat 128 e.balance)
  obtain ⟨t, hlatest, hcheck⟩ := changeLatest_insert ad
    (s := { s with blockDatabase := d, representation := w₂ }) hr.accounts hb hr.checksum now
    false hself.symm hbal hcount (by rw [hblock]; rfl)
  rw [hblock] at hput hfront hbalance
  unfold changeBlockCommit
  rw [show (Block.changeBlock b).hash p = h from hblock ▸ ad.hash_eq]
  dsimp only
  rw [hput, ok_bind, show b.hashables.previous = (Block.changeBlock b).previous from rfl,
    hbalance, ok_bind, hadd₁, ok_bind, hadd₂, ok_bind, hlatest, ok_bind,
    frontierDel_eq (a := e.owner), ok_bind]
  · refine ⟨_, rfl, hc, hst, rfl, ?_, ?_, rfl, hcheck, fun r => ?_⟩
    · rw [frontiersInsert_legacy (by rw [hblock]; rfl), hblock]
      rfl
    · exact (pendingInsert_keeps hsend hrec _).symm
    · refine (congrArg (· + _) ((hget₂ r).trans ?_)).trans (weights_named ad hi hrepe hself now r _)
      rw [hbal]
      refine (congrArg (· + _) (hget₁ r)).trans ?_
      exact add_right_comm _ _ _
  · exact hfront

/-! ## State blocks -/

variable {b : StateBlock} (hblock : e.block = .stateBlock b)

include hblock

/-- The row that `state_block_impl` has read: that of the account, or the
default one. -/
theorem stateBlockRepresentation_eq {d : Database} (hb : BlocksOk d (Λ.insert ad))
    (hinfo : s.accounts.lookup e.owner = some info ∨
      s.accounts.lookup e.owner = none ∧ info = .zero) (now : ℕ) :
    ∃ w, stateBlockRepresentation { s with blockDatabase := d } h info
        b.hashables.balance = .ok { s with blockDatabase := d, representation := w } ∧
      ∀ r, ({ s with representation := w } : BlockStore).representationGet r +
          BitVec.ofNat 128 ((s.accounts.lookup e.owner).elim 0 (rowWeight Λ r)) =
        s.representationGet r +
          BitVec.ofNat 128 (rowWeight (Λ.insert ad) r (accountRow now s.accounts h e)) := by
  have hself : e.rep = h := ad.justified.rep_self (by rw [hblock]; rfl)
  have hbal : b.hashables.balance = BitVec.ofNat 128 e.balance :=
    ad.justified.balance?_eq (by rw [hblock]; rfl)
  unfold stateBlockRepresentation
  rw [hbal]
  rcases hinfo with hi | ⟨hi, rfl⟩
  · obtain ⟨q, hq, hd, _⟩ := hr.below ad hi
    obtain ⟨rep, hrepe, _⟩ := hd.rep_stored
    obtain ⟨w₁, hadd₁, hget₁⟩ := representationAdd (s := { s with blockDatabase := d }) hb
      (insert_entry_of_stored ad hrepe) (0 - info.balance)
    obtain ⟨w₂, hadd₂, hget₂⟩ := representationAdd
      (s := { s with blockDatabase := d, representation := w₁ }) hb
      (insert_entry_self ad) (BitVec.ofNat 128 e.balance)
    rw [if_pos (Λ.ne_zero hrepe), hadd₁, ok_bind]
    refine ⟨w₂, hadd₂, fun r => ?_⟩
    refine (congrArg (· + _) ((hget₂ r).trans ?_)).trans (weights_named ad hi hrepe hself now r _)
    exact congrArg (· + _) (hget₁ r)
  · obtain ⟨w, hadd, hget⟩ := representationAdd (s := { s with blockDatabase := d }) hb
      (insert_entry_self ad) (BitVec.ofNat 128 e.balance)
    rw [if_neg (c := AccountInfo.zero.repBlock ≠ 0) (not_not.mpr rfl)]
    refine ⟨w, hadd, fun r => ?_⟩
    exact (congrArg (· + _) (hget r)).trans (weights_open ad hi hself now r _)

omit hr in
theorem stateBlockSettle_eq (hp : PendingOk s.pending Λ) :
    stateBlockSettle s h b (decide (e.balance < e.prior)) (BitVec.ofNat 128 e.amount) =
      .ok { s with pending := pendingInsert p s.pending h e } := by
  have howner : b.hashables.account = e.owner := (account?_eq
    (insert_entry_self ad) (by rw [hblock]; rfl))
  unfold stateBlockSettle
  by_cases hlt : e.balance < e.prior
  · have hsend : e.sendsTo = some b.hashables.link := by
      unfold Entry.sendsTo
      rw [hblock]
      exact if_pos hlt
    rw [if_pos (decide_eq_true hlt), pendingInsert_sends hsend, howner]
    rfl
  · rw [decide_eq_false hlt, if_neg Bool.false_ne_true]
    have hnosend : e.sendsTo = none := by
      unfold Entry.sendsTo
      rw [hblock]
      exact if_neg hlt
    by_cases hlink : b.hashables.link = 0
    · have hrec : e.receives p = none := by
        unfold Entry.receives
        rw [hblock]
        exact if_pos (Or.inr hlink)
      rw [if_neg (not_not.mpr hlink), pendingInsert_keeps hnosend hrec]
    · have hrec : e.receives p = some b.hashables.link := by
        unfold Entry.receives
        rw [hblock]
        exact if_neg (not_or.mpr ⟨hlt, hlink⟩)
      obtain ⟨src, hs, ht⟩ := ad.justified.takes hrec
      rw [if_pos hlink, howner, pendingDel_eq (hp.lookup_source ad hrec hs ht),
        pendingInsert_receives hrec]

omit hr ad hblock in
/-- A frontier that reads as zero is absent: owners are not zero. -/
theorem stateBlockFrontier_eq (hf : FrontiersOk s.frontiers Λ) (info : AccountInfo) :
    stateBlockFrontier s info =
      .ok { s with frontiers := s.frontiers.erase info.head } := by
  unfold stateBlockFrontier frontierGet
  cases hl : s.frontiers.lookup info.head with
  | none =>
    rw [if_neg (c := none.getD 0 ≠ 0) (not_not.mpr rfl), Table.erase_of_lookup_none hl]
  | some a =>
    obtain ⟨q, hq, rfl, _⟩ := (hf _ _).mp hl
    have h0 : (some q.owner).getD 0 ≠ 0 := (Λ.sound hq).1
    rw [if_pos h0, frontierDel_eq hl]

theorem stateBlockCommit_inserted
    (hinfo : s.accounts.lookup e.owner = some info ∨
      s.accounts.lookup e.owner = none ∧ info = .zero) (now : ℕ) :
    ∃ s', stateBlockCommit p now s b info (decide (e.balance < e.prior))
        (BitVec.ofNat 128 e.amount) = .ok s' ∧ Inserted now s s' Λ ad := by
  have hself : e.rep = h := ad.justified.rep_self (by rw [hblock]; rfl)
  have hbal : b.hashables.balance = BitVec.ofNat 128 e.balance :=
    ad.justified.balance?_eq (by rw [hblock]; rfl)
  have howner : b.hashables.account = e.owner := (account?_eq
    (insert_entry_self ad) (by rw [hblock]; rfl))
  have hrow : info.blockCount + 1 = e.height ∧ info.head = e.block.previous := by
    rcases hr.accounts.row_below ad with ⟨hn, hf⟩ | ⟨info', q, hl, hd, hhead, hfol⟩
    · rcases hinfo with hi | ⟨_, rfl⟩
      · cases hn.symm.trans hi
      · exact ⟨hf.height.symm, hf.previous.symm⟩
    · rcases hinfo with hi | ⟨hi, _⟩
      · obtain rfl := Option.some.inj (hl.symm.trans hi)
        exact ⟨by rw [hd.count, hfol.height], hhead⟩
      · cases hi.symm.trans hl
  obtain ⟨d, hput, hc, hst, hb⟩ := blockPut (s := s) hr.blocks ad
  obtain ⟨w, hmove, hget⟩ := stateBlockRepresentation_eq hr ad hblock hb hinfo now
  have hsettle := stateBlockSettle_eq (s := { s with blockDatabase := d, representation := w })
    ad hblock hr.pending
  obtain ⟨t, hlatest, hcheck⟩ := changeLatest_insert ad
    (s := { s with
      blockDatabase := d
      representation := w
      pending := pendingInsert p s.pending h e }) hr.accounts hb hr.checksum now
    true hself.symm hbal hrow.1 (by rw [hblock]; rfl)
  rw [hblock] at hput
  unfold stateBlockCommit
  rw [show (Block.stateBlock b).hash p = h from hblock ▸ ad.hash_eq]
  dsimp only
  rw [hput, ok_bind, hmove, ok_bind, hsettle, ok_bind, howner, hlatest, ok_bind,
    stateBlockFrontier_eq (Λ := Λ)]
  · refine ⟨_, rfl, hc, hst, rfl, ?_, rfl, rfl, hcheck, hget⟩
    rw [frontiersInsert_state (by rw [hblock]; rfl), ← hrow.2]
  · exact hr.frontiers

end Commit

end RaiBlocks
