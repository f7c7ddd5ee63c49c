import RaiBlocks.Refinement.Walk

/-!
# Adding an entry, table by table

`Inserted` lists what has to happen to each table when a block is accepted,
whatever its kind. A store to which that happened refines the larger lattice,
and neither the supply nor the drift of the weights has changed. The five
branches of `ledger_processor` only have to show `Inserted`.
-/

namespace RaiBlocks

open Foundation Table BlockStore

variable {p : Env} {U : Set Block} {Λ : Lattice p} {h x : BlockHash} {e : Entry}

/-! ## The tables after an insertion -/

/-- The account row of `e` at `h`. The open block of an account stays. -/
def accountRow (now : ℕ) (t : Table Account AccountInfo) (h : BlockHash) (e : Entry) :
    AccountInfo where
  head := h
  repBlock := e.rep
  openBlock := (t.lookup e.owner).elim h AccountInfo.openBlock
  balance := BitVec.ofNat 128 e.balance
  modified := now
  blockCount := e.height

def frontiersInsert (t : Table BlockHash Account) (h : BlockHash) (e : Entry) :
    Table BlockHash Account :=
  if e.block.isLegacy then (t.erase e.block.previous).insert h e.owner
  else t.erase e.block.previous

def pendingInsert (p : Env) (t : Table PendingKey PendingInfo) (h : BlockHash) (e : Entry) :
    Table PendingKey PendingInfo :=
  match e.sendsTo with
  | some d => t.insert ⟨d, h⟩ e.pendingInfo
  | none =>
    match e.receives p with
    | some x => t.erase ⟨e.owner, x⟩
    | none => t

theorem frontiersInsert_legacy (hl : e.block.isLegacy = true) (t : Table BlockHash Account) :
    frontiersInsert t h e = (t.erase e.block.previous).insert h e.owner := if_pos hl

theorem frontiersInsert_state (hl : e.block.isLegacy = false) (t : Table BlockHash Account) :
    frontiersInsert t h e = t.erase e.block.previous := by
  unfold frontiersInsert
  rw [hl]
  rfl

theorem pendingInsert_sends {d : Account} (hs : e.sendsTo = some d)
    (t : Table PendingKey PendingInfo) :
    pendingInsert p t h e = t.insert ⟨d, h⟩ e.pendingInfo := by
  unfold pendingInsert
  rw [hs]

theorem pendingInsert_receives (hr : e.receives p = some x) (t : Table PendingKey PendingInfo) :
    pendingInsert p t h e = t.erase ⟨e.owner, x⟩ := by
  unfold pendingInsert
  rw [Entry.sendsTo_of_receives hr, hr]

theorem pendingInsert_keeps (hs : e.sendsTo = none) (hr : e.receives p = none)
    (t : Table PendingKey PendingInfo) : pendingInsert p t h e = t := by
  unfold pendingInsert
  rw [hs, hr]

def blocksInfoInsert (t : Table BlockHash BlockInfo) (h : BlockHash) (e : Entry) :
    Table BlockHash BlockInfo :=
  if e.height % blockInfoMax = 0 ∧ e.block.isLegacy = true then t.insert h e.blockInfo
  else t

/-- The share of one account in the weight of `r`. -/
def rowWeight (Λ : Lattice p) (r : Account) (info : AccountInfo) : ℕ :=
  if Λ.repAccount info.repBlock = some r then info.balance.toNat else 0

/-- What happens to the tables when the entry `e` is added at `h`. -/
structure Inserted (now : ℕ) (s s' : BlockStore) (Λ : Lattice p) (ad : Λ.Admissible h e) :
    Prop where
  coherent : Database.Coherent s'.blockDatabase
  stored : ∀ x, Database.stored s'.blockDatabase x =
    putStored (Database.stored s.blockDatabase) h e.block x
  accounts : s'.accounts = s.accounts.insert e.owner (accountRow now s.accounts h e)
  frontiers : s'.frontiers = frontiersInsert s.frontiers h e
  pending : s'.pending = pendingInsert p s.pending h e
  blocksInfo : s'.blocksInfo = blocksInfoInsert s.blocksInfo h e
  checksum : ∃ c, s'.checksum.lookup 0 = some c
  representation : ∀ r, s'.representationGet r +
      BitVec.ofNat 128 ((s.accounts.lookup e.owner).elim 0 (rowWeight Λ r)) =
    s.representationGet r +
      BitVec.ofNat 128 (rowWeight (Λ.insert ad) r (accountRow now s.accounts h e))

/-! ## Preservation, table by table -/

section Preservation

variable (ad : Λ.Admissible h e) {q : Entry} {t : Table Account AccountInfo}

include ad

theorem BlocksOk.insert {d d' : Database} (hb : BlocksOk d Λ) (hc : d'.Coherent)
    (hst : ∀ x, d'.stored x = putStored d.stored h e.block x) :
    BlocksOk d' (Λ.insert ad) := by
  have hprev : e.block.previous ≠ 0 → e.block.previous ≠ h := by
    intro h0 heq
    obtain ⟨q, hq, _⟩ := (ad.justified.first_or_follows).resolve_left fun hf => h0 hf.previous
    exact ad.ne_of_stored hq heq
  refine ⟨hc, fun x => ?_, ?_⟩
  · rw [hst, putStored]
    split
    · rename_i hx
      rw [Lattice.insert_entry_of_ne ad (hx.2 ▸ hprev hx.1), ← hb.block, Option.map_map]
      rfl
    · by_cases hxh : x = h
      · rw [if_pos hxh, hxh, Lattice.insert_entry_self]
        rfl
      · rw [if_neg hxh, Lattice.insert_entry_of_ne ad hxh, hb.block]
  · intro x v hv
    rw [hst, putStored] at hv
    split at hv
    · -- the predecessor now points at the new block
      rename_i hx
      obtain ⟨v₀, _, rfl⟩ := Option.map_eq_some_iff.mp hv
      exact Or.inr ⟨e, Lattice.insert_entry_self ad, hx.2.symm⟩
    · rename_i hx
      split at hv
      · rename_i hxh
        obtain rfl := Option.some.inj hv
        rw [hxh]
        exact Or.inl ⟨Lattice.insert_isHead_self ad, rfl⟩
      · rcases hb.next hv with ⟨hhead, hy⟩ | ⟨e', he', hp⟩
        · refine Or.inl ⟨(Lattice.insert_isHead ad).mpr ⟨hhead, fun heq => hx ⟨?_, heq.symm⟩⟩, hy⟩
          rw [heq]
          obtain ⟨ex, hex⟩ := hb.entry_some hv
          exact Λ.ne_zero hex
        · exact Or.inr ⟨e', Lattice.insert_entry_of_stored ad he', hp⟩

theorem Lattice.Describes.insert {a : Account} {info : AccountInfo} (hd : Λ.Describes a info q)
    (ha : a ≠ e.owner) : (Λ.insert ad).Describes a info q where
  head := Lattice.insert_entry_of_stored ad hd.head
  owner := hd.owner
  isHead := by
    refine (Lattice.insert_isHead ad).mpr ⟨hd.isHead, fun hp => ha ?_⟩
    rcases ad.justified.first_or_follows with hf | ⟨q', hq', hfol⟩
    · exact absurd (hp.symm.trans hf.previous) (Λ.ne_zero hd.head)
    · rw [hp, hd.head] at hq'
      obtain rfl := Option.some.inj hq'
      rw [← hd.owner, hfol.owner]
  rep := hd.rep
  balance := hd.balance
  count := hd.count
  opened := by
    obtain ⟨o, ho, hown, hprev⟩ := hd.opened
    exact ⟨o, Lattice.insert_entry_of_stored ad ho, hown, hprev⟩

theorem AccountsOk.describes_accountRow (ha : AccountsOk t Λ) (now : ℕ) :
    (Λ.insert ad).Describes e.owner (accountRow now t h e) e where
  head := Lattice.insert_entry_self ad
  owner := rfl
  isHead := Lattice.insert_isHead_self ad
  rep := rfl
  balance := toNat_ofNat_of_lt (Lattice.sound (Lattice.insert_entry_self ad)).2.2
  count := rfl
  opened := by
    unfold accountRow
    cases hl : t.lookup e.owner with
    | none =>
      refine ⟨e, Lattice.insert_entry_self ad, rfl, ?_⟩
      rcases ad.justified.first_or_follows with hf | ⟨q, hq, hfol⟩
      · exact hf.previous
      · exact absurd hfol.owner (ha.lookup_none_iff.mp hl _ q hq)
    | some info =>
      obtain ⟨q, hd⟩ := ha.sound hl
      obtain ⟨o, ho, hown, hprev⟩ := hd.opened
      exact ⟨o, Lattice.insert_entry_of_stored ad ho, hown, hprev⟩

theorem AccountsOk.insert (ha : AccountsOk t Λ) (now : ℕ) :
    AccountsOk (t.insert e.owner (accountRow now t h e)) (Λ.insert ad) := by
  constructor
  · intro a info hl
    rw [lookup_insert_ite] at hl
    split at hl
    · rename_i hown
      obtain rfl := Option.some.inj hl
      rw [hown]
      exact ⟨e, ha.describes_accountRow ad now⟩
    · rename_i hown
      obtain ⟨q, hd⟩ := ha.sound hl
      exact ⟨q, hd.insert ad hown⟩
  · intro x ex hx
    rw [lookup_insert_ite]
    split
    · exact ⟨_, rfl⟩
    · rename_i hown
      rw [Lattice.insert_entry] at hx
      split at hx
      · obtain rfl := Option.some.inj hx
        exact absurd rfl hown
      · exact ha.complete hx

theorem FrontiersOk.insert {t : Table BlockHash Account} (hf : FrontiersOk t Λ) :
    FrontiersOk (frontiersInsert t h e) (Λ.insert ad) := by
  have hfresh := hf.lookup_none ad.fresh
  intro x a
  by_cases hx : x = h
  · subst hx
    rw [Lattice.insert_entry_self]
    unfold frontiersInsert
    split
    · rename_i hl
      rw [lookup_insert_ite, if_pos rfl]
      constructor
      · intro ha
        exact ⟨e, rfl, Option.some.inj ha, Lattice.insert_isHead_self ad, hl⟩
      · rintro ⟨e', he', rfl, _⟩
        rw [Option.some.inj he']
    · rename_i hl
      rw [lookup_erase_ite, hfresh, ite_self]
      constructor
      · intro hn
        cases hn
      · rintro ⟨e', he', _, _, hl'⟩
        obtain rfl := Option.some.inj he'
        exact absurd hl' hl
  · have hlook : (frontiersInsert t h e).lookup x =
        if x = e.block.previous then none else t.lookup x := by
      unfold frontiersInsert
      split
      · rw [lookup_insert_ite, if_neg hx, lookup_erase_ite]
      · rw [lookup_erase_ite]
    rw [hlook, Lattice.insert_entry_of_ne ad hx]
    split
    · rename_i hp
      constructor
      · intro hn
        cases hn
      · rintro ⟨e', _, _, hhead, _⟩
        exact absurd hp.symm ((Lattice.insert_isHead ad).mp hhead).2
    · rename_i hp
      rw [hf]
      constructor
      · rintro ⟨e', he', ha, hhead, hl⟩
        exact ⟨e', he', ha, (Lattice.insert_isHead ad).mpr ⟨hhead, fun heq => hp heq.symm⟩, hl⟩
      · rintro ⟨e', he', ha, hhead, hl⟩
        exact ⟨e', he', ha, ((Lattice.insert_isHead ad).mp hhead).1, hl⟩

theorem Lattice.Admissible.moves : e.Moves p Λ.entry :=
  ad.justified.moves (ad.ne_of_stored Λ.genesis).symm

theorem Lattice.Admissible.sends_of_block {b : SendBlock}
    (hb : e.block = .sendBlock b) : e.balance + e.amount = e.prior := by
  have hsend : e.sendsTo = some b.hashables.destination := by
    unfold Entry.sendsTo
    rw [hb]
  cases ad.moves with
  | sends _ _ hmove => exact hmove
  | takes hn => cases hn.symm.trans hsend
  | keeps hn => cases hn.symm.trans hsend

omit ad in
theorem PendingOk.lookup_none {t : Table PendingKey PendingInfo} (hp : PendingOk t Λ)
    (hn : Λ.entry h = none) (d : Account) : t.lookup ⟨d, h⟩ = none := by
  cases hl : t.lookup ⟨d, h⟩ with
  | none => rfl
  | some i =>
    obtain ⟨e', he', _⟩ := (hp d h i).mp hl
    rw [hn] at he'
    cases he'

theorem PendingOk.lookup_source {t : Table PendingKey PendingInfo} (hp : PendingOk t Λ)
    {src : Entry} (hx : e.receives p = some x) (hs : Λ.entry x = some src) (ht : e.Takes src) :
    t.lookup ⟨e.owner, x⟩ = some src.pendingInfo :=
  (hp e.owner x _).mpr ⟨src, hs, ht.dest, ad.unreceived x hx, rfl⟩

theorem PendingOk.insert {t : Table PendingKey PendingInfo} (hp : PendingOk t Λ) :
    PendingOk (pendingInsert p t h e) (Λ.insert ad) := by
  intro d x i
  -- the new block's own row
  have hself : (∃ e', (Λ.insert ad).entry h = some e' ∧ e'.sendsTo = some d ∧
      ¬ (Λ.insert ad).Received h ∧ i = e'.pendingInfo) ↔
      e.sendsTo = some d ∧ i = e.pendingInfo := by
    rw [Lattice.insert_entry_self]
    constructor
    · rintro ⟨e', he', hd, _, hi⟩
      obtain rfl := Option.some.inj he'
      exact ⟨hd, hi⟩
    · rintro ⟨hd, hi⟩
      exact ⟨e, rfl, hd, Lattice.insert_not_received_self ad, hi⟩
  -- the rows of the other blocks
  have hother : x ≠ h → ((∃ e', (Λ.insert ad).entry x = some e' ∧ e'.sendsTo = some d ∧
      ¬ (Λ.insert ad).Received x ∧ i = e'.pendingInfo) ↔
      t.lookup ⟨d, x⟩ = some i ∧ e.receives p ≠ some x) := by
    intro hx
    rw [Lattice.insert_entry_of_ne ad hx, Lattice.insert_received, hp]
    constructor
    · rintro ⟨e', he', hd, hr, hi⟩
      exact ⟨⟨e', he', hd, fun h1 => hr (Or.inl h1), hi⟩, fun h2 => hr (Or.inr h2)⟩
    · rintro ⟨⟨e', he', hd, hr, hi⟩, hne⟩
      exact ⟨e', he', hd, not_or.mpr ⟨hr, hne⟩, hi⟩
  have hfresh := hp.lookup_none ad.fresh d
  cases ad.moves with
  | @sends d' hsend hrec hbal =>
    rw [pendingInsert_sends hsend, lookup_insert_ite]
    by_cases hx : x = h
    · subst hx
      rw [hself, hsend, hfresh]
      simp [eq_comm]
    · rw [hother hx, hrec, if_neg (fun hk => hx (congrArg PendingKey.hash hk))]
      simp
  | @takes y src hsend hrec hs ht =>
    rw [pendingInsert_receives hrec, lookup_erase_ite]
    by_cases hx : x = h
    · subst hx
      rw [hself, hsend, hfresh, ite_self]
      simp
    · rw [hother hx, hrec]
      split
      · rename_i hk
        have hxy : x = y := congrArg PendingKey.hash hk
        simp [hxy]
      · rename_i hk
        refine (and_iff_left_of_imp ?_).symm
        rintro hl hxy
        obtain rfl := Option.some.inj hxy
        -- the source has one destination, the owner of the new block
        obtain ⟨e', he', hd, _⟩ := (hp d y i).mp hl
        obtain rfl := Option.some.inj (he'.symm.trans hs)
        rw [ht.dest] at hd
        exact hk (by rw [Option.some.inj hd])
  | keeps hsend hrec hbal =>
    rw [pendingInsert_keeps hsend hrec]
    by_cases hx : x = h
    · subst hx
      rw [hself, hsend, hfresh]
      simp
    · rw [hother hx, hrec]
      simp

theorem BlocksInfoOk.insert (hass : HashAssumptions p U) (hU : e.block ∈ U)
    {t : Table BlockHash BlockInfo} (hi : BlocksInfoOk U t Λ) :
    BlocksInfoOk U (blocksInfoInsert t h e) (Λ.insert ad) := by
  -- no row is left over under the hash of a new legacy block
  have hfresh : e.block.isLegacy = true → t.lookup h = none := by
    intro hl
    cases hrow : t.lookup h with
    | none => rfl
    | some i =>
      rcases hi.other hrow with ⟨e', he', _⟩ | ⟨b, hb, hstate, hhash⟩
      · exact absurd rfl (ad.ne_of_stored he')
      · exact absurd (ad.hash_eq.trans hhash.symm) (hass.legacy_ne_state hU hb hl hstate)
  have hlook : ∀ x, (blocksInfoInsert t h e).lookup x = if x = h ∧
      (e.height % blockInfoMax = 0 ∧ e.block.isLegacy = true) then some e.blockInfo
      else t.lookup x := by
    intro x
    unfold blocksInfoInsert
    split
    · rename_i hc
      rw [lookup_insert_ite]
      simp [hc]
    · rename_i hc
      simp [hc]
  constructor
  · intro x ex hx hl
    rw [hlook]
    by_cases hxh : x = h
    · subst hxh
      rw [Lattice.insert_entry_self] at hx
      obtain rfl := Option.some.inj hx
      rw [hfresh hl]
      simp [hl]
    · rw [Lattice.insert_entry_of_ne ad hxh] at hx
      rw [if_neg (fun hc => hxh hc.1)]
      exact hi.legacy hx hl
  · intro x i hrow
    rw [hlook] at hrow
    split at hrow
    · rename_i hc
      rw [hc.1]
      exact Or.inl ⟨e, Lattice.insert_entry_self ad, hc.2.2⟩
    · rcases hi.other hrow with ⟨e', he', hl⟩ | hstate
      · exact Or.inl ⟨e', Lattice.insert_entry_of_stored ad he', hl⟩
      · exact Or.inr hstate

/-! ## Supply and drift -/

/-- The account row before the block: none for the first block, otherwise that
of the predecessor. -/
theorem AccountsOk.row_below (ha : AccountsOk t Λ) : (t.lookup e.owner = none ∧ e.First) ∨
    ∃ info q, t.lookup e.owner = some info ∧ Λ.Describes e.owner info q ∧
      info.head = e.block.previous ∧ e.Follows q := by
  rcases ad.justified.first_or_follows with hf | ⟨q, hq, hfol⟩
  · exact Or.inl ⟨ha.lookup_none_iff.mpr (ad.unopened hf.previous), hf⟩
  · obtain ⟨info, hl, hhead, hd⟩ := ha.of_head hq (ad.head (Λ.ne_zero hq))
    rw [hfol.owner] at hl hd
    exact Or.inr ⟨info, q, hl, hd, hhead, hfol⟩

theorem AccountsOk.sum_insert (ha : AccountsOk t Λ) (now : ℕ) :
    e.prior + totalBalance (t.insert e.owner (accountRow now t h e)) =
      e.balance + totalBalance t := by
  have hbal : (accountRow now t h e).balance.toNat = e.balance :=
    (ha.describes_accountRow ad now).balance
  rcases ha.row_below ad with ⟨hl, hf⟩ | ⟨info, q, hl, hd, _, hfol⟩
  · rw [hf.prior, Nat.zero_add, ← hbal]
    exact sum_insert_of_lookup_none hl _ _
  · rw [hfol.prior, ← hd.balance, ← hbal]
    exact sum_insert_of_lookup_some hl _ fun _ info => info.balance.toNat

/-- Money moves between an account and the pending table. -/
theorem supply_insert {s : BlockStore} (ha : AccountsOk s.accounts Λ)
    (hp : PendingOk s.pending Λ) (now : ℕ) :
    totalBalance (s.accounts.insert e.owner (accountRow now s.accounts h e)) +
      totalPending (pendingInsert p s.pending h e) = s.supply := by
  have hacc := ha.sum_insert ad now
  unfold supply
  cases ad.moves with
  | @sends d hsend hrec hbal =>
    rw [pendingInsert_sends hsend]
    have hpend : totalPending (s.pending.insert ⟨d, h⟩ e.pendingInfo) =
        e.pendingInfo.amount.toNat + totalPending s.pending :=
      sum_insert_of_lookup_none (hp.lookup_none ad.fresh d) _ _
    rw [Lattice.toNat_pendingInfo (Lattice.insert_entry_self ad)] at hpend
    omega
  | @takes y src hsend hrec hs ht =>
    rw [pendingInsert_receives hrec]
    have hpend : src.pendingInfo.amount.toNat + totalPending (s.pending.erase ⟨e.owner, y⟩) =
        totalPending s.pending :=
      sum_erase_of_lookup_some (hp.lookup_source ad hrec hs ht)
        fun _ info => info.amount.toNat
    rw [Lattice.toNat_pendingInfo hs] at hpend
    have := ht.balance
    omega
  | keeps hsend hrec hbal =>
    rw [pendingInsert_keeps hsend hrec]
    omega

theorem Lattice.repAccount_insert (hq : Λ.entry x = some q) :
    (Λ.insert ad).repAccount x = Λ.repAccount x := by
  unfold Lattice.repAccount
  rw [Lattice.insert_entry_of_stored ad hq, hq]

omit ad in
theorem Lattice.Describes.rep_stored {a : Account} {info : AccountInfo}
    (hd : Λ.Describes a info q) : ∃ r, Λ.entry info.repBlock = some r ∧ r.owner = a := by
  obtain ⟨r, hr, hown, _⟩ := Lattice.rep_entry _ q hd.head
  rw [hd.rep]
  exact ⟨r, hr, hown.trans hd.owner⟩

theorem weight_insert (ha : AccountsOk t Λ) (now : ℕ) (r : Account) :
    (t.lookup e.owner).elim 0 (rowWeight Λ r) +
        weight (t.insert e.owner (accountRow now t h e)) (Λ.insert ad) r =
      rowWeight (Λ.insert ad) r (accountRow now t h e) + weight t Λ r := by
  -- the weights of the rows that were there do not change
  have hsame : ∀ a info, t.lookup a = some info →
      rowWeight (Λ.insert ad) r info = rowWeight Λ r info := by
    intro a info hl
    obtain ⟨q, hd⟩ := ha.sound hl
    obtain ⟨b, hb, _⟩ := hd.rep_stored
    unfold rowWeight
    rw [Lattice.repAccount_insert ad hb]
  have hold : weight t (Λ.insert ad) r = weight t Λ r := sum_congr hsame
  rw [← hold]
  cases hl : t.lookup e.owner with
  | none =>
    rw [Option.elim_none, Nat.zero_add]
    exact sum_insert_of_lookup_none hl _ _
  | some info =>
    rw [Option.elim_some, ← hsame _ _ hl]
    exact sum_insert_of_lookup_some hl _ fun _ info => rowWeight (Λ.insert ad) r info

end Preservation

/-- **Growth.** A store whose tables have taken in the entry refines the larger
lattice, with the same supply and the same drift. -/
theorem Refines.insert {now : ℕ} {s s' : BlockStore} (hr : Refines U s Λ)
    (hass : HashAssumptions p U) (ad : Λ.Admissible h e) (hU : e.block ∈ U)
    (hi : Inserted now s s' Λ ad) :
    Refines U s' (Λ.insert ad) ∧ s'.supply = s.supply ∧
      ∀ r, drift s' (Λ.insert ad) r = drift s Λ r := by
  refine ⟨⟨hr.blocks.insert ad hi.coherent hi.stored, ?_, ?_, ?_, ?_, hi.checksum, ?_⟩, ?_, ?_⟩
  · rw [hi.accounts]
    exact hr.accounts.insert ad now
  · rw [hi.frontiers]
    exact hr.frontiers.insert ad
  · rw [hi.pending]
    exact hr.pending.insert ad
  · rw [hi.blocksInfo]
    exact hr.blocksInfo.insert ad hass hU
  · intro x ex hx
    rw [Lattice.insert_entry] at hx
    split at hx
    · obtain rfl := Option.some.inj hx
      exact hU
    · exact hr.known hx
  · rw [← supply_insert ad hr.accounts hr.pending now, supply, hi.accounts, hi.pending]
  · intro r
    have hw := congrArg (BitVec.ofNat 128) (weight_insert ad hr.accounts now r)
    have hrep := hi.representation r
    rw [BitVec.ofNat_add, BitVec.ofNat_add, ← hi.accounts] at hw
    unfold drift
    linear_combination hrep - hw

end RaiBlocks
