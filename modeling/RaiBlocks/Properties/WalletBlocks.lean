import RaiBlocks.Wallet.Blocks

/-!
# What the wallet's blocks do

The wallet builds state blocks, in which nothing says whether they send, receive or
change. `ledger::process` tells that from the balances. A block that lowers the
balance sends, one with a link receives what the link names, one without leaves the
balance alone. So the blocks of the wallet are accepted and do what was asked, but for
a send of nothing: with the balance unchanged its destination is taken for the hash of
a block to receive.
-/

namespace RaiBlocks

open Foundation Spending WalletStore

/-! ## Accepted blocks -/

section Accepted

variable {p : Env} {U : Set Block} {Λ : Lattice p} {s s' : BlockStore} {b : Block} {e : Entry}
  {h : BlockHash} {now : ℕ} {a : Account} {ad : Λ.Admissible h e} {info : AccountInfo}
  {c : StateBlock}

/-- The first block of an account without blocks is not stored. -/
theorem Refines.fresh_of_unopened (hr : Refines U s Λ) (hass : HashAssumptions p U) (hU : b ∈ U)
    (hfirst : b.previous = 0) (ha : b.account? = some a) (hun : Λ.Unopened a) :
    Λ.entry (b.hash p) = none := by
  cases he : Λ.entry (b.hash p) with
  | none => rfl
  | some q =>
    have hinput := hass.collision_free (hr.known he) hU (Λ.hash_eq he)
    obtain ⟨hprevious, -, haccount, -⟩ := hashInput_eq_place hinput
    have hq := Lattice.first_of_previous_eq he (hprevious.trans hfirst)
    have hown : some q.owner = some a := hq.account.symm.trans (haccount.trans ha)
    exact absurd (Option.some.inj hown) (hun _ q he)

/-- A block with an admissible entry is accepted, and that entry is added. -/
theorem Valid.process_admissible (hv : Valid U s Λ) (hass : HashAssumptions p U) (hU : b ∈ U)
    (ad : Λ.Admissible (b.hash p) e) (hb : e.block = b) (now : ℕ) :
    ∃ s' ret, Ledger.process p now s b = .ok (s', ret) ∧ ret.code = .progress ∧
      Inserted now s s' Λ ad := by
  obtain ⟨r, hrun, hout⟩ := hv.process hass hU now
  cases hout with
  | refused _ hno => exact absurd ad (hno e hb)
  | @accepted s' ret e' ad' hb' hcode _ _ hins =>
    obtain rfl : e = e' :=
      ad.justified.unique Λ.entry_zero ad'.justified (hb.trans hb'.symm)
    exact ⟨s', ret, hrun, hcode, hins⟩

theorem Valid.admissible_of_process (hv : Valid U s Λ) (hass : HashAssumptions p U) (hU : b ∈ U)
    {ret : ProcessReturn} (hrun : Ledger.process p now s b = .ok (s', ret))
    (hcode : ret.code = .progress) :
    ∃ e, ∃ ad : Λ.Admissible (b.hash p) e, e.block = b ∧ Inserted now s s' Λ ad := by
  obtain ⟨r, hrun', hout⟩ := hv.process hass hU now
  obtain rfl := Except.ok.inj (hrun'.symm.trans hrun)
  cases hout with
  | refused hno => exact absurd hcode hno
  | accepted ad hb _ _ _ hins => exact ⟨_, ad, hb, hins⟩

theorem Inserted.accountGet (hins : Inserted now s s' Λ ad) :
    s'.accountGet e.owner = some (accountRow now s.accounts h e) := by
  change s'.accounts.lookup e.owner = _
  rw [hins.accounts, Finmap.lookup_insert]

theorem Inserted.accountBalance (hins : Inserted now s s' Λ ad) {balance : Uint128}
    (hown : e.owner = a) (hbal : e.balance = balance.toNat) :
    Ledger.accountBalance s' a = balance := by
  rw [Ledger.accountBalance, ← hown, hins.accountGet]
  simp only [Option.map_some, Option.getD_some, accountRow, hbal, BitVec.ofNat_toNat,
    BitVec.setWidth_eq]

/-- The balance of an account is the one of its last block. -/
theorem Lattice.Describes.accountBalance (hd : Λ.Describes a info e)
    (hi : s.accountGet a = some info) : (Ledger.accountBalance s a).toNat = e.balance := by
  rw [Ledger.accountBalance, hi]
  exact hd.balance

/-- A signed state block on top of its account's head that moves money in one of the
allowed ways is accepted. -/
theorem Valid.process_state (hv : Valid U s Λ) (hass : HashAssumptions p U)
    (hU : Block.stateBlock c ∈ U)
    (hsigned : p.validateMessage c.hashables.account ((Block.stateBlock c).hash p) c.signature = false)
    {q : Entry} (hd : Λ.Describes c.hashables.account info q)
    (hprevious : c.hashables.previous = info.head) (hm : Λ.StateMoves c q.balance) (now : ℕ) :
    ∃ s' ret e, ∃ ad : Λ.Admissible ((Block.stateBlock c).hash p) e,
      Ledger.process p now s (.stateBlock c) = .ok (s', ret) ∧ ret.code = .progress ∧
      Inserted now s s' Λ ad ∧ e.block = .stateBlock c ∧ e.owner = c.hashables.account ∧
      e.prior = q.balance ∧ e.balance = c.hashables.balance.toNat := by
  have hr := hv.refines
  have hhead : Λ.IsHead c.hashables.previous := hprevious ▸ hd.isHead
  obtain ⟨e, ad, hb, hown, hprior, hbal⟩ := hr.admissible_state hass hU
    (hr.fresh_of_isHead hass hU hhead) hsigned (hprevious ▸ hd.head) hhead hd.owner hm
  obtain ⟨s', ret, hrun, hcode, hins⟩ := hv.process_admissible hass hU ad hb now
  exact ⟨s', ret, e, ad, hrun, hcode, hins, hb, hown, hprior, hbal⟩

/-- A signed state block that opens its account is accepted. -/
theorem Valid.process_stateOpen (hv : Valid U s Λ) (hass : HashAssumptions p U)
    (hU : Block.stateBlock c ∈ U)
    (hsigned : p.validateMessage c.hashables.account ((Block.stateBlock c).hash p) c.signature = false)
    (hi : s.accountGet c.hashables.account = none) (h0 : c.hashables.account ≠ 0)
    (hprevious : c.hashables.previous = 0) (hl : c.hashables.link ≠ 0) (hm : Λ.StateMoves c 0)
    (now : ℕ) :
    ∃ s' ret e, ∃ ad : Λ.Admissible ((Block.stateBlock c).hash p) e,
      Ledger.process p now s (.stateBlock c) = .ok (s', ret) ∧ ret.code = .progress ∧
      Inserted now s s' Λ ad ∧ e.owner = c.hashables.account ∧
      e.balance = c.hashables.balance.toNat := by
  have hr := hv.refines
  have hun : Λ.Unopened c.hashables.account := hr.accounts.lookup_none_iff.mp hi
  obtain ⟨e, ad, hb, hown, -, hbal⟩ := hr.admissible_stateOpen hass hU
    (hr.fresh_of_unopened hass hU hprevious rfl hun) hsigned h0 hprevious hl hun hm
  obtain ⟨s', ret, hrun, hcode, hins⟩ := hv.process_admissible hass hU ad hb now
  exact ⟨s', ret, e, ad, hrun, hcode, hins, hown, hbal⟩

end Accepted

/-! ## Requests to the wallet -/

/-- A call of one of the three actions. -/
inductive WalletRequest : Type
  | send (ids : Table String BlockHash) (source destination : Account) (amount : Uint128)
      (id : Option String)
  | receive (receiveMinimum : Uint128) (sent : Block) (representative : Account)
      (amount : Uint128)
  | change (source representative : Account)

namespace WalletRequest

variable {e : ActionEnv}

/-- The new block that is returned. -/
def block (s : BlockStore) (w : WalletStore e.toWalletEnv) :
    WalletRequest → Except Fault (Option Block)
  | .send ids source destination amount id => do
    let result ← w.sendAction s ids source destination amount id
    return if result.created then result.block else none
  | .receive receiveMinimum sent representative amount =>
    w.receiveAction receiveMinimum s sent representative amount
  | .change source representative => w.changeAction s source representative

/-- What was asked for has happened between the two ledgers. -/
def Done (p : Env) (s s' : BlockStore) (b : Block) : WalletRequest → Prop
  | .send _ source destination amount _ =>
    (Ledger.accountBalance s' source).toNat + amount.toNat =
      (Ledger.accountBalance s source).toNat ∧
    s'.pendingGet ⟨destination, b.hash p⟩ = some ⟨source, amount⟩
  | .receive _ sent _ _ =>
    ∃ account pending, Ledger.blockDestination p s sent = .ok account ∧
      s.pendingGet ⟨account, sent.hash p⟩ = some pending ∧
      (Ledger.accountBalance s' account).toNat =
        (Ledger.accountBalance s account).toNat + pending.amount.toNat
  | .change source representative =>
    Ledger.accountBalance s' source = Ledger.accountBalance s source ∧
    ∃ info rep, s'.accountGet source = some info ∧ s'.blockGet info.repBlock = some rep ∧
      rep.representative = representative

/-- A send is of more than nothing, and a receive is not for the burn account. -/
def Proper (p : Env) (s : BlockStore) : WalletRequest → Prop
  | .send _ _ _ amount _ => amount ≠ 0
  | .receive _ sent _ _ => Ledger.blockDestination p s sent ≠ .ok burnAccount
  | .change _ _ => True

end WalletRequest

/-! ## The blocks it makes -/

section Made

variable {e : ActionEnv} {U : Set Block} {Λ : Lattice e.toEnv} {s : BlockStore}
  {w : WalletStore e.toWalletEnv} {b : Block}

/-- Signatures verify under the public key they were made for. -/
def ActionEnv.SignsValidly (e : ActionEnv) : Prop :=
  ∀ prv message, e.validateMessage (e.publicKey prv) message
    (e.sign prv (e.publicKey prv) message) = false

/-- A state block with these contents and a valid signature. -/
def MadeFrom (e : ActionEnv) (hashables : StateHashables) (b : Block) : Prop :=
  ∃ c : StateBlock, b = .stateBlock c ∧ c.hashables = hashables ∧
    e.validateMessage hashables.account (b.hash e.toEnv) c.signature = false

theorem madeFrom_ensureWork (hsign : e.SignsValidly) {hashables : StateHashables} {prv : Uint256}
    (hprv : w.fetch hashables.account = some prv) (work : Work) :
    MadeFrom e hashables (e.ensureWork (e.stateBlock hashables prv hashables.account work)) := by
  obtain ⟨work', hwork⟩ :=
    ActionEnv.ensureWork_eq (e.stateBlock hashables prv hashables.account work)
  rw [hwork]
  refine ⟨_, rfl, rfl, ?_⟩
  have hkey := publicKey_of_fetch hprv
  have hvalid := hsign prv ((Block.stateBlock ⟨hashables, 0, 0⟩).hash e.toEnv)
  rw [hkey] at hvalid
  exact hvalid

namespace WalletRequest

variable {ids : Table String BlockHash} {source destination representative : Account}
  {amount : Uint128} {id : Option String}

theorem of_block_send (hsign : e.SignsValidly) (hr : Refines U s Λ)
    (h : block s w (.send ids source destination amount id) = .ok (some b)) :
    ∃ info rep, s.accountGet source = some info ∧ amount ≤ info.balance ∧
      MadeFrom e ⟨source, info.head, rep, info.balance - amount, destination⟩ b := by
  simp only [block] at h
  cases hid : readableId id with
  | false =>
    rw [sendAction_unreadable hid] at h
    cases h
  | true =>
    cases hcached : cachedBlock s ids id with
    | some b' =>
      rw [sendAction_cached hid hcached] at h
      cases h
    | none =>
      by_cases hmay : MaySend s w source amount
      · rw [sendAction_new hid hcached hmay] at h
        obtain ⟨result, hresult, h⟩ := bind_eq_ok h
        obtain ⟨b', hb', hresult⟩ := bind_eq_ok hresult
        obtain rfl := Except.ok.inj hresult
        rcases finishSend_cases (e := e) ids id b' with
          ⟨-, hfinish⟩ | hfinish
        · rw [hfinish] at h
          obtain rfl : b' = b := Option.some.inj (Except.ok.inj h)
          obtain ⟨info, hi, hrest⟩ := bind_eq_ok hb'
          obtain ⟨prv, hprv, -⟩ := bind_eq_ok hrest
          have hi := assertSome_eq_ok hi
          have hprv := assertSome_eq_ok hprv
          obtain ⟨rep, -, hblock⟩ := sendBlock_eq hr hi hprv destination amount
          obtain rfl := Except.ok.inj (hblock.symm.trans hb')
          have hle := hmay.2.2.2
          rw [Ledger.accountBalance, hi] at hle
          exact ⟨info, _, hi, hle, madeFrom_ensureWork hsign hprv _⟩
        · rw [hfinish] at h
          cases h
      · rw [sendAction_idle hcached hmay] at h
        cases h

theorem of_block_change (hsign : e.SignsValidly)
    (h : block s w (.change source representative) = .ok (some b)) :
    ∃ info, s.accountGet source = some info ∧
      MadeFrom e ⟨source, info.head, representative, info.balance, 0⟩ b := by
  simp only [block, changeAction] at h
  split at h
  · obtain ⟨info, hi, h⟩ := bind_eq_ok h
    obtain ⟨prv, hprv, h⟩ := bind_eq_ok h
    obtain rfl := Option.some.inj (Except.ok.inj h)
    exact ⟨info, assertSome_eq_ok hi, madeFrom_ensureWork hsign (assertSome_eq_ok hprv) _⟩
  · cases h

theorem of_block_receive (hsign : e.SignsValidly) {minimum : Uint128} {sent : Block}
    (h : block s w (.receive minimum sent representative amount) = .ok (some b)) :
    ∃ account pending, Ledger.blockDestination e.toEnv s sent = .ok account ∧
      s.pendingGet ⟨account, sent.hash e.toEnv⟩ = some pending ∧
      ((∃ info rep, s.accountGet account = some info ∧ MadeFrom e ⟨account, info.head, rep,
          info.balance + pending.amount, sent.hash e.toEnv⟩ b) ∨
        s.accountGet account = none ∧ MadeFrom e ⟨account, 0, representative, pending.amount,
          sent.hash e.toEnv⟩ b) := by
  simp only [block, receiveAction] at h
  split at h
  · obtain ⟨account, haccount, h⟩ := bind_eq_ok h
    split at h
    · rename_i pending prv hpending hprv
      refine ⟨account, pending, haccount, hpending, ?_⟩
      split at h
      · rename_i info hi
        obtain ⟨rep, -, h⟩ := bind_eq_ok h
        obtain rfl := Option.some.inj (Except.ok.inj h)
        exact Or.inl ⟨info, _, hi, madeFrom_ensureWork hsign hprv _⟩
      · rename_i hi
        obtain rfl := Option.some.inj (Except.ok.inj h)
        exact Or.inr ⟨hi, madeFrom_ensureWork hsign hprv _⟩
    · cases h
  · cases h

/-! ## What they do -/

/-- The block is accepted, and what was asked for happens. -/
def Succeeds (e : ActionEnv) (now : ℕ) (s : BlockStore) (b : Block) (request : WalletRequest) :
    Prop :=
  ∃ s' ret, Ledger.process e.toEnv now s b = .ok (s', ret) ∧ ret.code = .progress ∧
    request.Done e.toEnv s s' b

variable (hv : Valid U s Λ) (hass : HashAssumptions e.toEnv U) (hU : b ∈ U) (now : ℕ)

include hv hass hU

/-- A block that leaves the balance alone makes nothing pending. -/
theorem not_succeeds_send_zero (hsign : e.SignsValidly)
    (h : block s w (.send ids source destination 0 id) = .ok (some b)) :
    ¬ Succeeds e now s b (.send ids source destination 0 id) := by
  rintro ⟨s', ret, hrun, hcode, -, hpending⟩
  obtain ⟨info, rep, hi, -, c, rfl, hc, -⟩ := of_block_send hsign hv.refines h
  obtain ⟨q, hd⟩ := hv.refines.accounts.sound hi
  obtain ⟨x, ad, hb, hins⟩ := hv.admissible_of_process hass hU hrun hcode
  obtain ⟨hr', -, -⟩ := hv.refines.insert hass ad (hb ▸ hU) hins
  obtain ⟨src, hsrc, hdest, -, -⟩ := hr'.of_pendingGet hpending
  rw [Lattice.insert_entry_self] at hsrc
  obtain rfl := Option.some.inj hsrc
  -- only a block that lowers the balance sends
  have hlt : x.balance < x.prior := by
    unfold Entry.sendsTo at hdest
    rw [hb] at hdest
    exact (Option.ite_none_right_eq_some.mp hdest).1
  obtain ⟨-, ⟨q', hq', hfol, -⟩ | ⟨hfirst, -⟩⟩ := ad.of_stateBlock hb
  · have hbal := ad.justified.balance?_toNat (x := c.hashables.balance) (by rw [hb]; rfl)
    rw [hc] at hq'
    obtain rfl := Option.some.inj (hd.head.symm.trans hq')
    have hprior := hfol.prior
    have hsame := hd.balance
    rw [hc] at hbal
    simp only [sub_zero] at hbal
    omega
  · rw [hc] at hfirst
    exact Λ.ne_zero hd.head hfirst

theorem succeeds_send (hsign : e.SignsValidly)
    (h : block s w (.send ids source destination amount id) = .ok (some b)) (hne : amount ≠ 0) :
    Succeeds e now s b (.send ids source destination amount id) := by
  obtain ⟨info, rep, hi, hle, c, rfl, hc, hsigned⟩ := of_block_send hsign hv.refines h
  obtain ⟨q, hd⟩ := hv.refines.accounts.sound hi
  have hbalance : (info.balance - amount).toNat = info.balance.toNat - amount.toNat :=
    BitVec.toNat_sub_of_le hle
  have hle : amount.toNat ≤ info.balance.toNat := hle
  have hpos : amount.toNat ≠ 0 := fun h0 => hne (BitVec.eq_of_toNat_eq h0)
  have hq := hd.balance
  have hmoves : Λ.StateMoves c q.balance := by
    refine .sends ?_
    rw [hc]
    dsimp only
    omega
  obtain ⟨s', ret, x, ad, hrun, hcode, hins, hb, hown, hprior, hbal⟩ :=
    hv.process_state hass hU (by rw [hc]; exact hsigned) (by rw [hc]; exact hd) (by rw [hc])
      hmoves now
  rw [hc] at hown hbal
  dsimp only at hown hbal
  refine ⟨s', ret, hrun, hcode, ?_, ?_⟩
  · rw [hins.accountBalance hown hbal, hd.accountBalance hi]
    omega
  · have hlt : x.balance < x.prior := by omega
    have hdest : x.sendsTo = some destination := by
      unfold Entry.sendsTo
      rw [hb]
      simp only [if_pos hlt, hc]
    have hamount : x.amount = amount.toNat := by
      rw [Entry.amount, if_pos hlt]
      omega
    change s'.pending.lookup _ = _
    rw [hins.pending, pendingInsert_sends hdest, Finmap.lookup_insert, Entry.pendingInfo, hown,
      hamount, BitVec.ofNat_toNat, BitVec.setWidth_eq]

theorem succeeds_change (hsign : e.SignsValidly)
    (h : block s w (.change source representative) = .ok (some b)) :
    Succeeds e now s b (.change source representative) := by
  obtain ⟨info, hi, c, rfl, hc, hsigned⟩ := of_block_change hsign h
  obtain ⟨q, hd⟩ := hv.refines.accounts.sound hi
  obtain ⟨s', ret, x, ad, hrun, hcode, hins, hb, hown, hprior, hbal⟩ :=
    hv.process_state hass hU (by rw [hc]; exact hsigned) (by rw [hc]; exact hd) (by rw [hc])
      (.keeps (by rw [hc]) (by rw [hc]; exact hd.balance)) now
  rw [hc] at hown hbal
  obtain ⟨hr', -, -⟩ := hv.refines.insert hass ad (hb ▸ hU) hins
  refine ⟨s', ret, hrun, hcode, ?_, _, .stateBlock c, hown ▸ hins.accountGet, ?_,
    congrArg StateHashables.representative hc⟩
  · rw [hins.accountBalance hown hbal, Ledger.accountBalance, hi]
    rfl
  · have hrep : x.rep = (Block.stateBlock c).hash e.toEnv :=
      ad.justified.rep_self (by rw [hb]; rfl)
    change s'.blockGet x.rep = _
    rw [hrep, hr'.blocks.blockGet_some (Lattice.insert_entry_self ad), hb]

theorem succeeds_receive_iff (hsign : e.SignsValidly) {minimum : Uint128} {sent : Block}
    (h : block s w (.receive minimum sent representative amount) = .ok (some b)) :
    Succeeds e now s b (.receive minimum sent representative amount) ↔
      Ledger.blockDestination e.toEnv s sent ≠ .ok burnAccount := by
  obtain ⟨account, pending, haccount, hpending, hmade⟩ := of_block_receive hsign h
  obtain ⟨src, hsrc, hdest, hun, hinfo⟩ := hv.refines.of_pendingGet hpending
  have hlink : sent.hash e.toEnv ≠ 0 := Λ.ne_zero hsrc
  have hamount : pending.amount.toNat = src.amount := by
    rw [hinfo, Lattice.toNat_pendingInfo hsrc]
  -- whatever the balance was, the block takes the pending amount
  have hmoves : ∀ (c : StateBlock) (prior : ℕ), c.hashables.account = account →
      c.hashables.link = sent.hash e.toEnv →
      c.hashables.balance.toNat = prior + pending.amount.toNat → Λ.StateMoves c prior := by
    intro c prior haccount' hlink' hbalance
    exact .takes (hlink' ▸ hlink) (hlink' ▸ hsrc) (haccount' ▸ hdest) (hlink' ▸ hun)
      (hbalance.trans (by rw [hamount]))
  rw [haccount]
  constructor
  · rintro ⟨s', ret, hrun, hcode, -⟩ hburn
    obtain rfl := Except.ok.inj hburn
    obtain ⟨x, ad, hb, hins⟩ := hv.admissible_of_process hass hU hrun hcode
    obtain ⟨c, rfl, hc⟩ : ∃ c : StateBlock, b = .stateBlock c ∧
        c.hashables.account = burnAccount := by
      rcases hmade with ⟨info, rep, -, c, hbc, hc, -⟩ | ⟨-, c, hbc, hc, -⟩
      · exact ⟨c, hbc, by rw [hc]⟩
      · exact ⟨c, hbc, by rw [hc]⟩
    have hown := (ad.of_stateBlock hb).1
    exact (Lattice.sound (Lattice.insert_entry_self ad)).1 (hown.trans hc)
  · intro hburn
    rcases hmade with ⟨info, rep, hi, c, rfl, hc, hsigned⟩ | ⟨hi, c, rfl, hc, hsigned⟩
    · obtain ⟨q, hd⟩ := hv.refines.accounts.sound hi
      have hsum : (info.balance + pending.amount).toNat =
          info.balance.toNat + pending.amount.toNat := by
        have hle := BlockStore.balance_add_amount_le hi hpending
        rw [BitVec.toNat_add]
        exact Nat.mod_eq_of_lt (hle.trans_lt (by rw [hv.supply]; decide))
      have hq := hd.balance
      have hprior : c.hashables.balance.toNat = q.balance + pending.amount.toNat := by
        rw [hc, ← hq]
        exact hsum
      obtain ⟨s', ret, x, ad, hrun, hcode, hins, hb, hown, hprior, hbal⟩ :=
        hv.process_state hass hU (by rw [hc]; exact hsigned) (by rw [hc]; exact hd) (by rw [hc])
          (hmoves c q.balance (by rw [hc]) (by rw [hc]) hprior) now
      rw [hc] at hown hbal
      refine ⟨s', ret, hrun, hcode, account, pending, haccount, hpending, ?_⟩
      rw [hins.accountBalance hown hbal, hd.accountBalance hi, hsum]
      omega
    · have h0 : account ≠ 0 := fun heq => hburn (by rw [heq]; rfl)
      have hprior : c.hashables.balance.toNat = 0 + pending.amount.toNat := by
        rw [hc, Nat.zero_add]
      obtain ⟨s', ret, x, ad, hrun, hcode, hins, hown, hbal⟩ :=
        hv.process_stateOpen hass hU (by rw [hc]; exact hsigned) (by rw [hc]; exact hi)
          (by rw [hc]; exact h0) (by rw [hc]) (by rw [hc]; exact hlink)
          (hmoves c 0 (by rw [hc]) (by rw [hc]) hprior) now
      rw [hc] at hown hbal
      refine ⟨s', ret, hrun, hcode, account, pending, haccount, hpending, ?_⟩
      rw [hins.accountBalance hown hbal, Ledger.accountBalance, hi]
      exact (Nat.zero_add _).symm

end WalletRequest

end Made

/-- **Blocks of the wallet are valid and mean what was asked.** On every reachable
ledger and for any wallet, a new block of `send_action`, `receive_action` or
`change_action` is accepted on that ledger and does what was asked for, if and only if
a send is not one of nothing and a receive is not for the burn account. -/
theorem wallet_blocks_succeed_iff {e : ActionEnv} {U : Set Block} {s : BlockStore}
    (hsign : e.SignsValidly) (hass : HashAssumptions e.toEnv U)
    (hs : Ledger.Reachable e.toEnv U s) (w : WalletStore e.toWalletEnv) (request : WalletRequest)
    {b : Block} (hb : request.block s w = .ok (some b)) (hU : b ∈ U) (now : ℕ) :
    request.Succeeds e now s b ↔ request.Proper e.toEnv s := by
  obtain ⟨Λ, hv⟩ := Ledger.Reachable.valid hass s hs
  cases request with
  | send ids source destination amount id =>
    constructor
    · rintro hdone rfl
      exact WalletRequest.not_succeeds_send_zero hv hass hU now hsign hb hdone
    · exact WalletRequest.succeeds_send hv hass hU now hsign hb
  | receive minimum sent representative amount =>
    exact WalletRequest.succeeds_receive_iff hv hass hU now hsign hb
  | change source representative =>
    exact iff_of_true (WalletRequest.succeeds_change hv hass hU now hsign hb) trivial

/-- The block of a send of nothing is refused: its destination is not the hash of a
stored block. -/
theorem send_nothing_refused :
    (WalletRequest.send ∅ account 9 0 none).block ledger keyed =
      .ok (some (spend Sample.genesisHash genesisAmount)) ∧
    (Ledger.process env.toEnv 0 ledger
      (spend Sample.genesisHash genesisAmount)).map (fun r => r.2.code) =
        .ok .gapSource := by
  decide +kernel

/-- A send of 1 lowers the balance by 1 and makes 1 pending. -/
theorem wallet_blocks_succeed_iff_one :
    (WalletRequest.send ∅ account 9 1 none).Succeeds env 0 ledger
      (spend Sample.genesisHash (genesisAmount - 1)) := by
  have hblock : (WalletRequest.send ∅ account 9 1 none).block ledger
      keyed = .ok (some (spend Sample.genesisHash (genesisAmount - 1))) := by
    decide +kernel
  refine (wallet_blocks_succeed_iff (fun _ _ => rfl) assumptions
    ledger_reachable keyed _ hblock ?_ 0).mpr ?_
  · exact List.mem_cons_of_mem _ List.mem_cons_self
  · exact (by decide : (1 : Uint128) ≠ 0)

end RaiBlocks
