import RaiBlocks.Wallet.Sessions

/-!
# Passwords over the life of a wallet

One caller makes calls on a new `wallet_store`: it stores keys, changes the password and
enters passwords, right and wrong ones. Two values in memory, the password and the wallet
key encrypted with a password, have to fit together and fit the check value of the table,
or the wallet key is gone.

`rekey` alone changes the encrypted wallet key, and only where the wallet key is known to
be right. So at all times the encrypted wallet key decrypts with the password that was
last set, and the password in memory is right exactly if it is that one.
-/

namespace RaiBlocks

open Foundation WalletEnv

/-- A session and the password it was last rekeyed to. No function reads the latter. -/
structure History (e : WalletEnv) extends Session e where
  rekeyed : Option String := none

/-- A call on the store. `attempt_password` draws a seed if it upgrades the table. -/
inductive StoreCall
  | insertAdhoc (prv : Uint256)
  | deterministicInsert
  | rekey (password : String)
  | attemptPassword (password : String) (seed : Uint256)

namespace History

variable {e : WalletEnv} {c : Creation} {h h' : History e}

/-- `store` holds one more private key. -/
def insert (h : History e) (store : WalletStore e) (pub prv : Uint256) : History e :=
  { h with store := store, inserted := (pub, prv) :: h.inserted }

/-- The caller's view of a call: it keeps what it has stored. The key of
`deterministic_insert` is that of the index before the one it leaves behind. -/
def apply (h : History e) : StoreCall → Except Fault (History e)
  | .insertAdhoc prv => do
    let r ← h.store.insertAdhoc prv
    return h.insert r.2 r.1 prv
  | .deterministicInsert => do
    let r ← h.store.deterministicInsert
    return h.insert r.2 r.1
      (deterministicKey e.toEnv h.store.seed (r.2.deterministicIndexGet - 1))
  | .rekey password =>
    let r := h.store.rekey password
    return { h with
      store := r.2
      rekeyed := if r.1 then h.rekeyed else some password }
  | .attemptPassword password seed => do
    let r ← h.store.attemptPassword password seed
    return { h with store := r.2 }

/-- A private key that is stored has a public key other than the numbers of the records,
and is encrypted to a large number. -/
def Allowed (h : History e) : StoreCall → Prop
  | .insertAdhoc prv => specialCount ≤ e.publicKey prv ∧
      2 ^ 64 ≤ (e.encrypt prv h.store.walletKey (oword h.store.salt)).toNat
  | .deterministicInsert => True
  | .rekey _ => True
  | .attemptPassword _ _ => True

instance decidableAllowed (h : History e) : ∀ call, Decidable (h.Allowed call)
  | .insertAdhoc _ => inferInstanceAs (Decidable (_ ∧ _))
  | .deterministicInsert => .isTrue trivial
  | .rekey _ => .isTrue trivial
  | .attemptPassword _ _ => .isTrue trivial

/-- The key of the password that was last set; a new wallet has the zero key. -/
def passwordKey (c : Creation) (h : History e) : Uint256 :=
  match h.rekeyed with
  | none => 0
  | some p => e.phs p c.salt

end History

/-! ## The wallet key -/

/-- Different keys have different keystreams. -/
def WalletEnv.KeysDiffer (e : WalletEnv) : Prop :=
  ∀ iv, Function.Injective fun key => e.keystream key iv

namespace WalletStore

variable {e : WalletEnv} {w : WalletStore e} {key password : Uint256}

/-- The password is valid exactly if it gives the wallet key. -/
theorem validPassword_iff (he : e.KeysDiffer)
    (hcheck : w.check = e.encrypt 0 key (oword w.salt)) :
    w.validPassword = true ↔ w.walletKey = key := by
  rw [validPassword, beq_iff_eq, hcheck, encrypt, encrypt, BitVec.xor_right_inj]
  exact ⟨fun h => (he _ h).symm, fun h => h ▸ rfl⟩

theorem walletKey_eq_iff (he : e.KeysDiffer)
    (hmem : w.walletKeyMem.value = e.encrypt key password (oword w.salt)) :
    w.walletKey = key ↔ w.password.value = password := by
  constructor
  · intro h
    rw [walletKey, hmem, encrypt, decrypt, BitVec.xor_assoc] at h
    -- The two keystreams cancel, so they are the same.
    have hzero : e.keystream password (oword w.salt) ^^^
        e.keystream w.password.value (oword w.salt) =
        0 := by
      rw [← BitVec.xor_right_inj key]
      exact h.trans BitVec.xor_zero.symm
    exact (he _ (BitVec.xor_eq_zero_iff.mp hzero)).symm
  · intro h
    rw [walletKey, hmem, h, decrypt_encrypt]

end WalletStore

/-! ## What the calls keep -/

namespace History

variable {e : WalletEnv} {c : Creation} {h h' : History e}

/-- The wallet key can be recovered with the password that was last set, and with it
all that was stored. -/
structure Intact (c : Creation) (h : History e) : Prop where
  salt : h.store.salt = c.salt
  version : h.store.version = 3
  records : h.store.HasRecords
  kept : Session.Kept (e.encrypt 0 c.walletKey (oword c.salt)) h.toSession
  mem : h.store.walletKeyMem.value = e.encrypt c.walletKey (h.passwordKey c) (oword c.salt)

namespace Intact

theorem validPassword_iff (hi : Intact c h) (he : e.KeysDiffer) :
    h.store.validPassword = true ↔ h.store.walletKey = c.walletKey :=
  WalletStore.validPassword_iff he (by rw [hi.salt, hi.kept.check])

theorem validPassword_iff_password (hi : Intact c h) (he : e.KeysDiffer) :
    h.store.validPassword = true ↔ h.store.password.value = h.passwordKey c := by
  rw [hi.validPassword_iff he]
  exact WalletStore.walletKey_eq_iff he (by rw [hi.salt, hi.mem])

theorem insert (hi : Intact c h) {store : WalletStore e} {pub prv : Uint256}
    (hb : WalletStore.Beside pub h.store store) (hrecords : store.HasRecords)
    (hmem : store.walletKeyMem = h.store.walletKeyMem)
    (hkept : Session.Kept (e.encrypt 0 c.walletKey (oword c.salt))
      (h.insert store pub prv).toSession) :
    Intact c (h.insert store pub prv) where
  salt := hb.salt.trans hi.salt
  version := by
    have hrecord := hb.record (k := versionSpecial) (by decide) (by decide)
    exact (congrArg (fun v => v.key.toNat % 256) hrecord).trans hi.version
  records := hrecords
  kept := hkept
  mem := (congrArg Fan.value hmem).trans hi.mem

theorem insertAdhoc (hi : Intact c h) {prv : Uint256} (hallowed : h.Allowed (.insertAdhoc prv))
    (hstep : h.apply (.insertAdhoc prv) = .ok h') : Intact c h' := by
  obtain ⟨r, hins, hstep⟩ := bind_eq_ok hstep
  obtain rfl := Except.ok.inj hstep
  obtain ⟨u, hvalid, hins⟩ := bind_eq_ok hins
  obtain rfl := Except.ok.inj hins
  obtain ⟨hpub, hlarge⟩ := hallowed
  have hkey := WalletStore.keystream_eq_check (of_assertThat hvalid)
  rw [encrypt, hkey, hi.kept.check] at hlarge
  refine hi.insert (WalletStore.beside_encryptPut hpub _)
    (fun k hk => WalletStore.exists_encryptPut _ (hi.records k hk)) rfl ?_
  exact hi.kept.adhoc (hkey.trans hi.kept.check) hpub hlarge

theorem deterministicInsert (hi : Intact c h) (hstep : h.apply .deterministicInsert = .ok h') :
    Intact c h' := by
  obtain ⟨⟨pub, store⟩, hins, hstep⟩ := bind_eq_ok hstep
  obtain rfl := Except.ok.inj hstep
  obtain ⟨hvalid, index, hpub, hnew, hstore⟩ := WalletStore.of_deterministicInsert hins
  dsimp only at hpub hnew hstore ⊢
  have hordinary := hi.records.ordinary hnew
  rw [hstore, WalletStore.deterministicIndexGet_putMarker, BitVec.add_sub_cancel]
  refine hi.insert (WalletStore.beside_putMarker hordinary index)
    (fun k hk => WalletStore.exists_putMarker _ (hi.records k hk)) rfl ?_
  rw [hpub] at hordinary ⊢
  exact hi.kept.putDeterministic (by rw [WalletStore.seed_eq_clearSeed hvalid]) hordinary

/-- Other passwords change neither the records that are read nor the private keys. -/
theorem outside (hi : Intact c h) (ho : Session.Outside h.toSession h'.toSession)
    (hrecords : h'.store.HasRecords)
    (hmem : h'.store.walletKeyMem.value =
      e.encrypt c.walletKey (h'.passwordKey c) (oword c.salt)) : Intact c h' where
  salt := ho.salt.trans hi.salt
  version := by
    have hrecord := ho.entry (k := versionSpecial) (by decide)
    exact (congrArg (fun v => v.key.toNat % 256) hrecord).trans hi.version
  records := hrecords
  kept := hi.kept.outside ho
  mem := hmem

theorem rekey (hi : Intact c h) (he : e.KeysDiffer) {password : String}
    (hstep : h.apply (.rekey password) = .ok h') : Intact c h' := by
  obtain rfl := Except.ok.inj hstep
  have ho := Session.outside_apply (.rekey password) h.toSession _ trivial rfl
  by_cases hvalid : h.store.validPassword = true
  · have hkey := (hi.validPassword_iff he).mp hvalid
    refine hi.outside ho ?_ ?_
    · simp only [WalletStore.rekey, if_pos hvalid]
      exact fun k hk => WalletStore.exists_encryptPut _ (hi.records k hk)
    · simp only [WalletStore.rekey, if_pos hvalid]
      change Fan.value (Fan.valueSet _ _) = _
      rw [Fan.value_valueSet, hkey, hi.salt]
      change _ = e.encrypt c.walletKey (e.phs password c.salt) (oword c.salt)
      rw [WalletStore.deriveKey, hi.salt]
  · refine hi.outside ho ?_ ?_
    · simp only [WalletStore.rekey, if_neg hvalid]
      exact hi.records
    · simp only [WalletStore.rekey, if_neg hvalid]
      exact hi.mem

theorem attemptPassword (hi : Intact c h) {password : String} {seed : Uint256}
    (hstep : h.apply (.attemptPassword password seed) = .ok h') : Intact c h' := by
  rw [apply, WalletStore.attemptPassword_of_version hi.version, ok_bind] at hstep
  obtain rfl := Except.ok.inj hstep
  exact ⟨hi.salt, hi.version, hi.records, hi.kept.outside ⟨rfl, rfl, fun _ _ => rfl⟩, hi.mem⟩

theorem apply (he : e.KeysDiffer) (h : History e) (call : StoreCall) (h' : History e)
    (hi : Intact c h) (hallowed : h.Allowed call) (hstep : h.apply call = .ok h') :
    Intact c h' := by
  cases call with
  | insertAdhoc prv => exact hi.insertAdhoc hallowed hstep
  | deterministicInsert => exact hi.deterministicInsert hstep
  | rekey password => exact hi.rekey he hstep
  | attemptPassword password seed => exact hi.attemptPassword hstep

end Intact

/-- A new wallet. -/
def start (e : WalletEnv) (c : Creation) : History e := { store := .create e c }

theorem intact_start (c : Creation) : Intact c (start e c) where
  salt := congrArg WalletValue.key (WalletStore.entryGetRaw_create c (by decide))
  version := congrArg (fun v => v.key.toNat % 256)
    (WalletStore.entryGetRaw_create c (k := versionSpecial) (by decide))
  records := WalletStore.hasRecords_create c
  kept := by
    refine ⟨congrArg WalletValue.key (WalletStore.entryGetRaw_create c (by decide)),
      fun a prv ha => ?_, fun x hx => ?_⟩
    · cases ha
    · cases hx
  mem := by
    have hrecord := congrArg WalletValue.key
      (WalletStore.entryGetRaw_create (e := e) c (k := walletKeySpecial) (by decide))
    exact (Fan.value_valueSet _ _).trans hrecord

end History

/-- **Passwords change nothing but the password.** After every run of calls on a new
wallet: while the password is valid, the wallet key is the one the wallet was created
with, and `fetch` returns for every account the private key that was stored for it. If
the wallet was last rekeyed to `p`, then a password is accepted exactly if it derives the
same key. A `rekey` that reports an error leaves the table as it is, and one that reports none
stores the wallet key under the new password and leaves all else. -/
theorem passwords_keep_wallet {e : WalletEnv} (he : e.KeysDiffer) (c : Creation)
    {calls : List StoreCall} {h : History e}
    (hguard : Machine.Guarded History.apply History.Allowed (History.start e c) calls)
    (hrun : Machine.run History.apply (History.start e c) calls = .ok h) :
    (h.store.validPassword = true → h.store.walletKey = c.walletKey ∧
      ∀ a prv, h.inserted.lookup a = some prv → h.store.fetch a = some prv) ∧
    (∀ p, h.rekeyed = some p → ∀ q seed, ∃ error w',
      h.store.attemptPassword q seed = .ok (error, w') ∧
        (error = false ↔ h.store.deriveKey q = h.store.deriveKey p)) ∧
    (∀ p, (h.store.rekey p).1 = true → (h.store.rekey p).2.handle = h.store.handle) ∧
    ∀ p, (h.store.rekey p).1 = false → ∀ k, (h.store.rekey p).2.handle.lookup k =
      if k = walletKeySpecial then
        some ⟨e.encrypt c.walletKey (h.store.deriveKey p) (oword h.store.salt), 0⟩
      else h.store.handle.lookup k := by
  have hi : History.Intact c h :=
    Machine.run_invariant (History.Intact.apply he) (History.intact_start c) hguard hrun
  refine ⟨fun hvalid => ⟨(hi.validPassword_iff he).mp hvalid, fun a prv ha => ?_⟩,
    fun p hp q seed => ⟨_, _, WalletStore.attemptPassword_of_version hi.version q seed, ?_⟩,
    fun p hp => ?_, fun p hp k => ?_⟩
  · rw [WalletStore.fetch_eq_opened hvalid]
    exact (hi.kept.account a prv ha).2
  · -- The history after the attempt is intact, so its password is right or wrong by its key.
    have hi' : History.Intact c
        { h with store := h.store.withPassword (h.store.deriveKey q) } :=
      hi.attemptPassword (show h.apply (.attemptPassword q seed) = .ok _ by
        rw [History.apply, WalletStore.attemptPassword_of_version hi.version, ok_bind]
        rfl)
    have hkey : h.passwordKey c = h.store.deriveKey p := by
      rw [History.passwordKey, hp, WalletStore.deriveKey, hi.salt]
    rw [Bool.not_eq_false', hi'.validPassword_iff_password he]
    change Fan.value (Fan.valueSet _ _) = h.passwordKey c ↔ _
    rw [Fan.value_valueSet, hkey]
  · unfold WalletStore.rekey at hp ⊢
    split_ifs at hp ⊢ with hvalid
    rfl
  · unfold WalletStore.rekey at hp ⊢
    split_ifs at hp with hvalid
    rw [if_pos hvalid, ← (hi.validPassword_iff he).mp hvalid]
    exact WalletStore.lookup_encryptPut _ walletKeySpecial k
      ⟨h.store.deriveKey p, oword h.store.salt, h.store.walletKey⟩

namespace Passwords

/-- A cipher whose keystreams differ. -/
def env : WalletEnv := { WalletSample.env with
  keystream := fun key iv => key ^^^ iv.setWidth 256 }

theorem keysDiffer : env.KeysDiffer := fun iv _ _ h => (BitVec.xor_left_inj (iv.setWidth 256)).mp h

def creation : Creation := { WalletSample.creation with walletKey := 0xC0FFEE <<< 128 }

/-- Keys are stored under two passwords, the second of which is entered wrongly once. -/
def calls : List StoreCall :=
  [.attemptPassword "x" 0, .rekey "lost", .attemptPassword "" 0, .insertAdhoc WalletSample.prv,
    .rekey "secret", .deterministicInsert, .attemptPassword "x" 0, .rekey "lost",
    .attemptPassword "hidden" 0]

theorem calls_allowed :
    Machine.Guarded History.apply History.Allowed (History.start env creation) calls := by
  decide +kernel

/-- The state at the end. -/
def final : History env :=
  (Machine.run History.apply (History.start env creation) calls).toOption.getD
    (History.start env creation)

theorem final_spec : (Machine.run History.apply (History.start env creation) calls).isOk = true ∧
    final.store.validPassword = true ∧ final.rekeyed = some "secret" ∧
    final.inserted.lookup (env.publicKey WalletSample.prv) = some WalletSample.prv := by
  decide +kernel

end Passwords

/-- Here a password that derives the key of the last one opens the wallet. -/
theorem passwords_keep_wallet_renamed :
    ∃ h, Machine.run History.apply (History.start Passwords.env Passwords.creation)
        Passwords.calls = .ok h ∧ h.store.walletKey = Passwords.creation.walletKey ∧
      h.store.fetch (Passwords.env.publicKey WalletSample.prv) = some WalletSample.prv ∧
      ∀ q seed, ∃ error w', h.store.attemptPassword q seed = .ok (error, w') ∧
        (error = false ↔ h.store.deriveKey q = h.store.deriveKey "secret") := by
  obtain ⟨hok, hvalid, hrekeyed, hins⟩ := Passwords.final_spec
  have hrun := eq_ok_getD hok (History.start Passwords.env Passwords.creation)
  obtain ⟨hkeys, hattempt, -⟩ := passwords_keep_wallet Passwords.keysDiffer Passwords.creation
    Passwords.calls_allowed hrun
  exact ⟨_, hrun, (hkeys hvalid).1, (hkeys hvalid).2 _ _ hins, hattempt "secret" hrekeyed⟩

end RaiBlocks
