import RaiBlocks.Foundation.Lists
import RaiBlocks.Wallet.Concurrent

/-!
# What writers and other threads leave alone

With a valid password the keystream of the wallet key is the check value of the table, which never
changes. So what is written with it can be read whenever the wallet is unlocked.
-/

namespace RaiBlocks

open Foundation

variable {e : WalletEnv} {s s' : Session e} {c : Uint256}

namespace Session

/-! ## Conditions -/

/-- The condition on a piece of a writer. -/
def Permitted (access : Access) (s : Session e) : Prop :=
  match access with
  | .adhocKey prv => s.store.validPassword = true ∧ specialCount ≤ e.publicKey prv
  | .seedKey => s.store.validPassword = true
  | .seedPut => ∀ a prv, s.inserted.lookup a = some prv →
      WalletStore.keyType (s.store.entryGetRaw a) ≠ .deterministic
  | .deterministicKey => s.store.validPassword = true ∧
      ∀ index, specialCount ≤ e.publicKey (deterministicKey e.toEnv s.store.seed index)
  | .other => True

end Session

/-- The condition on a call of another thread: the right password is not entered in a
table that is then upgraded. -/
def PasswordCall.Permitted (op : PasswordCall) (s : Session e) : Prop :=
  match op with
  | .attemptPassword password _ =>
    (s.store.withPassword (s.store.deriveKey password)).validPassword = true →
      s.store.version ≠ 1 ∧ s.store.version ≠ 2
  | .rekey _ => True

instance decidablePermittedAccess (access : Access) (s : Session e) :
    Decidable (Session.Permitted access s) :=
  match access with
  | .adhocKey _ => inferInstanceAs (Decidable (_ ∧ _))
  | .seedKey => inferInstanceAs (Decidable (_ = _))
  | .seedPut =>
    haveI : Decidable (∀ x ∈ s.inserted, s.inserted.lookup x.1 = some x.2 →
        WalletStore.keyType (s.store.entryGetRaw x.1) ≠ .deterministic) :=
      List.decidableBAll _ s.inserted
    decidable_of_iff (∀ x ∈ s.inserted, s.inserted.lookup x.1 = some x.2 →
      WalletStore.keyType (s.store.entryGetRaw x.1) ≠ .deterministic)
    ⟨fun h a prv ha => h (a, prv) (mem_of_lookup ha) ha, fun h x _ hx => h x.1 x.2 hx⟩
  | .deterministicKey => inferInstanceAs (Decidable (_ ∧ _))
  | .other => .isTrue trivial

instance decidablePermittedCall (op : PasswordCall) (s : Session e) : Decidable (op.Permitted s) :=
  match op with
  | .attemptPassword _ _ => inferInstanceAs (Decidable (_ → _))
  | .rekey _ => .isTrue trivial

namespace Session

/-! ## What the other threads do -/

/-- The other threads change the password, the wallet key and its record. -/
structure Outside (s s' : Session e) : Prop where
  inserted : s'.inserted = s.inserted
  seed : s'.seed = s.seed
  lookup : ∀ k, k ≠ walletKeySpecial → s'.store.handle.lookup k = s.store.handle.lookup k

theorem Outside.refl (s : Session e) : Outside s s := ⟨rfl, rfl, fun _ _ => rfl⟩

theorem Outside.trans (s t u : Session e) (h : Outside s t) (h' : Outside t u) : Outside s u :=
  ⟨h'.inserted.trans h.inserted, h'.seed.trans h.seed,
    fun k hk => (h'.lookup k hk).trans (h.lookup k hk)⟩

theorem Outside.entry (h : Outside s s') {k : Uint256} (hk : k ≠ walletKeySpecial) :
    s'.store.entryGetRaw k = s.store.entryGetRaw k :=
  WalletStore.entryGetRaw_congr (h.lookup k hk)

theorem Outside.salt (h : Outside s s') : s'.store.salt = s.store.salt :=
  congrArg WalletValue.key (h.entry (by decide))

theorem Outside.check (h : Outside s s') : s'.store.check = s.store.check :=
  congrArg WalletValue.key (h.entry (by decide))

theorem Outside.clearSeed (h : Outside s s') : s'.store.clearSeed = s.store.clearSeed := by
  unfold WalletStore.clearSeed
  rw [h.check, h.entry (by decide)]

theorem outside_apply (op : PasswordCall) (s s' : Session e) (hop : op.Permitted s)
    (h : op.apply s = .ok s') : Outside s s' := by
  cases op with
  | rekey password =>
    obtain rfl := Except.ok.inj h
    refine ⟨rfl, rfl, fun k hk => ?_⟩
    dsimp only
    unfold WalletStore.rekey
    split_ifs
    · exact (WalletStore.lookup_encryptPut _ _ _ _).trans (if_neg hk)
    · rfl
  | attemptPassword password seed =>
    obtain ⟨r, hr, h⟩ := bind_eq_ok h
    obtain rfl := Except.ok.inj h
    refine ⟨rfl, rfl, fun k hk => ?_⟩
    simp only [WalletStore.attemptPassword] at hr
    split_ifs at hr with hvalid h1 h2
    · exact absurd h1 (hop hvalid).1
    · exact absurd h2 (hop hvalid).2
    · obtain rfl := Except.ok.inj hr
      rfl
    · obtain rfl := Except.ok.inj hr
      rfl

/-! ## What a writer keeps -/

/-- Whenever the wallet is unlocked, all that was inserted can be read. -/
structure Kept (c : Uint256) (s : Session e) : Prop where
  check : s.store.check = c
  account : ∀ a prv, s.inserted.lookup a = some prv → specialCount ≤ a ∧ s.store.opened a = some prv
  seed : ∀ x, s.seed = some x → s.store.clearSeed = x

theorem Kept.outside (h : Kept c s) (ho : Outside s s') : Kept c s' := by
  refine ⟨ho.check.trans h.check, fun a prv ha => ?_, fun x hx => ?_⟩
  · rw [ho.inserted] at ha
    obtain ⟨hspecial, hopen⟩ := h.account a prv ha
    refine ⟨hspecial, hopen ▸ WalletStore.opened_congr ?_ ho.check fun _ => ho.clearSeed⟩
    exact ho.entry (WalletStore.ne_of_special hspecial (by decide))
  · rw [ho.clearSeed]
    exact h.seed x (ho.seed ▸ hx)

theorem Kept.put (h : Kept c s) {store : WalletStore e} {pub prv : Uint256}
    (hb : WalletStore.Beside pub s.store store) (hopen : store.opened pub = some prv) :
    Kept c { s with store := store, inserted := (pub, prv) :: s.inserted } := by
  refine ⟨hb.check.trans h.check, fun a x ha => ?_, fun x hx => hb.clearSeed.trans (h.seed x hx)⟩
  rw [List.lookup_cons] at ha
  by_cases hap : a = pub
  · subst hap
    rw [beq_self_eq_true] at ha
    obtain rfl := Option.some.inj ha
    exact ⟨hb.ordinary, hopen⟩
  · rw [beq_eq_false_iff_ne.mpr hap] at ha
    obtain ⟨hspecial, hold⟩ := h.account a x ha
    refine ⟨hspecial, hold ▸ hb.opened hap ?_⟩
    exact WalletStore.ne_of_special hspecial (by decide)

theorem Kept.adhoc (h : Kept c s) {key prv : Uint256}
    (hkey : e.keystream key (oword s.store.salt) = c) (hpub : specialCount ≤ e.publicKey prv)
    (hlarge : 2 ^ 64 ≤ (prv ^^^ c).toNat) :
    Kept c { s with
      store := s.store.encryptPut (e.publicKey prv) ⟨key, oword s.store.salt, prv⟩
      inserted := (e.publicKey prv, prv) :: s.inserted } := by
  rw [← h.check] at hkey hlarge
  exact h.put (WalletStore.beside_encryptPut hpub _)
    (WalletStore.opened_encryptPut hkey hpub hlarge)

theorem Kept.seedPut (h : Kept c s) {key prv : Uint256}
    (hkey : e.keystream key (oword s.store.salt) = c) (hp : Permitted .seedPut s) :
    Kept c { s with
      store := (s.store.encryptPut seedSpecial ⟨key, oword s.store.salt, prv⟩).deterministicClear
      seed := some prv } := by
  have hspecial : ∀ k, k < specialCount → k ≠ seedSpecial → k ≠ deterministicIndexSpecial →
      (s.store.encryptPut seedSpecial ⟨key, oword s.store.salt, prv⟩
        ).deterministicClear.entryGetRaw k = s.store.entryGetRaw k := by
    intro k hk hs hi
    apply WalletStore.entryGetRaw_congr
    rw [WalletStore.lookup_deterministicClear hi fun hle => absurd hk (not_lt.mpr hle),
      WalletStore.lookup_encryptPut, if_neg hs]
  have hcheck := congrArg WalletValue.key
    (hspecial checkSpecial (by decide) (by decide) (by decide))
  refine ⟨hcheck.trans h.check, fun a x ha => ?_, fun x hx => ?_⟩
  · obtain ⟨hle, hopen⟩ := h.account a x ha
    have htype := hp a x ha
    have hentry : (s.store.encryptPut seedSpecial ⟨key, oword s.store.salt, prv⟩).entryGetRaw a =
        s.store.entryGetRaw a := by
      rw [WalletStore.entryGetRaw_encryptPut, if_neg (WalletStore.ne_of_special hle (by decide))]
    refine ⟨hle, hopen ▸ WalletStore.opened_congr ?_ hcheck fun hdet => absurd hdet htype⟩
    rw [← hentry]
    apply WalletStore.entryGetRaw_congr
    exact WalletStore.lookup_deterministicClear (WalletStore.ne_of_special hle (by decide))
      fun _ => hentry ▸ htype
  · obtain rfl := Option.some.inj hx
    have hentry : (s.store.encryptPut seedSpecial ⟨key, oword s.store.salt, prv⟩
        ).deterministicClear.entryGetRaw seedSpecial =
        ⟨e.encrypt prv key (oword s.store.salt), 0⟩ := by
      rw [WalletStore.entryGetRaw_congr (WalletStore.lookup_deterministicClear (by decide)
        fun hle => absurd hle (by decide)), WalletStore.entryGetRaw_encryptPut, if_pos rfl]
    unfold WalletStore.clearSeed
    dsimp only
    rw [hentry]
    change _ ^^^ WalletStore.check _ = prv
    rw [show WalletStore.check _ = c from hcheck.trans h.check, WalletEnv.encrypt, hkey,
      BitVec.xor_assoc, BitVec.xor_self, BitVec.xor_zero]

theorem Kept.putDeterministic (h : Kept c s) {index : BitVec 32} {prv : Uint256}
    (hprv : prv = deterministicKey e.toEnv s.store.clearSeed index)
    (hpub : specialCount ≤ e.publicKey prv) : Kept c (Writer.putDeterministic index prv s) := by
  subst hprv
  exact h.put (WalletStore.beside_putMarker hpub index) (WalletStore.opened_putMarker hpub)

end Session

end RaiBlocks
