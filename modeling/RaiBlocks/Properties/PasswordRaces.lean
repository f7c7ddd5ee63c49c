import RaiBlocks.Wallet.Sessions

/-!
# Inserting keys while passwords are entered

A writer tests the password and derives the wallet key under the mutex of the store,
but releases the mutex in between, and `attempt_password` puts what it is given in the
place of the password before it knows whether it is right. A writer that derives its key
just then encrypts with a key that no right password gives back.

With a valid password the keystream of the wallet key is the check value of the table,
which never changes. So if every writer derives its key while the password is valid, all
that it writes can be read whenever the wallet is unlocked, however the password changes.
-/

namespace RaiBlocks

open Foundation Thread Safe WalletStore Session

variable {e : WalletEnv} {s s' : Session e} {c : Uint256}

namespace Session

variable {prv : Uint256}

/-! ## The programs -/

/-- With every piece permitted, the program keeps what was inserted. -/
abbrev Keeps {α : Type} (t : Writer e α) (Q : α → Session e → Prop) (s : Session e) : Prop :=
  t.Safe Outside Permitted Q s

theorem keeps_validPassword (h : Kept c s) : Keeps Writer.validPassword (fun _ s' => Kept c s') s :=
  require fun _ h₁ _ _ _ h₂ => (h.outside h₁).outside h₂

/-- A key that is derived with a valid password has the check value as keystream. -/
theorem keystream_outside (hv : s.store.validPassword = true) (h : Kept c s) (ho : Outside s s') :
    e.keystream s.store.walletKey (oword s'.store.salt) = c := by
  rw [ho.salt, keystream_eq_check hv, h.check]

theorem keeps_insertAdhoc (h : Kept c s) (hlarge : 2 ^ 64 ≤ (prv ^^^ c).toNat) :
    Keeps (Writer.insertAdhoc prv) (fun _ s' => Kept c s') s := by
  refine bind Outside.refl (keeps_validPassword h) fun _ s₁ h₁ => ?_
  refine bind Outside.refl (Q := fun key s' => Kept c s' ∧
    e.keystream key (oword s'.store.salt) = c ∧ specialCount ≤ e.publicKey prv) ?_ ?_
  · refine look fun s₂ h₂ hp s₃ h₃ => ?_
    have hk := h₁.outside h₂
    exact ⟨hk.outside h₃, keystream_outside hp.1 hk h₃, hp.2⟩
  · rintro key s₂ ⟨h₂, hkey, hpub⟩
    refine change fun s₃ h₃ _ s₄ h₄ => ?_
    rw [← h₃.salt] at hkey
    exact ((h₂.outside h₃).adhoc hkey hpub hlarge).outside h₄

theorem keeps_seedSet (h : Kept c s) : Keeps (Writer.seedSet prv) (fun _ s' => Kept c s') s := by
  refine bind Outside.refl (Q := fun key s' => Kept c s' ∧
    e.keystream key (oword s'.store.salt) = c) ?_ ?_
  · refine look fun s₂ h₂ hp s₃ h₃ => ?_
    have hk := h.outside h₂
    exact ⟨hk.outside h₃, keystream_outside hp hk h₃⟩
  · rintro key s₂ ⟨h₂, hkey⟩
    refine change fun s₃ h₃ hp s₄ h₄ => ?_
    rw [← h₃.salt] at hkey
    exact ((h₂.outside h₃).seedPut hkey hp).outside h₄

/-- `prv` is the key with the given index, and its account is not a record. -/
structure Derived (c : Uint256) (index : BitVec 32) (prv : Uint256) (s : Session e) : Prop where
  kept : Kept c s
  eq : prv = deterministicKey e.toEnv s.store.clearSeed index
  ordinary : specialCount ≤ e.publicKey prv

theorem Derived.outside {index : BitVec 32} (h : Derived c index prv s) (ho : Outside s s') :
    Derived c index prv s' := by
  refine ⟨h.kept.outside ho, ?_, h.ordinary⟩
  rw [ho.clearSeed]
  exact h.eq

theorem keeps_deterministicPrv (index : BitVec 32) (h : Kept c s) :
    Keeps (Writer.deterministicPrv index) (Derived c index) s := by
  refine bind Outside.refl (keeps_validPassword h) fun _ s₁ h₁ => ?_
  refine look fun s₂ h₂ hp s₃ h₃ => ?_
  have hd : Derived c index (deterministicKey e.toEnv s₂.store.seed index) s₂ :=
    ⟨h₁.outside h₂, by rw [seed_eq_clearSeed hp.1], hp.2 index⟩
  exact hd.outside h₃

theorem keeps_insertFrom (n : ℕ) (index : BitVec 32) (prv : Uint256) (s : Session e)
    (h : Derived c index prv s) :
    Keeps (Writer.insertFrom n index prv) (fun _ s' => Kept c s') s := by
  induction n generalizing index prv s with
  | zero =>
    intro s₁ h₁ _ s₂ hbody s₃ h₃
    dsimp only at hbody
    split_ifs at hbody
    obtain rfl := Except.ok.inj hbody
    have hd := h.outside h₁
    exact (hd.kept.putDeterministic hd.eq hd.ordinary).outside h₃
  | succ n ih =>
    intro s₁ h₁ _ s₂ hbody
    have hd := h.outside h₁
    dsimp only at hbody ⊢
    split_ifs at hbody ⊢
    · obtain rfl := Except.ok.inj hbody
      exact bind Outside.refl (keeps_deterministicPrv (index + 1) hd.kept)
        fun prv' s' h' => ih (index + 1) prv' s' h'
    · obtain rfl := Except.ok.inj hbody
      exact fun s₃ h₃ => (hd.kept.putDeterministic hd.eq hd.ordinary).outside h₃

theorem keeps_deterministicInsert (h : Kept c s) :
    Keeps Writer.deterministicInsert (fun _ s' => Kept c s') s := by
  refine bind Outside.refl (Q := fun _ s' => Kept c s') ?_ fun index s₁ h₁ => ?_
  · exact look fun s₁ h₁ _ s₂ h₂ => (h.outside h₁).outside h₂
  · exact bind Outside.refl (keeps_deterministicPrv index h₁)
      fun prv s₂ h₂ => keeps_insertFrom _ index prv s₂ h₂

theorem keeps_ret (h : Kept c s) : Keeps (.ret ()) (fun _ s' => Kept c s') s :=
  fun _ ho => h.outside ho

theorem keeps_calls (cs : List Writer.Call) (h : Kept c s)
    (hlarge : ∀ prv, .insertAdhoc prv ∈ cs → 2 ^ 64 ≤ (prv ^^^ c).toNat) :
    Keeps (Writer.calls cs) (fun _ s' => Kept c s') s := by
  induction cs generalizing s with
  | nil => exact keeps_ret h
  | cons call cs ih =>
    have hcall : Keeps (Writer.call call) (fun _ s' => Kept c s') s := by
      cases call with
      | insertAdhoc prv =>
        exact bind Outside.refl
          (keeps_insertAdhoc h (hlarge prv List.mem_cons_self)) fun _ _ h' => keeps_ret h'
      | seedSet prv => exact keeps_seedSet h
      | deterministicInsert =>
        exact bind Outside.refl (keeps_deterministicInsert h)
          fun _ _ h' => keeps_ret h'
    exact bind Outside.refl hcall fun _ _ h' =>
      ih h' fun prv hprv => hlarge prv (List.mem_cons_of_mem _ hprv)

end Session

/-- The writer makes its calls while other threads change the password. -/
abbrev sessionStep (e : WalletEnv) :
    Session e × Writer e Unit → Move PasswordCall → Except Fault (Session e × Writer e Unit) :=
  step PasswordCall.apply

/-- **Inserted keys survive changes of the password**, if writers derive keys with valid
passwords only. From an unlocked wallet, one thread makes the calls `calls` and others any
attempts and changes, in any interleaving. When all calls have returned and the wallet is
unlocked, `fetch` returns for every account the key that was last inserted for it, and
`seed` returns the seed last set. -/
theorem keys_survive_passwords {w : WalletStore e} (hopen : w.validPassword = true)
    (calls : List Writer.Call)
    (hlarge : ∀ prv, .insertAdhoc prv ∈ calls →
      2 ^ 64 ≤ (e.encrypt prv w.walletKey (oword w.salt)).toNat)
    {moves : List (Move PasswordCall)}
    (hguard : Machine.Guarded (sessionStep e)
      (Allowed Permitted PasswordCall.Permitted) ({ store := w }, Writer.calls calls)
      moves)
    (hrun : Machine.run (sessionStep e) ({ store := w }, Writer.calls calls) moves =
      .ok (s, .ret ()))
    (hend : s.store.validPassword = true) :
    (∀ a prv, s.inserted.lookup a = some prv → s.store.fetch a = some prv) ∧
      ∀ x, s.seed = some x → s.store.seed = x := by
  have hstart : Session.Kept w.check ({ store := w } : Session e) := by
    refine ⟨rfl, fun a prv ha => ?_, fun x hx => ?_⟩
    · cases ha
    · cases hx
  have hcipher : ∀ prv, .insertAdhoc prv ∈ calls → 2 ^ 64 ≤ (prv ^^^ w.check).toNat := by
    intro prv hprv
    have h := hlarge prv hprv
    rw [WalletEnv.encrypt, keystream_eq_check hopen] at h
    exact h
  have hkept := run_safe Outside.refl Outside.trans outside_apply
    (keeps_calls calls hstart hcipher) hguard hrun
  refine ⟨fun a prv ha => ?_, fun x hx => ?_⟩
  · rw [fetch_eq_opened hend]
    exact (hkept.account a prv ha).2
  · rw [seed_eq_clearSeed hend]
    exact hkept.seed x hx

namespace Races

open WalletSample

/-- The wrong password is entered after the writer has tested the password and before
it derives its key, and the right one afterwards. -/
def race : List (Move PasswordCall) :=
  [.thread, .other (.attemptPassword "x" 0), .thread, .thread, .other (.attemptPassword "" 0)]

/-- The right password is entered again before the writer goes on. -/
def prompt : List (Move PasswordCall) :=
  [.thread, .other (.attemptPassword "x" 0), .other (.attemptPassword "" 0), .thread,
    .other (.rekey "secret"), .thread, .other (.attemptPassword "x" 0),
    .other (.attemptPassword "secret" 0)]

def run (moves : List (Move PasswordCall)) : Except Fault (Session env × Writer env Unit) :=
  Machine.run (sessionStep env) ({ store := wallet }, Writer.calls [.insertAdhoc prv]) moves

theorem prompt_allowed : Machine.Guarded (sessionStep env)
    (Allowed Permitted PasswordCall.Permitted)
    ({ store := wallet }, Writer.calls [.insertAdhoc prv]) prompt := by
  decide +kernel

end Races

/-- The private key is lost: the wallet is unlocked before and after, but `fetch` fails for
the account. -/
theorem key_lost_in_race : WalletSample.wallet.validPassword = true ∧
    2 ^ 64 ≤ (WalletSample.env.encrypt WalletSample.prv WalletSample.wallet.walletKey
      (oword WalletSample.wallet.salt)).toNat ∧
    ∃ s, Races.run Races.race = .ok (s, .ret ()) ∧ s.store.validPassword = true ∧
      s.inserted.lookup (WalletSample.env.publicKey WalletSample.prv) = some WalletSample.prv ∧
      s.store.fetch (WalletSample.env.publicKey WalletSample.prv) = none := by
  refine ⟨WalletSample.wallet_open.1, WalletSample.wallet_open.2, ?_⟩
  obtain ⟨s, u, hrun, htest⟩ := exists_of_endsIn (T := fun s =>
    s.store.validPassword &&
      s.inserted.lookup (WalletSample.env.publicKey WalletSample.prv) == some WalletSample.prv &&
      s.store.fetch (WalletSample.env.publicKey WalletSample.prv) == none)
    (x := Races.run Races.race) (by decide +kernel)
  simp only [Bool.and_eq_true, beq_iff_eq] at htest
  exact ⟨s, hrun, htest.1.1, htest.1.2, htest.2⟩

/-- The password is right again when the writer derives its key, and then changed. -/
theorem keys_survive_passwords_prompt : ∃ s, Races.run Races.prompt = .ok (s, .ret ()) ∧
    s.store.fetch (WalletSample.env.publicKey WalletSample.prv) = some WalletSample.prv := by
  obtain ⟨s, u, hrun, htest⟩ := exists_of_endsIn (T := fun s =>
    s.store.validPassword &&
      s.inserted.lookup (WalletSample.env.publicKey WalletSample.prv) == some WalletSample.prv)
    (x := Races.run Races.prompt) (by decide +kernel)
  simp only [Bool.and_eq_true, beq_iff_eq] at htest
  have hlarge : ∀ prv, .insertAdhoc prv ∈ [Writer.Call.insertAdhoc WalletSample.prv] →
      2 ^ 64 ≤ (WalletSample.env.encrypt prv WalletSample.wallet.walletKey
        (oword WalletSample.wallet.salt)).toNat := by
    intro prv hprv
    obtain ⟨⟩ := List.mem_singleton.mp hprv
    exact WalletSample.wallet_open.2
  exact ⟨s, hrun, (keys_survive_passwords WalletSample.wallet_open.1 _ hlarge
    Races.prompt_allowed hrun htest.1).1 _ _ htest.2⟩

end RaiBlocks
