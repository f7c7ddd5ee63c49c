import RaiBlocks.Foundation.Machine
import RaiBlocks.Wallet.Entries

/-!
# Adding accounts to a wallet

`insert_watch` writes an entry without a key under the account it is given, whatever was
there before; so watching an account of the wallet itself throws its private key away.
`insert_adhoc` replaces an entry too, but with the key of the same account, and
`deterministic_insert` looks for an account that has no entry.
-/

namespace RaiBlocks

open Foundation WalletStore

/-- A call that adds an account. The numbers below `special_count` are no accounts. -/
inductive AddCall
  | insertWatch (pub : { a : Uint256 // specialCount ≤ a })
  | insertAdhoc (prv : Uint256)
  | deterministicInsert

namespace AddCall

variable {e : WalletEnv} {w w' : WalletStore e} {c : Uint256}

def apply (w : WalletStore e) : AddCall → Except Fault (WalletStore e)
  | .insertWatch pub => return w.insertWatch pub
  | .insertAdhoc prv => return (← w.insertAdhoc prv).2
  | .deterministicInsert => return (← w.deterministicInsert).2

/-- The condition on a call: a watched account has no private key in the wallet, an
inserted key does not take the place of another one, and no number of a record is a
public key of the seed. -/
def Permitted (w : WalletStore e) : AddCall → Prop
  | .insertWatch pub => w.fetch pub = none
  | .insertAdhoc prv => specialCount ≤ e.publicKey prv ∧
      ∀ x, w.fetch (e.publicKey prv) = some x → x = prv
  | .deterministicInsert => w.fetch deterministicIndexSpecial = none ∧
      ∀ index, specialCount ≤ e.publicKey (deterministicKey e.toEnv w.seed index)

instance decidablePermitted (w : WalletStore e) (call : AddCall) : Decidable (Permitted w call) :=
  match call with
  | .insertWatch _ => inferInstanceAs (Decidable (_ = _))
  | .insertAdhoc prv => decidable_of_iff (specialCount ≤ e.publicKey prv ∧
      (w.fetch (e.publicKey prv) = none ∨ w.fetch (e.publicKey prv) = some prv)) (by
        refine and_congr_right fun _ => ?_
        cases w.fetch (e.publicKey prv) with
        | none => simp
        | some x => simp)
  | .deterministicInsert => inferInstanceAs (Decidable (_ ∧ _))

/-- Every private key of `w` is one of `w'`. -/
def Retains (w w' : WalletStore e) : Prop := ∀ a prv, w.fetch a = some prv → w'.fetch a = some prv

/-- Unlocked, with a given check value. -/
structure Unlocked (c : Uint256) (w : WalletStore e) : Prop where
  valid : w.validPassword = true
  check : w.check = c

/-- A write beside the records keeps the wallet unlocked. -/
theorem Unlocked.beside {pub : Uint256} (h : Unlocked c w) (hb : w.Beside pub w')
    (hpassword : w'.password = w.password) (hkey : w'.walletKeyMem = w.walletKeyMem) :
    Unlocked c w' := by
  refine ⟨?_, hb.check.trans h.check⟩
  rw [hb.validPassword hpassword hkey]
  exact h.valid

/-- Nothing is lost if the key of the account that is written is not, and the index
record is not an account. -/
theorem retains_beside {pub : Uint256} (h : Unlocked c w) (h' : Unlocked c w')
    (hb : w.Beside pub w') (hindex : ∀ x, w.fetch deterministicIndexSpecial = some x →
      w'.handle.lookup deterministicIndexSpecial = w.handle.lookup deterministicIndexSpecial)
    (hpub : ∀ prv, w.fetch pub = some prv → w'.fetch pub = some prv) : Retains w w' := by
  intro a prv ha
  by_cases hap : a = pub
  · rw [hap] at ha ⊢
    exact hpub prv ha
  · rw [fetch_eq_opened h'.valid]
    by_cases hi : a = deterministicIndexSpecial
    · subst hi
      rw [opened_congr (entryGetRaw_congr (hindex prv ha)) hb.check
        fun _ => hb.clearSeed, ← fetch_eq_opened h.valid]
      exact ha
    · rw [hb.opened hap hi, ← fetch_eq_opened h.valid]
      exact ha

theorem step {call : AddCall} (h : Unlocked c w) (hp : Permitted w call)
    (hlarge : ∀ prv, call = .insertAdhoc prv → 2 ^ 64 ≤ (prv ^^^ c).toNat)
    (hrun : apply w call = .ok w') : Unlocked c w' ∧ Retains w w' := by
  cases call with
  | insertWatch pub =>
    obtain rfl := Except.ok.inj hrun
    have hb : w.Beside pub (w.insertWatch pub) := beside_entryPutRaw pub.2 _
    have h' := h.beside hb rfl rfl
    refine ⟨h', retains_beside h h' hb (fun _ _ => ?_) fun prv hprv => ?_⟩
    · exact (lookup_entryPutRaw _ _ _ _).trans
        (if_neg (ne_of_special pub.2 (by decide)).symm)
    · rw [show w.fetch pub = none from hp] at hprv
      cases hprv
  | insertAdhoc prv =>
    obtain ⟨r, hins, hr⟩ := bind_eq_ok hrun
    obtain rfl := Except.ok.inj hr
    obtain ⟨u, -, hins⟩ := bind_eq_ok hins
    obtain rfl := Except.ok.inj hins
    obtain ⟨hpub, hsame⟩ := hp
    have hb := beside_encryptPut (w := w) hpub ⟨w.walletKey, oword w.salt, prv⟩
    have h' := h.beside hb rfl rfl
    refine ⟨h', retains_beside h h' hb (fun _ _ => ?_) fun x hx => ?_⟩
    · exact (lookup_encryptPut _ _ _ _).trans
        (if_neg (ne_of_special hpub (by decide)).symm)
    · obtain rfl := hsame x hx
      rw [fetch_eq_opened h'.valid]
      exact opened_encryptPut (keystream_eq_check h.valid) hpub
        (h.check ▸ hlarge x rfl)
  | deterministicInsert =>
    obtain ⟨r, hins, hr⟩ := bind_eq_ok hrun
    obtain rfl := Except.ok.inj hr
    obtain ⟨-, index, hr1, habsent, hr2⟩ := of_deterministicInsert hins
    obtain ⟨hindex, hord⟩ := hp
    have hb : w.Beside r.1 r.2 := hr2 ▸ beside_putMarker (hr1 ▸ hord index) index
    have h' := h.beside hb (by rw [hr2]; rfl) (by rw [hr2]; rfl)
    refine ⟨h', retains_beside h h' hb (fun x hx => ?_) fun x hx => ?_⟩
    · rw [hindex] at hx
      cases hx
    · rw [fetch_eq_opened h.valid] at hx
      rw [exists_of_opened hx] at habsent
      cases habsent

theorem run_retains {calls : List AddCall} (h : Unlocked c w)
    (hlarge : ∀ prv, .insertAdhoc prv ∈ calls → 2 ^ 64 ≤ (prv ^^^ c).toNat)
    (hguard : Machine.Guarded apply Permitted w calls) (hrun : Machine.run apply w calls = .ok w') :
    Retains w w' := by
  induction calls generalizing w with
  | nil =>
    obtain rfl := Except.ok.inj hrun
    exact fun _ _ ha => ha
  | cons call calls ih =>
    obtain ⟨v, hv, hrest⟩ := Machine.run_cons hrun
    obtain ⟨h', hfirst⟩ := step h hguard.1
      (fun prv hprv => hlarge prv (hprv ▸ List.mem_cons_self)) hv
    have hlast := ih h' (fun prv hprv => hlarge prv (List.mem_cons_of_mem _ hprv))
      (hguard.2 v hv) hrest
    exact fun a prv ha => hlast a prv (hfirst a prv ha)

/-- **Adding accounts loses no key**, if no account with a key is watched. In every run of
calls that meet the condition, from an unlocked wallet, every account whose key `fetch`
returned has the same key afterwards. -/
theorem no_key_lost {w w' : WalletStore e} (hopen : w.validPassword = true) {calls : List AddCall}
    (hlarge : ∀ prv, .insertAdhoc prv ∈ calls →
      2 ^ 64 ≤ (e.encrypt prv w.walletKey (oword w.salt)).toNat)
    (hguard : Machine.Guarded apply Permitted w calls) (hrun : Machine.run apply w calls = .ok w') :
    ∀ a prv, w.fetch a = some prv → w'.fetch a = some prv := by
  refine run_retains ⟨hopen, rfl⟩ (fun prv hprv => ?_) hguard hrun
  have h := hlarge prv hprv
  rw [WalletEnv.encrypt, keystream_eq_check hopen] at h
  exact h

end AddCall

namespace WalletSample

def other : { a : Uint256 // specialCount ≤ a } := ⟨0x77, by decide⟩

/-- The account of the private key. -/
def own : { a : Uint256 // specialCount ≤ a } := ⟨env.publicKey prv, by decide⟩

/-- Another account is watched, and the same key inserted again. -/
def harmless : List AddCall := [.insertWatch other, .insertAdhoc prv]

theorem harmless_permitted : Machine.Guarded AddCall.apply AddCall.Permitted keyed harmless ∧
    (Machine.run AddCall.apply keyed harmless).isOk = true := by
  decide +kernel

end WalletSample

/-- Watching the account of a private key: `fetch` fails afterwards. -/
theorem watched_key_lost : WalletSample.keyed.validPassword = true ∧
    WalletSample.keyed.fetch WalletSample.own = some WalletSample.prv ∧
    ∃ w', Machine.run AddCall.apply WalletSample.keyed [.insertWatch WalletSample.own] = .ok w' ∧
      w'.validPassword = true ∧ w'.fetch WalletSample.own = none := by
  refine ⟨WalletSample.keyed_open.1, WalletSample.keyed_open.2.1, _, rfl, ?_⟩
  decide +kernel

theorem no_key_lost_other :
    ∃ w', Machine.run AddCall.apply WalletSample.keyed WalletSample.harmless = .ok w' ∧
      w'.fetch WalletSample.own = some WalletSample.prv := by
  have hrun := eq_ok_getD WalletSample.harmless_permitted.2 WalletSample.keyed
  refine ⟨_, hrun, AddCall.no_key_lost WalletSample.keyed_open.1 (fun prv hprv => ?_)
    WalletSample.harmless_permitted.1 hrun _ _ WalletSample.keyed_open.2.1⟩
  obtain ⟨⟩ : prv = WalletSample.prv := by simpa [WalletSample.harmless] using hprv
  exact WalletSample.keyed_open.2.2

end RaiBlocks
