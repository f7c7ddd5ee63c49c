import RaiBlocks.Wallet.WalletStore

/-!
# The entries of the wallet's table

What the operations write, and what `fetch` and `seed` read. With a valid password the
check value is the keystream of the wallet key, so that what they return can be read
off the table alone.
-/

namespace RaiBlocks

open Foundation

namespace WalletStore

variable {e : WalletEnv} {w w' : WalletStore e} {k prv a pub k' : Uint256} {index : BitVec 32}

/-! ## What the operations write -/

theorem lookup_entryPutRaw (w : WalletStore e) (k k' : Uint256) (v : WalletValue) :
    (w.entryPutRaw k v).handle.lookup k' = if k' = k then some v else w.handle.lookup k' :=
  Table.lookup_insert_ite _ _ _ _

theorem lookup_encryptPut (w : WalletStore e) (k k' : Uint256) (c : Seal) :
    (w.encryptPut k c).handle.lookup k' =
      if k' = k then some ⟨e.encrypt c.plain c.key c.iv, 0⟩ else w.handle.lookup k' :=
  Table.lookup_insert_ite _ _ _ _

theorem lookup_delete (w : WalletStore e) (k k' : Uint256) :
    (w.delete k).handle.lookup k' = if k' = k then none else w.handle.lookup k' :=
  Table.lookup_erase_ite _ _ _

theorem seals_entryPutRaw (w : WalletStore e) (k k' : Uint256) (v : WalletValue) :
    (w.entryPutRaw k v).seals k' = if k' = k then none else w.seals k' :=
  Function.update_apply ..

theorem seals_encryptPut (w : WalletStore e) (k k' : Uint256) (c : Seal) :
    (w.encryptPut k c).seals k' = if k' = k then some c else w.seals k' :=
  Function.update_apply ..

theorem seals_delete (w : WalletStore e) (k k' : Uint256) :
    (w.delete k).seals k' = if k' = k then none else w.seals k' :=
  Function.update_apply ..

theorem mem_accounts : k ∈ w.accounts → specialCount ≤ k := by
  simp [accounts]

theorem entryGetRaw_congr (h : w'.handle.lookup k = w.handle.lookup k) :
    w'.entryGetRaw k = w.entryGetRaw k := by
  rw [entryGetRaw, entryGetRaw, h]

theorem entryGetRaw_entryPutRaw (k k' : Uint256) (v : WalletValue) :
    (w.entryPutRaw k v).entryGetRaw k' = if k' = k then v else w.entryGetRaw k' := by
  rw [entryGetRaw, lookup_entryPutRaw]
  split_ifs
  · rfl
  · rfl

theorem entryGetRaw_encryptPut (k k' : Uint256) (c : Seal) :
    (w.encryptPut k c).entryGetRaw k' =
      if k' = k then ⟨e.encrypt c.plain c.key c.iv, 0⟩ else w.entryGetRaw k' := by
  rw [entryGetRaw, lookup_encryptPut]
  split_ifs
  · rfl
  · rfl

/-- Clearing the deterministic keys changes no other entry. -/
theorem lookup_deterministicClear (hk : k ≠ deterministicIndexSpecial)
    (h : specialCount ≤ k → keyType (w.entryGetRaw k) ≠ .deterministic) :
    w.deterministicClear.handle.lookup k = w.handle.lookup k := by
  have hfold : (w.accounts.foldl clearKey w).handle.lookup k = w.handle.lookup k := by
    apply List.foldlRecOn _ _ (motive := fun v : WalletStore e =>
      v.handle.lookup k = w.handle.lookup k) rfl
    intro v hv a ha
    unfold clearKey
    split_ifs with htype
    · rw [lookup_delete, if_neg ?_, hv]
      rintro rfl
      rw [entryGetRaw_congr hv] at htype
      exact h (mem_accounts ha) htype
    · exact hv
  rw [deterministicClear, deterministicIndexSet, lookup_entryPutRaw, if_neg hk, hfold]

/-! ## What is read with a valid password -/

theorem keystream_eq_check (hv : w.validPassword = true) :
    e.keystream w.walletKey (oword w.salt) = w.check := by
  rw [beq_iff_eq.mp hv, WalletEnv.encrypt, Fan.zero_xor]

/-- The seed, read with the check value as keystream. -/
def clearSeed (w : WalletStore e) : Uint256 := (w.entryGetRaw seedSpecial).key ^^^ w.check

theorem seed_eq_clearSeed (hv : w.validPassword = true) : w.seed = w.clearSeed := by
  rw [seed, WalletEnv.decrypt, keystream_eq_check hv, clearSeed]

/-- The private key of an account, read with the check value as keystream. -/
def opened (w : WalletStore e) (a : Uint256) : Option Uint256 :=
  let value := w.entryGetRaw a
  if value.key = 0 then none
  else
    let prv := match keyType value with
      | .deterministic => some (deterministicKey e.toEnv w.clearSeed (value.key.setWidth 32))
      | .adhoc => some (value.key ^^^ w.check)
      | _ => none
    prv.filter fun prv => e.publicKey prv = a

theorem fetch_eq_opened (hv : w.validPassword = true) (a : Uint256) :
    w.fetch a = w.opened a := by
  cases htype : keyType (w.entryGetRaw a) with
  | deterministic => simp only [fetch, opened, if_pos hv, htype, seed_eq_clearSeed hv]
  | adhoc =>
    simp only [fetch, opened, if_pos hv, htype, WalletEnv.decrypt, keystream_eq_check hv]
  | notAType => simp only [fetch, opened, if_pos hv, htype]
  | unknown => simp only [fetch, opened, if_pos hv, htype]

theorem publicKey_of_fetch (h : w.fetch pub = some prv) : e.publicKey prv = pub := by
  unfold fetch at h
  split at h
  · simp only at h
    split at h
    · cases h
    · exact of_decide_eq_true (Option.filter_eq_some_iff.mp h).2
  · cases h

theorem opened_congr (ha : w'.entryGetRaw a = w.entryGetRaw a) (hcheck : w'.check = w.check)
    (hseed : keyType (w.entryGetRaw a) = .deterministic → w'.clearSeed = w.clearSeed) :
    w'.opened a = w.opened a := by
  unfold opened
  rw [ha, hcheck]
  dsimp only
  generalize keyType (w.entryGetRaw a) = type at hseed ⊢
  cases type with
  | deterministic => rw [hseed rfl]
  | notAType => rfl
  | unknown => rfl
  | adhoc => rfl

theorem opened_adhoc {v : WalletValue} (hv : w.entryGetRaw a = v)
    (hkey : v.key = prv ^^^ w.check) (hlarge : 2 ^ 64 ≤ v.key.toNat)
    (hpub : e.publicKey prv = a) : w.opened a = some prv := by
  have hzero : v.key ≠ 0 := by
    intro h0
    rw [h0] at hlarge
    exact absurd hlarge (by decide)
  have htype : keyType v = .adhoc := if_pos (by omega)
  have hclear : v.key ^^^ w.check = prv := by
    rw [hkey, BitVec.xor_assoc, BitVec.xor_self, BitVec.xor_zero]
  unfold opened
  rw [hv]
  dsimp only
  rw [if_neg hzero, htype]
  dsimp only
  rw [hclear, Option.filter_some, if_pos (decide_eq_true hpub)]

/-- The entry that `deterministic_insert` makes. -/
def marker (index : BitVec 32) : Uint256 := (1 <<< 32) ||| index.setWidth 256

theorem toNat_marker (index : BitVec 32) : (marker index).toNat = 2 ^ 32 + index.toNat := by
  have hindex : index.toNat < 2 ^ 32 := index.isLt
  have hor := Nat.two_pow_add_eq_or_of_lt hindex 1
  rw [marker, BitVec.toNat_or, BitVec.toNat_setWidth, Nat.mod_eq_of_lt (by omega)]
  rw [Nat.mul_one] at hor
  rw [hor]
  rfl

theorem opened_deterministic {work : Uint64} (hv : w.entryGetRaw a = ⟨marker index, work⟩)
    (hpub : e.publicKey (deterministicKey e.toEnv w.clearSeed index) = a) :
    w.opened a = some (deterministicKey e.toEnv w.clearSeed index) := by
  have hnat := toNat_marker index
  have hlt : index.toNat < 2 ^ 32 := index.isLt
  have hzero : marker index ≠ 0 := by
    intro h0
    rw [h0] at hnat
    simp at hnat
    omega
  have htype : keyType ⟨marker index, work⟩ = .deterministic := by
    have hhigh : (marker index >>> 32).setWidth 32 = (1 : BitVec 32) := by
      apply BitVec.eq_of_toNat_eq
      rw [BitVec.toNat_setWidth, BitVec.toNat_ushiftRight, hnat, Nat.shiftRight_eq_div_pow]
      change _ = 1
      omega
    rw [keyType, if_neg (by rw [hnat]; omega), if_pos hhigh]
  have hlow : (marker index).setWidth 32 = index := by
    apply BitVec.eq_of_toNat_eq
    rw [BitVec.toNat_setWidth, hnat]
    omega
  unfold opened
  rw [hv]
  dsimp only
  rw [if_neg hzero, htype]
  dsimp only
  rw [hlow, Option.filter_some, if_pos (decide_eq_true hpub)]

theorem exists_of_opened (h : w.opened a = some prv) : w.exists' a = true := by
  unfold exists'
  cases hrow : w.handle.lookup a with
  | some v => rfl
  | none =>
    have hentry : w.entryGetRaw a = ⟨0, 0⟩ := by rw [entryGetRaw, hrow]; rfl
    rw [opened, hentry] at h
    cases h

theorem ne_of_special (ha : specialCount ≤ a) (hk : k < specialCount) : a ≠ k :=
  (lt_of_lt_of_le hk ha).ne'

/-- `w'` differs from `w` in the entry of one account and in the index. -/
structure Beside (pub : Uint256) (w w' : WalletStore e) : Prop where
  ordinary : specialCount ≤ pub
  lookup : ∀ k, k ≠ pub → k ≠ deterministicIndexSpecial → w'.handle.lookup k = w.handle.lookup k

namespace Beside

variable (h : Beside pub w w')
include h

theorem entry (hk : k ≠ pub) (hi : k ≠ deterministicIndexSpecial) :
    w'.entryGetRaw k = w.entryGetRaw k :=
  entryGetRaw_congr (h.lookup k hk hi)

theorem record (hk : k < specialCount) (hi : k ≠ deterministicIndexSpecial) :
    w'.entryGetRaw k = w.entryGetRaw k :=
  h.entry (ne_of_special h.ordinary hk).symm hi

theorem salt : w'.salt = w.salt := congrArg WalletValue.key (h.record (by decide) (by decide))

theorem check : w'.check = w.check := congrArg WalletValue.key (h.record (by decide) (by decide))

theorem clearSeed : w'.clearSeed = w.clearSeed := by
  unfold WalletStore.clearSeed
  rw [h.check, h.record (by decide) (by decide)]

theorem walletKey (hpassword : w'.password = w.password)
    (hkey : w'.walletKeyMem = w.walletKeyMem) : w'.walletKey = w.walletKey := by
  unfold WalletStore.walletKey
  rw [hpassword, hkey, h.salt]

theorem validPassword (hpassword : w'.password = w.password)
    (hkey : w'.walletKeyMem = w.walletKeyMem) : w'.validPassword = w.validPassword := by
  unfold WalletStore.validPassword
  rw [h.check, h.walletKey hpassword hkey, h.salt]

theorem opened {a : Uint256} (ha : a ≠ pub) (hi : a ≠ deterministicIndexSpecial) :
    w'.opened a = w.opened a :=
  opened_congr (h.entry ha hi) h.check fun _ => h.clearSeed

end Beside

theorem beside_delete (hk : specialCount ≤ k) : Beside k w (w.delete k) :=
  ⟨hk, fun k' hk' _ => by rw [lookup_delete, if_neg hk']⟩

theorem beside_entryPutRaw (hk : specialCount ≤ k) (v : WalletValue) :
    Beside k w (w.entryPutRaw k v) :=
  ⟨hk, fun k' hk' _ => by rw [lookup_entryPutRaw, if_neg hk']⟩

theorem beside_encryptPut (hk : specialCount ≤ k) (c : Seal) : Beside k w (w.encryptPut k c) :=
  ⟨hk, fun k' hk' _ => by rw [lookup_encryptPut, if_neg hk']⟩

/-- The entry of a deterministic key and the next index. -/
def putMarker (w : WalletStore e) (pub : Uint256) (index : BitVec 32) : WalletStore e :=
  (w.entryPutRaw pub ⟨marker index, 0⟩).deterministicIndexSet (index + 1)

theorem beside_putMarker (hk : specialCount ≤ k) (index : BitVec 32) :
    Beside k w (w.putMarker k index) := by
  refine ⟨hk, fun k' hk' hi => ?_⟩
  rw [putMarker, deterministicIndexSet, lookup_entryPutRaw, if_neg hi, lookup_entryPutRaw,
    if_neg hk']

theorem opened_putMarker
    (hk : specialCount ≤ e.publicKey (deterministicKey e.toEnv w.clearSeed index)) :
    (w.putMarker (e.publicKey (deterministicKey e.toEnv w.clearSeed index)) index).opened
      (e.publicKey (deterministicKey e.toEnv w.clearSeed index)) =
      some (deterministicKey e.toEnv w.clearSeed index) := by
  have hseed := (beside_putMarker (w := w) hk index).clearSeed
  have hentry : (w.putMarker (e.publicKey (deterministicKey e.toEnv w.clearSeed index))
      index).entryGetRaw (e.publicKey (deterministicKey e.toEnv w.clearSeed index)) =
      ⟨marker index, 0⟩ := by
    rw [putMarker, deterministicIndexSet, entryGetRaw_entryPutRaw,
      if_neg (ne_of_special hk (by decide)), entryGetRaw_entryPutRaw, if_pos rfl]
  have hopen := opened_deterministic hentry (by rw [hseed])
  rw [hseed] at hopen
  exact hopen

theorem opened_encryptPut {key : Uint256} (hkey : e.keystream key (oword w.salt) = w.check)
    (hpub : specialCount ≤ e.publicKey prv) (hlarge : 2 ^ 64 ≤ (prv ^^^ w.check).toNat) :
    (w.encryptPut (e.publicKey prv) ⟨key, oword w.salt, prv⟩).opened (e.publicKey prv) =
      some prv := by
  have hcipher : e.encrypt prv key (oword w.salt) = prv ^^^ w.check := by
    rw [WalletEnv.encrypt, hkey]
  refine opened_adhoc (v := ⟨e.encrypt prv key (oword w.salt), 0⟩) ?_ ?_ ?_ rfl
  · rw [entryGetRaw_encryptPut, if_pos rfl]
  · rw [(beside_encryptPut hpub _).check]
    exact hcipher
  · dsimp only
    rw [hcipher]
    exact hlarge

/-- **What `deterministic_insert` does**: it stores the marker of an index whose account
had no entry. -/
theorem of_deterministicInsert {r : Uint256 × WalletStore e} (h : w.deterministicInsert = .ok r) :
    w.validPassword = true ∧ ∃ index, r.1 = e.publicKey (deterministicKey e.toEnv w.seed index) ∧
      w.exists' r.1 = false ∧ r.2 = w.putMarker r.1 index := by
  have hprv : ∀ {index prv}, w.deterministicPrv index = .ok prv →
      w.validPassword = true ∧ prv = deterministicKey e.toEnv w.seed index := by
    intro index prv h
    obtain ⟨u, hvalid, h⟩ := bind_eq_ok h
    exact ⟨of_assertThat hvalid, (Except.ok.inj h).symm⟩
  obtain ⟨prv, hfirst, h⟩ := bind_eq_ok h
  obtain ⟨i, hloop, h⟩ := bind_eq_ok h
  obtain rfl := Except.ok.inj h
  obtain ⟨hvalid, rfl⟩ := hprv hfirst
  have hinv := whileLoop_invariant
    (I := fun i => i.2 = e.publicKey (deterministicKey e.toEnv w.seed i.1)) ?_ _ _ _ rfl hloop
  · exact ⟨hvalid, i.1, hinv.1, hinv.2, rfl⟩
  · intro j j' _ _ hj
    obtain ⟨prv', hprv', hj⟩ := bind_eq_ok hj
    obtain rfl := Except.ok.inj hj
    rw [(hprv hprv').2]

theorem deterministicIndexGet_putMarker (w : WalletStore e) (pub : Uint256) (index : BitVec 32) :
    (w.putMarker pub index).deterministicIndexGet = index + 1 := by
  rw [deterministicIndexGet, putMarker, deterministicIndexSet, entryGetRaw_entryPutRaw, if_pos rfl]
  exact BitVec.setWidth_setWidth_of_le _ (by decide)

/-! ## The records -/

theorem record_cases (hk : k < specialCount) :
    k = versionSpecial ∨ k = saltSpecial ∨ k = walletKeySpecial ∨ k = checkSpecial ∨
      k = representativeSpecial ∨ k = seedSpecial ∨ k = deterministicIndexSpecial := by
  have hnat : k.toNat < 7 := hk
  simp only [← BitVec.toNat_inj]
  change k.toNat = 0 ∨ k.toNat = 1 ∨ k.toNat = 2 ∨ k.toNat = 3 ∨ k.toNat = 4 ∨ k.toNat = 5 ∨
    k.toNat = 6
  omega

/-- All records of the wallet are there. -/
def HasRecords (w : WalletStore e) : Prop := ∀ k, k < specialCount → w.exists' k = true

/-- The number of a record is skipped by `deterministic_insert`. -/
theorem HasRecords.ordinary (h : w.HasRecords) (hk : w.exists' k = false) : specialCount ≤ k := by
  by_contra hlt
  rw [h k (not_le.mp hlt)] at hk
  cases hk

theorem exists_entryPutRaw (v : WalletValue) (h : w.exists' k = true) :
    (w.entryPutRaw k' v).exists' k = true := by
  rw [exists', lookup_entryPutRaw]
  split_ifs
  · rfl
  · exact h

theorem exists_encryptPut (c : Seal) (h : w.exists' k = true) :
    (w.encryptPut k' c).exists' k = true := by
  rw [exists', lookup_encryptPut]
  split_ifs
  · rfl
  · exact h

theorem exists_putMarker (index : BitVec 32) (h : w.exists' k = true) :
    (w.putMarker pub index).exists' k = true :=
  exists_entryPutRaw _ (exists_entryPutRaw _ h)

theorem attemptPassword_of_version (hversion : w.version = 3) (password : String) (seed : Uint256) :
    w.attemptPassword password seed =
      .ok (!(w.withPassword (w.deriveKey password)).validPassword,
        w.withPassword (w.deriveKey password)) := by
  have hversion' : (w.withPassword (w.deriveKey password)).version = 3 := hversion
  unfold attemptPassword
  dsimp only
  rw [hversion']
  by_cases hvalid : (w.withPassword (w.deriveKey password)).validPassword = true
  · rw [if_pos hvalid, if_neg (by decide), if_neg (by decide), hvalid]
    rfl
  · rw [if_neg hvalid, eq_false_of_ne_true hvalid]
    rfl

theorem lookup_create (c : Creation) (hk : k < seedSpecial) :
    (create e c).handle.lookup k = (createKeys e c).handle.lookup k := by
  have hspecial : k < specialCount := hk.trans (by decide)
  have hindex : k ≠ deterministicIndexSpecial := (hk.trans (by decide)).ne
  change ((createKeys e c).seedSet c.seed |>.entryPutRaw _ _).handle.lookup k = _
  rw [lookup_entryPutRaw, if_neg hindex, seedSet,
    lookup_deterministicClear hindex fun hle => absurd hspecial (not_lt.mpr hle),
    lookup_encryptPut, if_neg hk.ne]

theorem entryGetRaw_create (c : Creation) (hk : k < seedSpecial) :
    (create e c).entryGetRaw k = (createKeys e c).entryGetRaw k :=
  entryGetRaw_congr (lookup_create c hk)

theorem hasRecords_create (c : Creation) : (create e c).HasRecords := by
  intro k hk
  have hearly : k < seedSpecial → ((createKeys e c).handle.lookup k).isSome = true →
      (create e c).exists' k = true := by
    intro hlt hsome
    rwa [exists', lookup_create c hlt]
  rcases record_cases hk with rfl | rfl | rfl | rfl | rfl | rfl | rfl
  · exact hearly (by decide) rfl
  · exact hearly (by decide) rfl
  · exact hearly (by decide) rfl
  · exact hearly (by decide) rfl
  · exact hearly (by decide) rfl
  · -- The seed is stored before the deterministic keys are cleared.
    change ((createKeys e c).seedSet c.seed |>.entryPutRaw _ _).exists' _ = true
    apply exists_entryPutRaw
    rw [exists', seedSet, lookup_deterministicClear (by decide) fun hle => absurd hle (by decide),
      lookup_encryptPut, if_pos rfl]
    rfl
  · change (((createKeys e c).seedSet c.seed).entryPutRaw _ _).exists' _ = true
    rw [exists', lookup_entryPutRaw, if_pos rfl]
    rfl

end WalletStore

/-! ## A wallet -/

namespace WalletSample

def env : WalletEnv where
  blake2b := fun _ => 0
  validateMessage := fun _ _ _ => false
  network := .raiTestNetwork
  trap := false
  keystream key iv := (key <<< 96) ^^^ iv.setWidth 256
  phs password _ := BitVec.ofNat 256 password.length
  publicKey prv := prv ||| specialCount

def creation : Creation where
  password := .single 0
  walletKeyMem := .single 0
  salt := 0x5A17 <<< 128
  walletKey := 0xC0FFEE
  seed := 0x5EED
  representative := 9

/-- A new wallet, whose password is empty. -/
def wallet : WalletStore env := .create env creation

def prv : Uint256 := 0xABCDE0

theorem wallet_open : wallet.validPassword = true ∧
    2 ^ 64 ≤ (env.encrypt prv wallet.walletKey (oword wallet.salt)).toNat := by
  decide +kernel

/-- The wallet with one private key. -/
def keyed : WalletStore env :=
  wallet.encryptPut (env.publicKey prv) ⟨wallet.walletKey, oword wallet.salt, prv⟩

theorem keyed_open : keyed.validPassword = true ∧ keyed.fetch (env.publicKey prv) = some prv ∧
    2 ^ 64 ≤ (env.encrypt prv keyed.walletKey (oword keyed.salt)).toNat := by
  decide +kernel

end WalletSample

end RaiBlocks
