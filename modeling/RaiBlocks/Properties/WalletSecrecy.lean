import RaiBlocks.Wallet.Entries

/-!
# What the wallet's table reveals

All secrets of a wallet are encrypted in counter mode with the wallet key and the
first half of the salt, and so is the check value, whose plaintext is zero. The
check value is therefore the keystream itself: its exclusive or with a stored
ciphertext is the plaintext. This is so for the seed from the moment a wallet is
created, and for every ad-hoc key that is ever stored.
-/

namespace RaiBlocks

open Foundation WalletSample

inductive WalletOp where
  | insertAdhoc (prv : Uint256)
  | deterministicInsert
  | seedSet (prv : Uint256)
  | rekey (password : String)
  | attemptPassword (password : String) (seed : Uint256)

namespace WalletStore

variable {e : WalletEnv} {w w' : WalletStore e} {k : Uint256}

def apply (w : WalletStore e) : WalletOp → Except Fault (WalletStore e)
  | .insertAdhoc prv => return (← w.insertAdhoc prv).2
  | .deterministicInsert => return (← w.deterministicInsert).2
  | .seedSet prv => return w.seedSet prv
  | .rekey password => return (w.rekey password).2
  | .attemptPassword password seed => return (← w.attemptPassword password seed).2

/-- `P` holds in every state of a run of operations. -/
def Along (P : WalletStore e → Prop) : WalletStore e → List WalletOp → Prop
  | w, [] => P w
  | w, op :: ops => P w ∧ ∀ w', w.apply op = .ok w' → Along P w' ops

theorem Along.start {P : WalletStore e → Prop} {ops : List WalletOp} (h : w.Along P ops) : P w := by
  cases ops with
  | nil => exact h
  | cons op ops => exact h.1

/-- No two ciphertexts are made with the same key and initialisation vector. -/
def Separate (w : WalletStore e) : Prop :=
  ∀ k k' c c', k ≠ k' → w.seals k = some c → w.seals k' = some c' →
    ¬ (c.key = c'.key ∧ c.iv = c'.iv)

/-- Neither the seed nor a stored private key is the exclusive or of two stored
values. -/
def Concealed (w : WalletStore e) : Prop :=
  ∀ k c, k = seedSpecial ∨ specialCount ≤ k → w.seals k = some c →
    ∀ a b x y, a ≠ b → w.handle.lookup a = some x → w.handle.lookup b = some y →
      x.key ^^^ y.key ≠ c.plain

/-! ## Salt and check value stay, account seals are made with the wallet key -/

/-- `c` is made with the current salt and a key whose keystream is the check value. -/
def Exposing (w : WalletStore e) (c : Seal) : Prop :=
  c.iv = oword w.salt ∧ e.encrypt 0 c.key c.iv = w.check

/-- The records that no operation changes. -/
def fixedRecords : List Uint256 := [versionSpecial, saltSpecial, checkSpecial]

theorem notMem_fixedRecords (hk : specialCount ≤ k) : k ∉ fixedRecords := by
  have hne : ∀ {r : Uint256}, r < specialCount → k ≠ r := fun hr => (hr.trans_le hk).ne'
  simp only [fixedRecords, List.mem_cons, List.not_mem_nil, or_false, not_or]
  exact ⟨hne (by decide), hne (by decide), hne (by decide)⟩

/-- From `w` to `w'` neither the salt nor the check value changes, no record is lost, and new seals
of accounts are exposing. -/
structure Leaves (w w' : WalletStore e) : Prop where
  lookup : ∀ k ∈ fixedRecords, w'.handle.lookup k = w.handle.lookup k
  records : w.HasRecords → w'.HasRecords
  seals : ∀ k c, specialCount ≤ k → w'.seals k = some c → w.seals k = some c ∨ w.Exposing c

namespace Leaves

theorem salt (h : w.Leaves w') : w'.salt = w.salt :=
  congrArg WalletValue.key (entryGetRaw_congr (h.lookup _ (by decide)))

theorem check (h : w.Leaves w') : w'.check = w.check :=
  congrArg WalletValue.key (entryGetRaw_congr (h.lookup _ (by decide)))

theorem version (h : w.Leaves w') : w'.version = w.version :=
  congrArg (fun v => v.key.toNat % 256) (entryGetRaw_congr (h.lookup _ (by decide)))

theorem refl (w : WalletStore e) : w.Leaves w := ⟨fun _ _ => rfl, id, fun _ _ _ h => Or.inl h⟩

theorem trans {w'' : WalletStore e} (h : w.Leaves w') (h' : w'.Leaves w'') : w.Leaves w'' := by
  refine ⟨fun k hk => (h'.lookup k hk).trans (h.lookup k hk), fun hr => h'.records (h.records hr),
    fun k c hk hc => ?_⟩
  rcases h'.seals k c hk hc with hold | hnew
  · exact h.seals k c hk hold
  · rw [Exposing, h.salt, h.check] at hnew
    exact Or.inr hnew

end Leaves

theorem leaves_entryPutRaw (v : WalletValue) (hk : k ∉ fixedRecords) :
    w.Leaves (w.entryPutRaw k v) := by
  refine ⟨fun k' hk' => ?_, fun hr k' hk' => exists_entryPutRaw v (hr k' hk'), fun k' c _ hc => ?_⟩
  · rw [lookup_entryPutRaw, if_neg (ne_of_mem_of_not_mem hk' hk)]
  · rw [seals_entryPutRaw] at hc
    split_ifs at hc
    exact Or.inl hc

theorem leaves_encryptPut {c : Seal} (hk : k ∉ fixedRecords)
    (hc : specialCount ≤ k → w.Exposing c) : w.Leaves (w.encryptPut k c) := by
  refine ⟨fun k' hk' => ?_, fun hr k' hk' => exists_encryptPut c (hr k' hk'),
    fun k' c' hk' hc' => ?_⟩
  · rw [lookup_encryptPut, if_neg (ne_of_mem_of_not_mem hk' hk)]
  · rw [seals_encryptPut] at hc'
    split_ifs at hc' with heq
    · rw [← Option.some.inj hc']
      exact Or.inr (hc (heq ▸ hk'))
    · exact Or.inl hc'

theorem leaves_delete (hk : specialCount ≤ k) : w.Leaves (w.delete k) := by
  refine ⟨fun k' hk' => ?_, fun hr k' hk' => ?_, fun k' c _ hc => ?_⟩
  · rw [lookup_delete, if_neg (ne_of_mem_of_not_mem hk' (notMem_fixedRecords hk))]
  · rw [exists', lookup_delete, if_neg (hk'.trans_le hk).ne]
    exact hr k' hk'
  · rw [seals_delete] at hc
    split_ifs at hc
    exact Or.inl hc

theorem leaves_deterministicClear : w.Leaves w.deterministicClear := by
  have hfold : w.Leaves (w.accounts.foldl clearKey w) := by
    apply List.foldlRecOn _ _ (motive := fun v => w.Leaves v) (Leaves.refl w)
    intro v hv k hk
    unfold clearKey
    split_ifs
    · exact hv.trans (leaves_delete (mem_accounts hk))
    · exact hv
  exact hfold.trans (leaves_entryPutRaw _ (by decide))

theorem leaves_seedSet (prv : Uint256) : w.Leaves (w.seedSet prv) :=
  (leaves_encryptPut (by decide) fun h => absurd h (by decide)).trans leaves_deterministicClear

theorem leaves_insertAdhoc {prv : Uint256} {r : Uint256 × WalletStore e}
    (hpub : specialCount ≤ e.publicKey prv) (h : w.insertAdhoc prv = .ok r) : w.Leaves r.2 := by
  obtain ⟨u, hvalid, h⟩ := bind_eq_ok h
  obtain rfl := Except.ok.inj h
  refine leaves_encryptPut (notMem_fixedRecords hpub) fun _ => ⟨rfl, ?_⟩
  exact (beq_iff_eq.mp (of_assertThat hvalid)).symm

/-- The account that is inserted has no entry, so it is no record. -/
theorem leaves_deterministicInsert {r : Uint256 × WalletStore e} (hrecords : w.HasRecords)
    (h : w.deterministicInsert = .ok r) : w.Leaves r.2 := by
  obtain ⟨-, index, -, hnew, hstore⟩ := of_deterministicInsert h
  rw [hstore]
  exact (leaves_entryPutRaw _ (notMem_fixedRecords (hrecords.ordinary hnew))).trans
    (leaves_entryPutRaw _ (by decide))

theorem leaves_rekey (password : String) : w.Leaves (w.rekey password).2 := by
  unfold rekey
  split_ifs with hvalid
  · have hmem : w.Leaves ((w.withPassword (w.deriveKey password)).withWalletKeyMem
        (e.encrypt w.walletKey (w.deriveKey password) (oword w.salt))) :=
      ⟨fun _ _ => rfl, id, fun _ _ _ h => Or.inl h⟩
    exact hmem.trans (leaves_encryptPut (by decide) fun h => absurd h (by decide))
  · exact Leaves.refl w

theorem leaves_attemptPassword {password : String} {seed : Uint256} {r : Bool × WalletStore e}
    (hversion : w.version = 3) (h : w.attemptPassword password seed = .ok r) : w.Leaves r.2 := by
  rw [attemptPassword_of_version hversion] at h
  obtain rfl := Except.ok.inj h
  exact ⟨fun _ _ => rfl, id, fun _ _ _ h => Or.inl h⟩

/-- **No operation changes the salt or the check value** of a table with all records and of the
current version, if a private key that is inserted has the public key of an account. -/
theorem leaves_apply {op : WalletOp} (hrecords : w.HasRecords) (hversion : w.version = 3)
    (hop : ∀ prv, op = .insertAdhoc prv → specialCount ≤ e.publicKey prv)
    (h : w.apply op = .ok w') : w.Leaves w' := by
  cases op with
  | insertAdhoc prv =>
    obtain ⟨r, hr, h⟩ := bind_eq_ok h
    obtain rfl := Except.ok.inj h
    exact leaves_insertAdhoc (hop prv rfl) hr
  | deterministicInsert =>
    obtain ⟨r, hr, h⟩ := bind_eq_ok h
    obtain rfl := Except.ok.inj h
    exact leaves_deterministicInsert hrecords hr
  | seedSet prv =>
    obtain rfl := Except.ok.inj h
    exact leaves_seedSet prv
  | rekey password =>
    obtain rfl := Except.ok.inj h
    exact leaves_rekey password
  | attemptPassword password seed =>
    obtain ⟨r, hr, h⟩ := bind_eq_ok h
    obtain rfl := Except.ok.inj h
    exact leaves_attemptPassword hversion hr

/-! ## Plaintexts from two stored values -/

/-- A ciphertext and the keystream it was made with give the plaintext. -/
theorem xor_keystream {c : Seal} {x : WalletValue} (hc : w.seals k = some c)
    (hx : w.handle.lookup k = some x) : x.key ^^^ e.encrypt 0 c.key c.iv = c.plain := by
  have hkey := w.sealed k c hc
  rw [hx, Option.map_some] at hkey
  rw [Option.some.inj hkey, WalletEnv.encrypt, WalletEnv.encrypt, Fan.zero_xor, BitVec.xor_assoc,
    BitVec.xor_self]
  exact BitVec.xor_zero

theorem exists_lookup {c : Seal} (hc : w.seals k = some c) : ∃ x, w.handle.lookup k = some x := by
  have hkey := w.sealed k c hc
  cases hx : w.handle.lookup k with
  | none => simp [hx] at hkey
  | some x => exact ⟨x, rfl⟩

theorem seals_deterministicClear (hk : k < specialCount) (hne : k ≠ deterministicIndexSpecial) :
    w.deterministicClear.seals k = w.seals k := by
  have hfold : (w.accounts.foldl clearKey w).seals k = w.seals k := by
    apply List.foldlRecOn _ _ (motive := fun v : WalletStore e => v.seals k = w.seals k) rfl
    intro v hv a ha
    unfold clearKey
    split_ifs
    · rw [seals_delete, if_neg (hk.trans_le (mem_accounts ha)).ne, hv]
    · exact hv
  rw [deterministicClear, deterministicIndexSet, seals_entryPutRaw, if_neg hne, hfold]

section Create

variable (c : Creation)

/-- The key the constructor seals the seed with is the wallet key. -/
theorem walletKey_createKeys : (createKeys e c).walletKey = c.walletKey := by
  have hsalt : (createKeys e c).salt = c.salt := rfl
  have hpassword : (createKeys e c).password.value = 0 := Fan.value_valueSet _ _
  have hmem : (createKeys e c).walletKeyMem.value = e.encrypt c.walletKey 0 (oword c.salt) :=
    Fan.value_valueSet _ _
  rw [walletKey, hsalt, hpassword, hmem, WalletEnv.decrypt_encrypt]

theorem seals_create_check :
    (create e c).seals checkSpecial = some ⟨c.walletKey, oword c.salt, 0⟩ := by
  have hclear := seals_deterministicClear (k := checkSpecial)
    (w := (createKeys e c).encryptPut seedSpecial
      ⟨(createKeys e c).walletKey, oword (createKeys e c).salt, c.seed⟩) (by decide) (by decide)
  exact hclear

theorem seals_create_seed :
    (create e c).seals seedSpecial = some ⟨c.walletKey, oword c.salt, c.seed⟩ := by
  have hclear := seals_deterministicClear (k := seedSpecial)
    (w := (createKeys e c).encryptPut seedSpecial
      ⟨(createKeys e c).walletKey, oword (createKeys e c).salt, c.seed⟩) (by decide) (by decide)
  refine hclear.trans ?_
  rw [seals_encryptPut, if_pos rfl, walletKey_createKeys]
  rfl

/-- **Every wallet reveals its seed.** Whatever the keystream, the random numbers of
the constructor and the operations that follow: it is not so that throughout the run
no two ciphertexts share key and initialisation vector, nor that throughout the run
neither the seed nor a private key is the exclusive or of two stored values. Both fail
right after the constructor. -/
theorem wallet_reveals (e : WalletEnv) (c : Creation) (ops : List WalletOp) :
    ¬ (create e c).Along Separate ops ∧ ¬ (create e c).Along Concealed ops := by
  constructor
  · intro h
    exact h.start checkSpecial seedSpecial _ _ (by decide) (seals_create_check c)
      (seals_create_seed c) ⟨rfl, rfl⟩
  · intro h
    obtain ⟨x, hx⟩ := exists_lookup (seals_create_seed (e := e) c)
    obtain ⟨y, hy⟩ := exists_lookup (seals_create_check (e := e) c)
    -- The plaintext of the check value is zero, so the check value is the keystream.
    have hkey := (create e c).sealed checkSpecial _ (seals_create_check c)
    rw [hy, Option.map_some, Option.some.injEq] at hkey
    refine h.start seedSpecial _ (Or.inl rfl) (seals_create_seed c) seedSpecial checkSpecial x y
      (by decide) hx hy ?_
    rw [hkey]
    exact xor_keystream (seals_create_seed c) hx

end Create

/-- A new wallet: check value and seed are made with one key and one counter, and
their exclusive or is the seed. -/
theorem seed_in_table : wallet.seals checkSpecial = some ⟨0xC0FFEE, 0x5A17, 0⟩ ∧
    wallet.seals seedSpecial = some ⟨0xC0FFEE, 0x5A17, 0x5EED⟩ ∧
    (wallet.entryGetRaw seedSpecial).key ^^^
      (wallet.entryGetRaw checkSpecial).key = 0x5EED := by
  refine ⟨by decide +kernel, by decide +kernel, by decide +kernel⟩

/-- Every private key stored under an account is the exclusive or of its entry and
the check value. -/
def Revealing (w : WalletStore e) : Prop :=
  ∀ k c x, specialCount ≤ k → w.seals k = some c → w.handle.lookup k = some x →
    x.key ^^^ w.check = c.plain

/-- The invariant behind it. -/
def AllExposing (w : WalletStore e) : Prop :=
  ∀ k c, specialCount ≤ k → w.seals k = some c → w.Exposing c

theorem AllExposing.revealing (h : w.AllExposing) : w.Revealing := by
  intro k c x hk hc hx
  rw [← (h k c hk hc).2]
  exact xor_keystream hc hx

theorem AllExposing.leaves (h : w.AllExposing) (hleaves : w.Leaves w') : w'.AllExposing := by
  intro k c hk hc
  rw [Exposing, hleaves.salt, hleaves.check]
  rcases hleaves.seals k c hk hc with hold | hnew
  · exact h k c hk hold
  · exact hnew

theorem allExposing_create (c : Creation) : (create e c).AllExposing := by
  have hkeys : (createKeys e c).AllExposing := by
    intro k s hk hs
    -- The constructor has sealed records of the wallet only.
    have hwallet : k ≠ walletKeySpecial := (lt_of_lt_of_le (by decide) hk).ne'
    have hcheck : k ≠ checkSpecial := (lt_of_lt_of_le (by decide) hk).ne'
    simp only [createKeys, versionPut, withWalletKeyMem, withPassword, seals_entryPutRaw,
      seals_encryptPut, hwallet, hcheck, if_false, blank] at hs
    split_ifs at hs
  have hindex := (hkeys.leaves (leaves_seedSet c.seed)).leaves
    (leaves_entryPutRaw (k := deterministicIndexSpecial) ⟨0, 0⟩ (by decide))
  exact hindex

/-- **Every ad-hoc key is revealed.** In every state of every run, if no key that is inserted has
one of the wallet's own records as its public key. -/
theorem adhoc_revealed (c : Creation) {ops : List WalletOp}
    (hops : ∀ prv, WalletOp.insertAdhoc prv ∈ ops → specialCount ≤ e.publicKey prv) :
    (create e c).Along Revealing ops := by
  suffices hrun : ∀ w : WalletStore e, w.HasRecords → w.version = 3 → w.AllExposing →
      w.Along Revealing ops by
    have hversion : (create e c).version = 3 :=
      congrArg (fun v => v.key.toNat % 256) (entryGetRaw_create c (k := versionSpecial) (by decide))
    exact hrun _ (hasRecords_create c) hversion (allExposing_create c)
  induction ops with
  | nil => exact fun w _ _ hw => hw.revealing
  | cons op ops ih =>
    intro w hrecords hversion hw
    refine ⟨hw.revealing, fun w' h => ?_⟩
    have hleaves := leaves_apply hrecords hversion
      (fun prv hprv => hops prv (hprv ▸ List.mem_cons_self)) h
    exact ih (fun prv hprv => hops prv (List.mem_cons_of_mem op hprv)) w'
      (hleaves.records hrecords) (hleaves.version.trans hversion) (hw.leaves hleaves)

/-- A run that stores two keys. -/
theorem adhoc_revealed_two : wallet.Along Revealing
    [.insertAdhoc 5, .rekey "password", .insertAdhoc 9] := by
  refine adhoc_revealed creation fun prv _ => ?_
  exact BitVec.le_def.mpr Nat.right_le_or

end WalletStore

end RaiBlocks
