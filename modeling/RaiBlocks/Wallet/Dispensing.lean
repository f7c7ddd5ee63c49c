import RaiBlocks.Foundation.Fresh
import RaiBlocks.Refinement.Tower
import RaiBlocks.Wallet.Concurrent
import RaiBlocks.Wallet.Import
import RaiBlocks.Wallet.Seeds

/-!
# Handing out the accounts of a seed

What `seed_set` leaves of the table, and the accounts that `deterministic_insert` then hands out:
those of the indices in ascending order whose accounts have no entry.
-/

namespace RaiBlocks

open Foundation WalletValue

namespace WalletStore

variable {e : WalletEnv} {w w' : WalletStore e} {k s : Uint256}

theorem mem_accounts_iff : k ∈ w.accounts ↔ w.exists' k = true ∧ specialCount ≤ k := by
  unfold accounts exists'
  rw [Finset.mem_sort, Finset.mem_filter, Finmap.mem_keys, ← Finmap.lookup_isSome]

/-! ## The table after `seed_set` -/

theorem lookup_foldl_clearKey (l : List Uint256) : ∀ w : WalletStore e,
    (l.foldl clearKey w).handle.lookup k =
      if k ∈ l ∧ keyType (w.entryGetRaw k) = .deterministic then none else w.handle.lookup k := by
  induction l with
  | nil => exact fun w => (if_neg (by simp)).symm
  | cons a l ih =>
    intro w
    rw [List.foldl_cons, ih]
    by_cases htype : keyType (w.entryGetRaw a) = .deterministic
    · rw [clearKey, if_pos htype]
      by_cases hka : k = a
      · subst hka
        have hnone : (w.delete k).handle.lookup k = none := by rw [lookup_delete, if_pos rfl]
        rw [hnone, ite_self, if_pos ⟨List.mem_cons_self, htype⟩]
      · have hentry : (w.delete a).entryGetRaw k = w.entryGetRaw k :=
          entryGetRaw_congr (by rw [lookup_delete, if_neg hka])
        rw [hentry, lookup_delete, if_neg hka]
        simp only [List.mem_cons, hka, false_or]
    · rw [clearKey, if_neg htype]
      by_cases hka : k = a
      · subst hka
        rw [if_neg fun h => htype h.2, if_neg fun h => htype h.2]
      · simp only [List.mem_cons, hka, false_or]

theorem password_foldl_clearKey (l : List Uint256) (w : WalletStore e) :
    (l.foldl clearKey w).password = w.password ∧
      (l.foldl clearKey w).walletKeyMem = w.walletKeyMem := by
  apply List.foldlRecOn _ _ (motive := fun v : WalletStore e =>
    v.password = w.password ∧ v.walletKeyMem = w.walletKeyMem) ⟨rfl, rfl⟩
  intro v hv a _
  unfold clearKey
  split_ifs
  · exact hv
  · exact hv

theorem lookup_seedSet (hk : specialCount ≤ k) : (w.seedSet s).handle.lookup k =
    if keyType (w.entryGetRaw k) = .deterministic then none else w.handle.lookup k := by
  have hlookup : (w.encryptPut seedSpecial ⟨w.walletKey, oword w.salt, s⟩).handle.lookup k =
      w.handle.lookup k := by
    rw [lookup_encryptPut, if_neg (ne_of_special hk (by decide))]
  rw [seedSet, deterministicClear, deterministicIndexSet, lookup_entryPutRaw,
    if_neg (ne_of_special hk (by decide)), lookup_foldl_clearKey, entryGetRaw_congr hlookup,
    hlookup]
  by_cases htype : keyType (w.entryGetRaw k) = .deterministic
  · rw [if_pos htype]
    split_ifs with hmem
    · rfl
    · -- A key that is not among the accounts has no entry.
      rw [← Option.not_isSome_iff_eq_none, ← hlookup]
      exact fun hsome => hmem ⟨mem_accounts_iff.mpr ⟨hsome, hk⟩, htype⟩
  · rw [if_neg htype, if_neg fun h => htype h.2]

theorem lookup_seedSet_record (hk : k < seedSpecial) :
    (w.seedSet s).handle.lookup k = w.handle.lookup k := by
  have hspecial : k < specialCount := hk.trans (by decide)
  rw [seedSet, lookup_deterministicClear (hk.trans (by decide)).ne
    fun hle => absurd hspecial (not_lt.mpr hle), lookup_encryptPut, if_neg hk.ne]

theorem entryGetRaw_seedSet_seed : (w.seedSet s).entryGetRaw seedSpecial =
    ⟨e.encrypt s w.walletKey (oword w.salt), 0⟩ := by
  rw [seedSet, entryGetRaw_congr (lookup_deterministicClear (by decide)
    fun hle => absurd hle (by decide)), entryGetRaw_encryptPut, if_pos rfl]

theorem deterministicIndexGet_seedSet : (w.seedSet s).deterministicIndexGet = 0 := by
  rw [seedSet, deterministicClear, deterministicIndexSet, deterministicIndexGet,
    entryGetRaw_entryPutRaw, if_pos rfl]
  rfl

theorem salt_seedSet : (w.seedSet s).salt = w.salt :=
  congrArg key (entryGetRaw_congr (lookup_seedSet_record (by decide)))

theorem check_seedSet : (w.seedSet s).check = w.check :=
  congrArg key (entryGetRaw_congr (lookup_seedSet_record (by decide)))

theorem walletKey_seedSet : (w.seedSet s).walletKey = w.walletKey := by
  obtain ⟨hpassword, hmem⟩ := password_foldl_clearKey (w.encryptPut seedSpecial
    ⟨w.walletKey, oword w.salt, s⟩).accounts
      (w.encryptPut seedSpecial ⟨w.walletKey, oword w.salt, s⟩)
  rw [walletKey, salt_seedSet]
  change e.decrypt (Fan.value (List.foldl clearKey _ _).walletKeyMem)
    (Fan.value (List.foldl clearKey _ _).password) _ = _
  rw [hpassword, hmem]
  rfl

theorem validPassword_seedSet : (w.seedSet s).validPassword = w.validPassword := by
  rw [validPassword, check_seedSet, walletKey_seedSet, salt_seedSet, validPassword]

theorem seed_seedSet : (w.seedSet s).seed = s := by
  rw [seed, entryGetRaw_seedSet_seed, walletKey_seedSet, salt_seedSet, WalletEnv.decrypt_encrypt]

/-- A wallet that the constructor accepts has all records once it has a seed. -/
theorem hasRecords_seedSet (h : ∀ k ∈ requiredRecords, w.exists' k = true) :
    (w.seedSet s).HasRecords := by
  intro k hk
  have hearly : k < seedSpecial → k ∈ requiredRecords → (w.seedSet s).exists' k = true := by
    intro hlt hmem
    rw [exists', lookup_seedSet_record hlt]
    exact h k hmem
  rcases record_cases hk with rfl | rfl | rfl | rfl | rfl | rfl | rfl
  · exact hearly (by decide) (by decide)
  · exact hearly (by decide) (by decide)
  · exact hearly (by decide) (by decide)
  · exact hearly (by decide) (by decide)
  · exact hearly (by decide) (by decide)
  · rw [exists', seedSet, lookup_deterministicClear (by decide) fun hle => absurd hle (by decide),
      lookup_encryptPut, if_pos rfl]
    rfl
  · rw [exists', seedSet, deterministicClear, deterministicIndexSet, lookup_entryPutRaw, if_pos rfl]
    rfl

/-! ## Handing out accounts -/

/-- The account of an index. -/
def account (e : WalletEnv) (s : Uint256) (i : ℕ) : Uint256 :=
  e.publicKey (deterministicKey e.toEnv s (BitVec.ofNat 32 i))

/-- The indices whose accounts `deterministic_insert` creates, in this order. -/
def freshIndices (w : WalletStore e) (s : Uint256) : List ℕ :=
  freshNumbers (account e s) (2 ^ 32) w.exists'

/-- An unlocked wallet with the seed `s`, whose index has only accounts of the wallet
behind it. -/
structure Dispensing (s : Uint256) (w : WalletStore e) : Prop where
  valid : w.validPassword = true
  seed : w.seed = s
  records : w.HasRecords
  behind : ∀ i < w.deterministicIndexGet.toNat, w.exists' (account e s i) = true

theorem dispensing_seedSet (hopen : w.validPassword = true)
    (hrecords : ∀ k ∈ requiredRecords, w.exists' k = true) : (w.seedSet s).Dispensing s where
  valid := validPassword_seedSet.trans hopen
  seed := seed_seedSet
  records := hasRecords_seedSet hrecords
  behind i hi := by
    rw [deterministicIndexGet_seedSet] at hi
    exact absurd hi (Nat.not_lt_zero i)

theorem exists_putMarker_iff {pub : Uint256} {index : BitVec 32} (h : w.HasRecords) :
    (w.putMarker pub index).exists' k = true ↔ w.exists' k = true ∨ k = pub := by
  rw [exists', putMarker, deterministicIndexSet, lookup_entryPutRaw, lookup_entryPutRaw]
  by_cases hindex : k = deterministicIndexSpecial
  · rw [if_pos hindex, hindex]
    exact iff_of_true rfl (Or.inl (h _ (by decide)))
  · rw [if_neg hindex]
    by_cases hpub : k = pub
    · rw [if_pos hpub]
      exact iff_of_true rfl (Or.inr hpub)
    · rw [if_neg hpub]
      exact (or_iff_left hpub).symm

namespace Dispensing

variable {m : ℕ} {rest : List ℕ}

theorem deterministicPrv (h : w.Dispensing s) (index : BitVec 32) :
    w.deterministicPrv index = .ok (deterministicKey e.toEnv s index) := by
  rw [WalletStore.deterministicPrv, h.valid, h.seed]
  rfl

theorem account_toNat (index : BitVec 32) :
    account e s index.toNat = e.publicKey (deterministicKey e.toEnv s index) := by
  rw [account, BitVec.ofNat_toNat, BitVec.setWidth_eq]

theorem nextIndex (h : w.Dispensing s) (i : BitVec 32 × Uint256) :
    Writer.nextIndex w i = .ok (i.1 + 1, account e s (i.1 + 1).toNat) := by
  rw [Writer.nextIndex, h.deterministicPrv, ok_bind, account_toNat]
  rfl

theorem deterministicInsert_eq (h : w.Dispensing s) : w.deterministicInsert =
    whileLoop Fault.outOfFuel (fun i => w.exists' i.2) (Writer.nextIndex w) (2 ^ 32)
      (w.deterministicIndexGet, account e s w.deterministicIndexGet.toNat) >>= fun i =>
        .ok (i.2, w.putMarker i.2 i.1) := by
  rw [Writer.deterministicInsert_eq, h.deterministicPrv, ok_bind, account_toNat]

/-- The next account is that of the first fresh index. -/
theorem deterministicInsert_of_cons (h : w.Dispensing s) (hfresh : w.freshIndices s = m :: rest) :
    w.deterministicInsert =
      .ok (account e s m, w.putMarker (account e s m) (BitVec.ofNat 32 m)) := by
  obtain ⟨hlt, hfree, -⟩ := freshNumbers_head hfresh
  -- The index has not passed `m`, and the loop stops there.
  have hle : w.deterministicIndexGet.toNat ≤ m := by
    by_contra hlt'
    rw [h.behind m (not_le.mp hlt')] at hfree
    cases hfree
  have hstep : ∀ k (i : BitVec 32 × Uint256), i.1.toNat + k = m ∧ i.2 = account e s i.1.toNat →
      w.exists' i.2 = true → ∃ k' i', Writer.nextIndex w i = .ok i' ∧ k' < k ∧
        i'.1.toNat + k' = m ∧ i'.2 = account e s i'.1.toNat := by
    rintro k i ⟨hi, hia⟩ hexists
    have hne : k ≠ 0 := by
      rintro rfl
      rw [Nat.add_zero] at hi
      rw [hia, hi, hfree] at hexists
      cases hexists
    have hadd : (i.1 + 1).toNat = i.1.toNat + 1 := by
      rw [BitVec.toNat_add]
      exact Nat.mod_eq_of_lt (show i.1.toNat + 1 < 2 ^ 32 by omega)
    exact ⟨k - 1, _, h.nextIndex i, by omega, by dsimp only; omega, rfl⟩
  obtain ⟨k', ⟨index, a⟩, hloop, ⟨hindex, ha⟩, hstop⟩ : ∃ k' i, whileLoop Fault.outOfFuel
      (fun i => w.exists' i.2) (Writer.nextIndex w) (2 ^ 32)
      (w.deterministicIndexGet, account e s w.deterministicIndexGet.toNat) = .ok i ∧
      (i.1.toNat + k' = m ∧ i.2 = account e s i.1.toNat) ∧ w.exists' i.2 = false :=
    whileLoop_total hstep (2 ^ 32) (m - w.deterministicIndexGet.toNat) _ (by omega)
      ⟨Nat.add_sub_cancel' hle, rfl⟩
  dsimp only at hindex ha hstop
  have hend : index.toNat = m := by
    by_contra hne
    rw [ha, taken_of_lt_head hfresh (by omega)] at hstop
    cases hstop
  have hofNat : BitVec.ofNat 32 m = index := by
    rw [← hend, BitVec.ofNat_toNat, BitVec.setWidth_eq]
  rw [h.deterministicInsert_eq, hloop, ok_bind, hofNat, ha, hend]

theorem deterministicInsert_of_nil (h : w.Dispensing s) (hfresh : w.freshIndices s = []) :
    w.deterministicInsert = .error .outOfFuel := by
  have hstep : ∀ i : BitVec 32 × Uint256, i.2 = account e s i.1.toNat →
      w.exists' i.2 = true ∧
        ∃ i', Writer.nextIndex w i = .ok i' ∧ i'.2 = account e s i'.1.toNat := by
    intro i hi
    refine ⟨?_, _, h.nextIndex i, rfl⟩
    rw [hi]
    exact taken_of_freshNumbers_nil hfresh i.1.isLt
  rw [h.deterministicInsert_eq, whileLoop_exhausted hstep _ _ rfl]
  rfl

theorem putMarker (h : w.Dispensing s) (hfresh : w.freshIndices s = m :: rest) :
    (w.putMarker (account e s m) (BitVec.ofNat 32 m)).Dispensing s ∧
      (w.putMarker (account e s m) (BitVec.ofNat 32 m)).freshIndices s = rest := by
  obtain ⟨hlt, hfree, -⟩ := freshNumbers_head hfresh
  have hrest : (w.putMarker (account e s m) (BitVec.ofNat 32 m)).freshIndices s = rest :=
    freshNumbers_of_cons hfresh fun k => exists_putMarker_iff h.records
  have hb := beside_putMarker (w := w) (h.records.ordinary hfree) (BitVec.ofNat 32 m)
  have hvalid := (hb.validPassword rfl rfl).trans h.valid
  refine ⟨⟨hvalid, ?_, fun k hk => exists_putMarker _ (h.records k hk), fun i hi => ?_⟩, hrest⟩
  · rw [seed_eq_clearSeed hvalid, hb.clearSeed, ← seed_eq_clearSeed h.valid]
    exact h.seed
  · rw [exists_putMarker_iff h.records]
    rw [deterministicIndexGet_putMarker, BitVec.toNat_add, BitVec.toNat_ofNat,
      Nat.mod_eq_of_lt hlt] at hi
    have him : i < m + 1 := lt_of_lt_of_le hi (Nat.mod_le _ _)
    rcases Nat.lt_succ_iff_lt_or_eq.mp him with hi' | rfl
    · exact Or.inl (taken_of_lt_head hfresh hi')
    · exact Or.inr rfl

theorem opened_putMarker (h : w.Dispensing s) (hfresh : w.freshIndices s = m :: rest) :
    (w.putMarker (account e s m) (BitVec.ofNat 32 m)).opened (account e s m) =
      some (deterministicKey e.toEnv s (BitVec.ofNat 32 m)) := by
  have hordinary := h.records.ordinary (freshNumbers_head hfresh).2.1
  have hseed : w.clearSeed = s := (seed_eq_clearSeed h.valid).symm.trans h.seed
  unfold account at hordinary ⊢
  rw [← hseed] at hordinary ⊢
  exact WalletStore.opened_putMarker hordinary

end Dispensing

/-- From `w` to `w'` the accounts of the indices `l` were inserted. -/
structure Handed (s : Uint256) (l : List ℕ) (w w' : WalletStore e) : Prop where
  dispensing : w'.Dispensing s
  exists_iff : ∀ a, w'.exists' a = true ↔ w.exists' a = true ∨ a ∈ l.map (account e s)
  opened : ∀ i ∈ l, w'.opened (account e s i) =
    some (deterministicKey e.toEnv s (BitVec.ofNat 32 i))
  frame : ∀ a, specialCount ≤ a → a ∉ l.map (account e s) → w'.opened a = w.opened a

theorem Handed.nil (h : w.Dispensing s) : Handed s [] w w where
  dispensing := h
  exists_iff a := by simp
  opened i hi := absurd hi List.not_mem_nil
  frame a _ _ := rfl

theorem Handed.cons (h : w.Dispensing s) {m : ℕ} {rest l : List ℕ}
    (hfresh : w.freshIndices s = m :: rest)
    (hrest : Handed s l (w.putMarker (account e s m) (BitVec.ofNat 32 m)) w')
    (hl : ∀ i ∈ l, i ∈ rest) : Handed s (m :: l) w w' := by
  obtain ⟨hmarker, hfresh'⟩ := h.putMarker hfresh
  have hordinary := h.records.ordinary (freshNumbers_head hfresh).2.1
  have hb := beside_putMarker (w := w) hordinary (BitVec.ofNat 32 m)
  -- The account of `m` has an entry now, so it is not among the later ones.
  have hnew : account e s m ∉ l.map (account e s) := by
    intro hmem
    obtain ⟨i, hi, heq⟩ := List.mem_map.mp hmem
    rw [← hfresh'] at hl
    have hfree := (mem_freshNumbers.mp (hl i hi)).2.1
    rw [heq, (exists_putMarker_iff h.records).mpr (Or.inr rfl)] at hfree
    cases hfree
  refine ⟨hrest.dispensing, fun a => ?_, fun i hi => ?_, fun a ha hmem => ?_⟩
  · rw [hrest.exists_iff, exists_putMarker_iff h.records, List.map_cons, List.mem_cons, or_assoc]
  · rcases List.mem_cons.mp hi with rfl | hi
    · rw [hrest.frame _ hordinary hnew]
      exact h.opened_putMarker hfresh
    · exact hrest.opened i hi
  · rw [List.map_cons, List.mem_cons, not_or] at hmem
    rw [hrest.frame a ha hmem.2, hb.opened hmem.1 (ne_of_special ha (by decide))]

/-- **What `n` calls of `deterministic_insert` return**, if there are so many fresh
indices. -/
theorem Dispensing.deterministicInserts (n : ℕ) : ∀ {w : WalletStore e}, w.Dispensing s →
    n ≤ (w.freshIndices s).length → ∃ w',
      deterministicInserts n w = .ok (((w.freshIndices s).take n).map (account e s), w') ∧
        Handed s ((w.freshIndices s).take n) w w' := by
  induction n with
  | zero =>
    intro w h _
    exact ⟨w, rfl, .nil h⟩
  | succ n ih =>
    intro w h hn
    cases hfresh : w.freshIndices s with
    | nil =>
      rw [hfresh] at hn
      exact absurd hn (Nat.not_succ_le_zero n)
    | cons m rest =>
      obtain ⟨hmarker, hrest⟩ := h.putMarker hfresh
      rw [hfresh, List.length_cons] at hn
      obtain ⟨w', hrun, hhanded⟩ := ih hmarker (by rw [hrest]; omega)
      rw [hrest] at hrun hhanded
      refine ⟨w', ?_, .cons h hfresh hhanded fun i hi => List.mem_of_mem_take hi⟩
      rw [WalletStore.deterministicInserts, h.deterministicInsert_of_cons hfresh, ok_bind, hrun]
      rfl

/-- With fewer fresh indices one of the calls never returns. -/
theorem Dispensing.deterministicInserts_error (n : ℕ) : ∀ {w : WalletStore e}, w.Dispensing s →
    (w.freshIndices s).length < n → WalletStore.deterministicInserts n w = .error .outOfFuel := by
  induction n with
  | zero => exact fun _ hn => absurd hn (Nat.not_lt_zero _)
  | succ n ih =>
    intro w h hn
    rw [WalletStore.deterministicInserts]
    cases hfresh : w.freshIndices s with
    | nil =>
      rw [h.deterministicInsert_of_nil hfresh]
      rfl
    | cons m rest =>
      obtain ⟨hmarker, hrest⟩ := h.putMarker hfresh
      rw [hfresh, List.length_cons] at hn
      rw [h.deterministicInsert_of_cons hfresh, ok_bind, ih hmarker (by rw [hrest]; omega)]
      rfl

/-! ## New wallets -/

theorem validPassword_create (c : Creation) : (create e c).validPassword = true := by
  have hsalt : (create e c).salt = c.salt :=
    congrArg key (entryGetRaw_create c (by decide))
  have hcheck : (create e c).check = e.encrypt 0 c.walletKey (oword c.salt) :=
    congrArg key (entryGetRaw_create c (by decide))
  have hmem : (create e c).walletKeyMem.value = e.encrypt c.walletKey 0 (oword c.salt) :=
    (Fan.value_valueSet _ _).trans
      (congrArg key (entryGetRaw_create c (k := walletKeySpecial) (by decide)))
  have hpassword : (create e c).password.value = 0 := by
    change Fan.value (List.foldl clearKey _ _).password = 0
    rw [(password_foldl_clearKey _ _).1]
    exact Fan.value_valueSet _ _
  rw [validPassword, hcheck, walletKey, hmem, hpassword, hsalt, WalletEnv.decrypt_encrypt]
  exact beq_self_eq_true _

theorem lookup_create_account (c : Creation) (hk : specialCount ≤ k) :
    (create e c).handle.lookup k = none := by
  have hkeys : (createKeys e c).handle.lookup k = none := by
    simp only [createKeys, versionPut, withPassword, withWalletKeyMem, lookup_entryPutRaw,
      lookup_encryptPut]
    rw [if_neg (ne_of_special hk (by decide)), if_neg (ne_of_special hk (by decide)),
      if_neg (ne_of_special hk (by decide)), if_neg (ne_of_special hk (by decide)),
      if_neg (ne_of_special hk (by decide))]
    rfl
  change ((createKeys e c).seedSet c.seed |>.entryPutRaw _ _).handle.lookup k = none
  rw [lookup_entryPutRaw, if_neg (ne_of_special hk (by decide)), lookup_seedSet hk, hkeys, ite_self]

/-- An entry that stays when the seed is changed: a record, or an account that is not
deterministic. -/
def kept (w : WalletStore e) (a : Uint256) : Bool :=
  decide (a < specialCount) || w.exists' a && decide (keyType (w.entryGetRaw a) ≠ .deterministic)

theorem exists_seedSet (hrecords : ∀ k ∈ requiredRecords, w.exists' k = true) :
    (w.seedSet s).exists' = w.kept := by
  funext a
  by_cases ha : a < specialCount
  · rw [hasRecords_seedSet hrecords a ha, kept, decide_eq_true ha, Bool.true_or]
  · rw [kept, decide_eq_false ha, Bool.false_or, exists', lookup_seedSet (not_lt.mp ha)]
    by_cases htype : keyType (w.entryGetRaw a) = .deterministic
    · rw [if_pos htype, decide_eq_false (not_not.mpr htype), Bool.and_false]
      rfl
    · rw [if_neg htype, decide_eq_true htype, Bool.and_true, exists']

/-- The indices of the accounts that are free for a new seed, each account once. -/
def freeIndices (w : WalletStore e) (s : Uint256) : List ℕ :=
  freshNumbers (account e s) (2 ^ 32) w.kept

theorem length_freeIndices_le (w : WalletStore e) (s : Uint256) (m : ℕ) :
    ((w.freeIndices s).filter (· ≤ m)).length ≤ m + 1 := length_freshNumbers_le m

theorem freshIndices_seedSet (hrecords : ∀ k ∈ requiredRecords, w.exists' k = true) :
    (w.seedSet s).freshIndices s = w.freeIndices s := by
  rw [freshIndices, exists_seedSet hrecords, freeIndices]

end WalletStore

/-! ## Two wallets -/

namespace Reseeded

open WalletStore

variable {s : Uint256} {i : ℕ}

/-- The hash is that of the tower. Private keys are the indices, public keys follow the records. -/
def env : WalletEnv := { WalletSample.env with
  toEnv := Tower.env
  publicKey := fun prv => prv + 8 }

theorem deterministicKey_eq (s : Uint256) (i : ℕ) :
    deterministicKey Tower.env s (BitVec.ofNat 32 i) = BitVec.ofNat 256 (i % 2 ^ 32) := by
  have hlength : (bigEndian 32 s.toNat ++ bigEndian 4 (BitVec.ofNat 32 i).toNat).length = 36 := by
    simp
  rw [deterministicKey, Tower.blake2b_of_index hlength, List.drop_left' (length_bigEndian 32 _),
    fromBigEndian_bigEndian 4 _ (BitVec.isLt _), BitVec.toNat_ofNat]

theorem account_eq (s : Uint256) (i : ℕ) : account env s i = BitVec.ofNat 256 (i % 2 ^ 32) + 8 :=
  congrArg (· + (8 : Uint256)) (deterministicKey_eq s i)

theorem toNat_account (s : Uint256) (i : ℕ) : (account env s i).toNat = i % 2 ^ 32 + 8 := by
  have h8 : (8 : Uint256).toNat = 8 := by decide
  rw [account_eq, BitVec.toNat_add, BitVec.toNat_ofNat, h8]
  omega

theorem account_inj {t : Uint256} {j : ℕ} (hi : i < 2 ^ 32) (hj : j < 2 ^ 32) :
    account env s i = account env t j ↔ i = j := by
  constructor
  · intro h
    have hnat := congrArg BitVec.toNat h
    rw [toNat_account, toNat_account] at hnat
    omega
  · rintro rfl
    rw [account_eq, account_eq]

theorem injective (s : Uint256) :
    Function.Injective fun index => env.publicKey (deterministicKey env.toEnv s index) := by
  intro i j h
  dsimp only at h
  rw [← Dispensing.account_toNat, ← Dispensing.account_toNat, account_inj i.isLt j.isLt] at h
  exact BitVec.eq_of_toNat_eq h

theorem ordinary (s : Uint256) (i : ℕ) : specialCount ≤ account env s i := by
  show 7 ≤ (account env s i).toNat
  rw [toNat_account]
  omega

theorem freeIndices_eq (w : WalletStore env) (s : Uint256) :
    w.freeIndices s = (List.range (2 ^ 32)).filter fun i => !w.kept (account env s i) :=
  freshNumbers_of_injOn fun _ hi _ hj h => (account_inj hi hj).mp h

/-- A new wallet. -/
def wallet : WalletStore env := .create env WalletSample.creation

theorem wallet_open : wallet.validPassword = true := validPassword_create _

theorem wallet_records : ∀ k ∈ requiredRecords, wallet.exists' k = true :=
  fun k hk => hasRecords_create _ k (requiredRecords_lt k hk)

theorem kept_eq (w : WalletStore env) (s : Uint256) (i : ℕ) : w.kept (account env s i) =
    (w.exists' (account env s i) &&
      decide (keyType (w.entryGetRaw (account env s i)) ≠ .deterministic)) := by
  rw [kept, decide_eq_false (not_lt.mpr (ordinary s i)), Bool.false_or]

theorem kept_wallet (s : Uint256) (i : ℕ) : wallet.kept (account env s i) = false := by
  rw [kept_eq, exists', wallet, lookup_create_account _ (ordinary s i)]
  rfl

theorem freeIndices_wallet (s : Uint256) : wallet.freeIndices s = List.range (2 ^ 32) := by
  rw [freeIndices_eq, List.filter_eq_self]
  exact fun i _ => by rw [kept_wallet, Bool.not_false]

/-- A wallet with the first account of another seed, which watches the second one. -/
def used : WalletStore env :=
  ((wallet.seedSet 4).putMarker (account env 4 0) 0).insertWatch (account env 4 1)

/-- The first account is what `deterministic_insert` inserts. -/
theorem deterministicInsert_wallet : (wallet.seedSet 4).deterministicInsert =
    .ok (account env 4 0, (wallet.seedSet 4).putMarker (account env 4 0) 0) := by
  have hrange : List.range (2 ^ 32) = 0 :: (List.range (2 ^ 32 - 1)).map Nat.succ :=
    List.range_succ_eq_map
  have hfresh : (wallet.seedSet 4).freshIndices 4 =
      0 :: (List.range (2 ^ 32 - 1)).map Nat.succ := by
    rw [freshIndices_seedSet wallet_records, freeIndices_wallet, hrange]
  exact (dispensing_seedSet wallet_open wallet_records).deterministicInsert_of_cons hfresh

theorem lookup_used (hi : i < 2 ^ 32) :
    used.handle.lookup (account env s i) =
      if i = 1 then some ⟨0, 0⟩ else if i = 0 then some ⟨marker 0, 0⟩ else none := by
  have hindex : account env s i ≠ deterministicIndexSpecial :=
    ne_of_special (ordinary s i) (by decide)
  rw [used, insertWatch, lookup_entryPutRaw, putMarker, deterministicIndexSet, lookup_entryPutRaw,
    if_neg hindex, lookup_entryPutRaw, lookup_seedSet (ordinary s i), wallet,
    lookup_create_account _ (ordinary s i), ite_self]
  simp only [account_inj hi (by norm_num : 1 < 2 ^ 32), account_inj hi (by norm_num : 0 < 2 ^ 32)]

theorem kept_used (hi : i < 2 ^ 32) : used.kept (account env s i) = decide (i = 1) := by
  rw [kept_eq, exists', entryGetRaw, lookup_used hi]
  by_cases h1 : i = 1
  · rw [if_pos h1, decide_eq_true h1]
    decide
  · rw [if_neg h1, decide_eq_false h1]
    by_cases h0 : i = 0
    · rw [if_pos h0]
      decide
    · rw [if_neg h0]
      rfl

theorem freeIndices_used (s : Uint256) : ∃ l, used.freeIndices s = [0, 2, 3, 4] ++ l := by
  have hfree : used.freeIndices s = (List.range (2 ^ 32)).filter fun i => !decide (i = 1) := by
    rw [freeIndices_eq]
    refine List.filter_congr fun i hi => ?_
    rw [kept_used (List.mem_range.mp hi)]
  rw [hfree, show 2 ^ 32 = 5 + (2 ^ 32 - 5) by norm_num, List.range_add, List.filter_append]
  exact ⟨_, rfl⟩

theorem used_open : used.validPassword = true := by
  refine ((beside_entryPutRaw (ordinary 4 1) _).validPassword rfl rfl).trans ?_
  refine ((beside_putMarker (ordinary 4 0) 0).validPassword rfl rfl).trans ?_
  exact validPassword_seedSet.trans wallet_open

theorem used_records : ∀ k ∈ requiredRecords, used.exists' k = true := by
  intro k hk
  have hseed := hasRecords_seedSet (s := 4) wallet_records k (requiredRecords_lt k hk)
  exact exists_entryPutRaw _ (exists_putMarker _ hseed)

end Reseeded

end RaiBlocks
