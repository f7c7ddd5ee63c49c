import RaiBlocks.Wallet.Rpc

/-!
# Requests and the wallet's own records

The records of a wallet lie in the same table as its accounts, under the numbers below
`special_count`. Only the iteration over accounts starts behind them: `find`, `erase`,
`insert_watch` and `work_put` take any number, and `decode_account` yields any number.
-/

namespace RaiBlocks

open Foundation WalletSample WalletStore

variable {e : WalletEnv} {c : RpcConfig} {w w' : WalletStore e} {text : List UInt8} {a : Uint256}

/-- The records are the same in both tables. -/
def SameRecords (w w' : WalletStore e) : Prop :=
  ∀ k < specialCount, w'.handle.lookup k = w.handle.lookup k

/-- No request about the account `a`, written `text`, touches a record, and `a` is not
found in the wallet if it is the number of one. -/
structure RecordsSafe (c : RpcConfig) (w : WalletStore e) (text : List UInt8) (a : Uint256) :
    Prop where
  addWatch : ∀ r, c.walletAddWatch w [text] = .ok r → SameRecords w r.2
  remove : ∀ r, c.accountRemove w text = .ok r → SameRecords w r.2
  contains : a < specialCount → c.walletContains w text = .ok ([[("exists", "0")]], w)
  workSet : ∀ work r, c.workSet w text work = .ok r → SameRecords w r.2

theorem sameRecords_refl (w : WalletStore e) : SameRecords w w := fun _ _ => rfl

/-! ## The handlers, given the account number -/

theorem walletAddWatch_eq (hd : decodeAccount c.check text = .ok (some a)) :
    c.walletAddWatch w [text] =
      if c.enableControl then
        if w.validPassword then .ok ([[("success", "")]], w.insertWatch a)
        else .ok ([errorResponse "Wallet locked"], w)
      else .ok ([errorResponse "RPC control is disabled"], w) := by
  unfold RpcConfig.walletAddWatch
  split_ifs
  · rw [List.foldlM_cons, RpcConfig.addWatch, hd]
    rfl
  · rfl
  · rfl

theorem accountRemove_eq (hd : decodeAccount c.check text = .ok (some a)) :
    c.accountRemove w text =
      if c.enableControl then
        if w.validPassword then
          if w.exists' a then .ok ([[("removed", "1")]], w.delete a)
          else .ok ([errorResponse "Account not found in wallet"], w)
        else .ok ([errorResponse "Wallet locked"], w)
      else .ok ([errorResponse "RPC control is disabled"], w) := by
  unfold RpcConfig.accountRemove
  rw [hd]
  split_ifs with h1 h2 h3
  · rw [ok_bind]
    dsimp only
    rw [if_pos h3, erase, h3]
    rfl
  · rw [ok_bind]
    dsimp only
    rw [if_neg h3]
    rfl
  · rfl
  · rfl

theorem walletContains_eq (hd : decodeAccount c.check text = .ok (some a)) :
    c.walletContains w text = .ok ([[("exists", if w.exists' a then "1" else "0")]], w) := by
  unfold RpcConfig.walletContains
  rw [hd]
  rfl

/-- Whatever `work_set` does, it writes the entry of the account or nothing. -/
theorem of_workSet (hd : decodeAccount c.check text = .ok (some a)) {work : Option Uint64}
    {r : List Answer × WalletStore e} (h : c.workSet w text work = .ok r) :
    r.2 = w ∨ w.exists' a = true ∧ ∃ v, r.2 = w.entryPutRaw a v := by
  unfold RpcConfig.workSet at h
  rw [hd] at h
  split_ifs at h with h1
  · rw [ok_bind] at h
    dsimp only at h
    split_ifs at h with h2
    · cases work with
      | none =>
        obtain rfl := Except.ok.inj h
        exact Or.inl rfl
      | some work =>
        obtain ⟨v, hv, h⟩ := bind_eq_ok h
        obtain rfl := Except.ok.inj h
        obtain ⟨u, -, hv⟩ := bind_eq_ok hv
        exact Or.inr ⟨h2, _, (Except.ok.inj hv).symm⟩
    · obtain rfl := Except.ok.inj h
      exact Or.inl rfl
  · obtain rfl := Except.ok.inj h
    exact Or.inl rfl

/-! ## Writes -/

theorem sameRecords_entryPutRaw (ha : specialCount ≤ a) (v : WalletValue) :
    SameRecords w (w.entryPutRaw a v) := by
  intro k hk
  rw [lookup_entryPutRaw, if_neg (ne_of_special ha hk).symm]

theorem sameRecords_delete (ha : specialCount ≤ a) : SameRecords w (w.delete a) := by
  intro k hk
  rw [lookup_delete, if_neg (ne_of_special ha hk).symm]

theorem recordsSafe_of_ordinary (hd : decodeAccount c.check text = .ok (some a))
    (ha : specialCount ≤ a) : RecordsSafe c w text a := by
  refine ⟨fun r h => ?_, fun r h => ?_, fun hlt => absurd ha (not_le.mpr hlt),
    fun work r h => ?_⟩
  · rw [walletAddWatch_eq hd] at h
    split_ifs at h
    · obtain rfl := Except.ok.inj h
      exact sameRecords_entryPutRaw ha _
    · obtain rfl := Except.ok.inj h
      exact sameRecords_refl w
    · obtain rfl := Except.ok.inj h
      exact sameRecords_refl w
  · rw [accountRemove_eq hd] at h
    split_ifs at h
    · obtain rfl := Except.ok.inj h
      exact sameRecords_delete ha
    · obtain rfl := Except.ok.inj h
      exact sameRecords_refl w
    · obtain rfl := Except.ok.inj h
      exact sameRecords_refl w
    · obtain rfl := Except.ok.inj h
      exact sameRecords_refl w
  · rcases of_workSet hd h with heq | ⟨-, v, heq⟩
    · rw [heq]
      exact sameRecords_refl w
    · rw [heq]
      exact sameRecords_entryPutRaw ha v

/-- A request that cannot find the number of a missing record changes nothing, unless it
may watch it. -/
theorem recordsSafe_of_absent (hd : decodeAccount c.check text = .ok (some a))
    (habsent : w.exists' a = false)
    (hlocked : ¬ (c.enableControl = true ∧ w.validPassword = true)) :
    RecordsSafe c w text a := by
  refine ⟨fun r h => ?_, fun r h => ?_, fun _ => ?_, fun work r h => ?_⟩
  · rw [walletAddWatch_eq hd] at h
    split_ifs at h with h1 h2
    · exact absurd ⟨h1, h2⟩ hlocked
    · obtain rfl := Except.ok.inj h
      exact sameRecords_refl w
    · obtain rfl := Except.ok.inj h
      exact sameRecords_refl w
  · rw [accountRemove_eq hd] at h
    split_ifs at h with h1 h2
    · exact absurd ⟨h1, h2⟩ hlocked
    · exact absurd ⟨h1, h2⟩ hlocked
    · obtain rfl := Except.ok.inj h
      exact sameRecords_refl w
    · obtain rfl := Except.ok.inj h
      exact sameRecords_refl w
  · rw [walletContains_eq hd, habsent]
    rfl
  · rcases of_workSet hd h with heq | ⟨hfound, -⟩
    · rw [heq]
      exact sameRecords_refl w
    · rw [habsent] at hfound
      cases hfound

/-- **When requests leave the records alone.** For every configuration, every table and every
text that `decode_account` accepts: exactly if the account number is not that of a record,
or the record is missing and the request to watch it is refused. -/
theorem records_safe_iff (hd : decodeAccount c.check text = .ok (some a)) :
    RecordsSafe c w text a ↔ specialCount ≤ a ∨
      w.exists' a = false ∧ ¬ (c.enableControl = true ∧ w.validPassword = true) := by
  constructor
  · intro h
    by_cases ha : specialCount ≤ a
    · exact Or.inl ha
    · have hlt := not_le.mp ha
      have habsent : w.exists' a = false := by
        cases hex : w.exists' a with
        | false => rfl
        | true =>
          have hcontains := h.contains hlt
          rw [walletContains_eq hd, hex] at hcontains
          simp at hcontains
      refine Or.inr ⟨habsent, fun ⟨h1, h2⟩ => ?_⟩
      have hwatch := h.addWatch _ (by rw [walletAddWatch_eq hd, if_pos h1, if_pos h2])
      have hentry := hwatch a hlt
      rw [insertWatch, lookup_entryPutRaw, if_pos rfl] at hentry
      rw [exists', ← hentry] at habsent
      cases habsent
  · rintro (ha | ⟨habsent, hlocked⟩)
    · exact recordsSafe_of_ordinary hd ha
    · exact recordsSafe_of_absent hd habsent hlocked

namespace WalletSample

/-- The check value of the account 0 is that of Blake2b. -/
def config : RpcConfig where
  enableControl := true
  check account := if account = 0 then 0x7C1AA352D6 else 0

/-- The account 0. -/
def burn : List UInt8 :=
  asciiBytes "xrb_1111111111111111111111111111111111111111111111111111hifc8npp"

/-- The account 8192. -/
def plain : List UInt8 :=
  asciiBytes "xrb_1111111111111111111111111111111111111111111111111a1111111111"

theorem texts_decode : decodeAccount config.check burn = .ok (some 0) ∧
    decodeAccount config.check plain = .ok (some 8192) := by
  decide +kernel

end WalletSample

/-- Removing the account 0 from a new wallet removes the version of its table. -/
theorem version_removed : decodeAccount config.check burn = .ok (some 0) ∧
    ∃ r, config.accountRemove wallet burn = .ok r ∧
      wallet.handle.lookup versionSpecial = some ⟨3, 0⟩ ∧
      r.2.handle.lookup versionSpecial = none := by
  have hstored : wallet.exists' 0 = true ∧
      wallet.handle.lookup versionSpecial = some ⟨3, 0⟩ := by
    decide +kernel
  refine ⟨texts_decode.1, ([[("removed", "1")]], wallet.delete 0), ?_, hstored.2, ?_⟩
  · rw [accountRemove_eq texts_decode.1, if_pos (show config.enableControl = true from rfl),
      if_pos wallet_open.1, if_pos hstored.1]
  · exact (lookup_delete _ _ _).trans (if_pos rfl)

theorem records_safe_iff_ordinary : RecordsSafe config wallet plain 8192 :=
  (records_safe_iff texts_decode.2).mpr (Or.inl (by decide))

end RaiBlocks
