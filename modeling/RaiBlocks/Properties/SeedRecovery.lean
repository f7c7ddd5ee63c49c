import RaiBlocks.Foundation.Search
import RaiBlocks.Wallet.Blocks
import RaiBlocks.Wallet.Dispensing

/-!
# Recovering the accounts of a seed

`change_seed` looks for accounts that have received something, from index 1 on and for so
long as the next one may be near: every account that is found moves the end of the search.
Then it inserts as many accounts as the last index it has found, and one before.

The search is in 32 bits. After an index whose limit is no number of 32 bits, the limit wraps
around and the search is over. And an account can be inserted only while there is an index left
whose account is not in the wallet.
-/

namespace RaiBlocks

open Foundation WalletStore Reseeded Tower

/-- The gap limit: 64 accounts and one in 64 of those before. -/
def gapLimit (j : ℕ) : ℕ := j + 64 + j / 64

/-- In 32 bits. -/
def gapLimit32 (j : ℕ) : ℕ := gapLimit j % 2 ^ 32

theorem gapLimit_mono {j j' : ℕ} (h : j ≤ j') : gapLimit j ≤ gapLimit j' :=
  Nat.add_le_add (Nat.add_le_add_right h 64) (Nat.div_le_div_right h)

theorem gapLimit32_eq_iff (j : ℕ) : gapLimit32 j = gapLimit j ↔ gapLimit j < 2 ^ 32 := by
  unfold gapLimit32
  omega

/-- A limit that wraps around ends the search at once. -/
theorem gapLimit32_cut (j : ℕ) : gapLimit32 j = gapLimit j ∨ gapLimit32 j ≤ j + 1 := by
  unfold gapLimit32 gapLimit
  omega

/-! ## The accounts that have received something -/

/-- The account has a chain in the ledger or a pending entry. -/
def BlockStore.Received (s : BlockStore) (a : Account) : Prop :=
  (s.accountGet a).isSome = true ∨ ∃ k ∈ s.pending.keys, k.account = a

instance decidableReceived (s : BlockStore) (a : Account) : Decidable (s.Received a) :=
  inferInstanceAs (Decidable (_ ∨ _))

namespace WalletStore

variable {e : WalletEnv} {U : Set Block} {Λ : Lattice e.toEnv} {s : BlockStore}
  {w w' : WalletStore e} {prv : Uint256}

theorem hasPending_iff {a : Account} (ha : a ≠ BitVec.allOnes 256) :
    hasPending s a = true ↔ ∃ k ∈ s.pending.keys, k.account = a := by
  have hkeys : (∃ k ∈ s.pending.keys, k.account = a) ↔ pendingOf s a ≠ [] := by
    constructor
    · rintro ⟨k, hk, rfl⟩
      obtain ⟨info, hinfo⟩ := Option.isSome_iff_exists.mp
        (Finmap.lookup_isSome.mpr (Finmap.mem_keys.mp hk))
      exact List.ne_nil_of_mem (List.mem_filter.mpr ⟨Table.mem_rows.mpr hinfo, decide_eq_true rfl⟩)
    · intro hne
      obtain ⟨row, hrow⟩ := List.exists_mem_of_ne_nil _ hne
      obtain ⟨hmem, heq⟩ := List.mem_filter.mp hrow
      refine ⟨row.1, Finmap.mem_keys.mpr (Finmap.lookup_isSome.mp ?_), of_decide_eq_true heq⟩
      rw [Table.mem_rows.mp hmem]
      rfl
  rw [hkeys, hasPending, decide_eq_true_iff, pendingBegin_split ha]
  cases hrows : pendingOf s a with
  | nil => simp
  | cons row l =>
    have hrow : row ∈ pendingOf s a := by rw [hrows]; exact List.mem_cons_self
    refine iff_of_true (fun heq => head?_pendingBegin_next ha hrow heq.symm) ?_
    exact List.cons_ne_nil row l

/-- A round of the search, for an account below the last number. -/
theorem scanRound_eq (hr : Refines U s Λ) (h : w.Dispensing prv) (x : Scan)
    (hmax : account e prv x.i.toNat ≠ BitVec.allOnes 256) : scanRound s w x =
      .ok (if s.Received (account e prv x.i.toNat) then
        ⟨x.i + 1, x.i + 64 + x.i / 64, x.i⟩ else { x with i := x.i + 1 }) := by
  have hlatest : Ledger.latest s (account e prv x.i.toNat) ≠ 0 ↔ _ := hr.latest_ne_zero_iff
  have hpending := hasPending_iff (s := s) hmax
  rw [scanRound, h.deterministicPrv, ok_bind]
  dsimp only
  rw [← Dispensing.account_toNat]
  by_cases hchain : Ledger.latest s (account e prv x.i.toNat) ≠ 0
  · have hrec : s.Received (account e prv x.i.toNat) := Or.inl (hlatest.mp hchain)
    rw [if_pos hchain, if_pos hrec]
    rfl
  · rw [if_neg hchain]
    have hiff : s.Received (account e prv x.i.toNat) ↔
        hasPending s (account e prv x.i.toNat) = true := by
      rw [BlockStore.Received, ← hlatest, hpending]
      exact or_iff_right hchain
    by_cases hp : hasPending s (account e prv x.i.toNat) = true
    · rw [if_pos hp, if_pos (hiff.mpr hp)]
      rfl
    · rw [if_neg hp, if_neg fun hrec => hp (hiff.mp hrec)]
      rfl

theorem toNat_limit (i : BitVec 32) : (i + 64 + i / 64).toNat = gapLimit32 i.toNat := by
  rw [BitVec.toNat_add, BitVec.toNat_add, BitVec.toNat_udiv]
  change ((i.toNat + 64) % 2 ^ 32 + i.toNat / 64) % 2 ^ 32 = _
  rw [Nat.mod_add_mod]
  rfl

/-- **What the search finds.** -/
theorem scan_eq (hr : Refines U s Λ) (h : w.Dispensing prv)
    (hmax : ∀ i, account e prv i ≠ BitVec.allOnes 256) : ∃ x : Scan,
      whileLoop Fault.outOfFuel (fun x : Scan => decide (x.i < x.n)) (scanRound s w) (2 ^ 32)
        ⟨1, 64, 0⟩ = .ok x ∧ x.count.toNat =
          lastFound gapLimit32 (fun i => s.Received (account e prv i)) (2 ^ 32 - 1) := by
  let found := lastFound gapLimit32 fun i => s.Received (account e prv i)
  -- `count` is what was found before `i`, and `n` is the limit it sets.
  have hstep : ∀ k (x : Scan), x.i.toNat + k = 2 ^ 32 ∧ x.i.toNat ≠ 0 ∧
      x.count.toNat = found (x.i.toNat - 1) ∧ x.n.toNat = gapLimit32 x.count.toNat →
      decide (x.i < x.n) = true → ∃ k' x', scanRound s w x = .ok x' ∧ k' < k ∧
        x'.i.toNat + k' = 2 ^ 32 ∧ x'.i.toNat ≠ 0 ∧ x'.count.toNat = found (x'.i.toNat - 1) ∧
          x'.n.toNat = gapLimit32 x'.count.toNat := by
    rintro k x ⟨hk, hi, hcount, hn⟩ hlt
    have hlt' : x.i.toNat < x.n.toNat := of_decide_eq_true hlt
    have hbound : x.n.toNat < 2 ^ 32 := x.n.isLt
    have hadd : (x.i + 1).toNat = x.i.toNat + 1 := by
      rw [BitVec.toNat_add]
      exact Nat.mod_eq_of_lt (show x.i.toNat + 1 < 2 ^ 32 by omega)
    -- one more index of the search
    have hfound : found x.i.toNat =
        if s.Received (account e prv x.i.toNat) then x.i.toNat else x.count.toNat := by
      obtain ⟨j, hj⟩ := Nat.exists_eq_succ_of_ne_zero hi
      rw [hj, Nat.succ_sub_one] at hcount
      rw [hn, hcount, hj] at hlt'
      rw [hcount, hj]
      change (if _ ∧ _ then _ else _) = _
      exact if_congr (and_iff_right hlt') rfl rfl
    refine ⟨k - 1, _, scanRound_eq hr h x (hmax _), by omega, ?_⟩
    split_ifs with hrec
    · rw [if_pos hrec] at hfound
      dsimp only
      rw [hadd, Nat.add_sub_cancel, hfound, toNat_limit]
      exact ⟨by omega, Nat.succ_ne_zero _, rfl, rfl⟩
    · rw [if_neg hrec] at hfound
      dsimp only
      rw [hadd, Nat.add_sub_cancel, hfound]
      exact ⟨by omega, Nat.succ_ne_zero _, rfl, hn⟩
  obtain ⟨k, x, hloop, ⟨-, hi, hcount, hn⟩, hstop⟩ : ∃ k x, whileLoop Fault.outOfFuel
      (fun x : Scan => decide (x.i < x.n)) (scanRound s w) (2 ^ 32) ⟨1, 64, 0⟩ = .ok x ∧
      (x.i.toNat + k = 2 ^ 32 ∧ x.i.toNat ≠ 0 ∧ x.count.toNat = found (x.i.toNat - 1) ∧
        x.n.toNat = gapLimit32 x.count.toNat) ∧ decide (x.i < x.n) = false :=
    whileLoop_total hstep (2 ^ 32) (2 ^ 32 - 1) _ (Nat.sub_le _ _)
      ⟨rfl, Nat.one_ne_zero, rfl, rfl⟩
  refine ⟨x, hloop, ?_⟩
  have hge : x.n.toNat ≤ x.i.toNat := not_lt.mp (of_decide_eq_false hstop)
  have hlast : x.i.toNat < 2 ^ 32 := x.i.isLt
  rw [hn, hcount] at hge
  rw [hcount]
  refine (lastFound_of_end (k := x.i.toNat - 1) ?_ (by omega)).symm
  rw [Nat.sub_add_cancel (Nat.pos_of_ne_zero hi)]
  exact hge

/-! ## The insertions -/

theorem foldlM_insert {α : Type} (l : List α) : ∀ {w : WalletStore e} (a : Uint256),
    w.Dispensing prv →
    (l.foldlM (fun (r : Uint256 × WalletStore e) _ => r.2.walletDeterministicInsert) (a, w)).map
      Prod.snd = (deterministicInserts l.length w).map Prod.snd := by
  induction l with
  | nil => exact fun _ _ => rfl
  | cons x l ih =>
    intro w a h
    rw [List.foldlM_cons, walletDeterministicInsert, if_pos h.valid, List.length_cons,
      deterministicInserts]
    cases hfresh : w.freshIndices prv with
    | nil =>
      rw [h.deterministicInsert_of_nil hfresh]
      rfl
    | cons m rest =>
      rw [h.deterministicInsert_of_cons hfresh, ok_bind, ok_bind, ih _ (h.putMarker hfresh).1]
      dsimp only
      cases deterministicInserts l.length _ with
      | error fault => rfl
      | ok r => rfl

/-- `change_seed` makes one call more than the last index it finds. -/
theorem changeSeed_eq (hr : Refines U s Λ) (hopen : w.validPassword = true)
    (hrecords : ∀ k ∈ requiredRecords, w.exists' k = true)
    (hmax : ∀ i, account e prv i ≠ BitVec.allOnes 256) :
    (w.changeSeed s prv).map Prod.snd = (deterministicInserts
      (lastFound gapLimit32 (fun i => s.Received (account e prv i)) (2 ^ 32 - 1) + 1)
      (w.seedSet prv)).map Prod.snd := by
  have h := dispensing_seedSet (s := prv) hopen hrecords
  generalize hfound : lastFound gapLimit32 (fun i => s.Received (account e prv i)) (2 ^ 32 - 1) = n
  unfold changeSeed
  dsimp only
  rw [walletDeterministicInsert, if_pos h.valid, deterministicInserts]
  cases hfresh : (w.seedSet prv).freshIndices prv with
  | nil =>
    rw [h.deterministicInsert_of_nil hfresh, error_bind, error_bind]
    rfl
  | cons m rest =>
    obtain ⟨hmarker, -⟩ := h.putMarker hfresh
    obtain ⟨x, hscan, hcount⟩ := scan_eq hr hmarker hmax
    rw [h.deterministicInsert_of_cons hfresh, ok_bind, ok_bind]
    dsimp only
    rw [hscan, ok_bind, foldlM_insert _ _ hmarker, List.length_range, hcount, hfound]
    cases deterministicInserts n _ with
    | error fault => rfl
    | ok r => rfl

/-- The last index with an account that has received something, within the gap limit. -/
def lastUsed (e : WalletEnv) (s : BlockStore) (prv : Uint256) : ℕ :=
  lastFound gapLimit (fun i => s.Received (account e prv i)) (2 ^ 32 - 1)

/-- The index that the search of `change_seed` ends with. -/
def lastScanned (e : WalletEnv) (s : BlockStore) (prv : Uint256) : ℕ :=
  lastFound gapLimit32 (fun i => s.Received (account e prv i)) (2 ^ 32 - 1)

/-- The account has received something, and the gap limit after it is no number of 32 bits. -/
def Wide (e : WalletEnv) (s : BlockStore) (prv : Uint256) (j : ℕ) : Prop :=
  s.Received (account e prv j) ∧ 2 ^ 32 ≤ gapLimit j

theorem lastUsed_lt (e : WalletEnv) (s : BlockStore) (prv : Uint256) :
    lastUsed e s prv < 2 ^ 32 := by
  have hle : lastUsed e s prv ≤ 2 ^ 32 - 1 := lastFound_le _
  omega

theorem received_lastUsed (h : lastUsed e s prv ≠ 0) :
    s.Received (account e prv (lastUsed e s prv)) :=
  @used_lastFound gapLimit (fun i => s.Received (account e prv i)) _ _ h

/-- The search ends with the first index whose limit wraps around, if there is one. -/
theorem lastScanned_spec (e : WalletEnv) (s : BlockStore) (prv : Uint256) :
    (lastScanned e s prv = lastUsed e s prv ∧ ∀ j < lastUsed e s prv, ¬ Wide e s prv j) ∨
    (lastScanned e s prv < lastUsed e s prv ∧ Wide e s prv (lastScanned e s prv) ∧
      ∀ j < lastUsed e s prv, Wide e s prv j → lastScanned e s prv ≤ j) := by
  have hwide : ∀ j, Wide e s prv j ↔
      s.Received (account e prv j) ∧ gapLimit32 j ≠ gapLimit j := fun j => by
    rw [Wide, Ne, gapLimit32_eq_iff, not_lt]
  simp only [hwide, not_and, not_not, and_imp]
  have hzero : gapLimit32 0 = gapLimit 0 := rfl
  rcases lastFound_cut (fun i => s.Received (account e prv i)) hzero gapLimit32_cut (2 ^ 32 - 1)
    with ⟨heq, hbefore⟩ | ⟨hlt, hused, hne, hfirst⟩
  · exact Or.inl ⟨heq, hbefore⟩
  · exact Or.inr ⟨hlt, ⟨hused, hne⟩, hfirst⟩

section Runs

variable (hr : Refines U s Λ) (hopen : w.validPassword = true)
  (hrecords : ∀ k ∈ requiredRecords, w.exists' k = true)
  (hmax : ∀ i, account e prv i ≠ BitVec.allOnes 256)

include hr hopen hrecords hmax

/-- If there are accounts to insert, `change_seed` returns. -/
theorem changeSeed_ok (hn : lastScanned e s prv < (w.freeIndices prv).length) :
    ∃ r, w.changeSeed s prv = .ok r ∧ ∀ a, r.2.exists' a = true ↔ w.kept a = true ∨
      a ∈ ((w.freeIndices prv).take (lastScanned e s prv + 1)).map (account e prv) := by
  have heq : _ = (deterministicInserts (lastScanned e s prv + 1) _).map _ :=
    changeSeed_eq hr hopen hrecords hmax
  have hstart := dispensing_seedSet (s := prv) hopen hrecords
  rw [← freshIndices_seedSet hrecords] at hn ⊢
  obtain ⟨w', hrun, hhanded⟩ := hstart.deterministicInserts (lastScanned e s prv + 1) hn
  rw [hrun] at heq
  cases hseed : w.changeSeed s prv with
  | error fault =>
    rw [hseed] at heq
    cases heq
  | ok r =>
    rw [hseed] at heq
    obtain rfl : r.2 = w' := Except.ok.inj heq
    refine ⟨r, rfl, fun a => ?_⟩
    rw [hhanded.exists_iff, exists_seedSet hrecords]

theorem changeSeed_not_ok (hn : (w.freeIndices prv).length ≤ lastScanned e s prv)
    (r : Uint256 × WalletStore e) : w.changeSeed s prv ≠ .ok r := by
  intro hrun
  have heq : _ = (deterministicInserts (lastScanned e s prv + 1) _).map _ :=
    changeSeed_eq hr hopen hrecords hmax
  rw [← freshIndices_seedSet hrecords] at hn
  rw [hrun, (dispensing_seedSet hopen hrecords).deterministicInserts_error _
    (Nat.lt_succ_of_le hn)] at heq
  cases heq

/-- The accounts are recovered if there are enough free ones, and not too many. -/
theorem recovers_iff : (∃ r, w.changeSeed s prv = .ok r ∧ ∀ i ≤ lastUsed e s prv,
      r.2.exists' (account e prv i) = true) ↔
    lastScanned e s prv < (w.freeIndices prv).length ∧
      ((w.freeIndices prv).filter (· ≤ lastUsed e s prv)).length ≤ lastScanned e s prv + 1 := by
  by_cases hn : lastScanned e s prv < (w.freeIndices prv).length
  · obtain ⟨r, hrun, hexists⟩ := changeSeed_ok hr hopen hrecords hmax hn
    rw [and_iff_right hn, freeIndices, ← covered_iff (lastUsed_lt e s prv), ← freeIndices]
    constructor
    · rintro ⟨r', hr', hall⟩
      obtain rfl := Except.ok.inj (hrun.symm.trans hr')
      exact fun i hi => (hexists _).mp (hall i hi)
    · exact fun hall => ⟨r, hrun, fun i hi => (hexists _).mpr (hall i hi)⟩
  · refine iff_of_false ?_ fun h => hn h.1
    rintro ⟨r, hrun, -⟩
    exact changeSeed_not_ok hr hopen hrecords hmax (not_lt.mp hn) r hrun

end Runs

end WalletStore

/-- **When `change_seed` recovers the accounts of a seed.** Let `m` be the last index within the
gap limit. It returns, with the accounts of all indices up to `m`, exactly if there are more than
`m` free indices, unless the search ends before `m`: at an index `j` whose limit is no number of
32 bits. Then more than `j` free indices will do, but at most `j + 1` of them may be up to
`m`. -/
theorem seed_recovery_iff {e : WalletEnv} {U : Set Block} {s : BlockStore}
    (hass : HashAssumptions e.toEnv U) (hs : Ledger.Reachable e.toEnv U s) {w : WalletStore e}
    (hopen : w.validPassword = true)
    (hrecords : ∀ k ∈ requiredRecords, w.exists' k = true) (prv : Uint256)
    (hmax : ∀ i, account e prv i ≠ BitVec.allOnes 256) :
    (∃ r, w.changeSeed s prv = .ok r ∧ ∀ i ≤ lastUsed e s prv,
        r.2.exists' (account e prv i) = true) ↔
      (lastUsed e s prv < (w.freeIndices prv).length ∨
        ∃ j < lastUsed e s prv, Wide e s prv j ∧ j < (w.freeIndices prv).length) ∧
      ∀ j < lastUsed e s prv, Wide e s prv j →
        ((w.freeIndices prv).filter (· ≤ lastUsed e s prv)).length ≤ j + 1 := by
  obtain ⟨Λ, hv⟩ := Ledger.Reachable.valid hass s hs
  rw [recovers_iff hv.refines hopen hrecords hmax]
  rcases lastScanned_spec e s prv with ⟨heq, hnone⟩ | ⟨hlt, hwide, hfirst⟩
  · -- The search ends with `m`, and there are at most `m + 1` numbers up to `m`.
    have hcount := w.length_freeIndices_le prv (lastUsed e s prv)
    rw [heq, and_iff_left hcount]
    constructor
    · exact fun hm => ⟨Or.inl hm, fun j hj hwide => absurd hwide (hnone j hj)⟩
    · rintro ⟨hm | ⟨j, hj, hwide, -⟩, -⟩
      · exact hm
      · exact absurd hwide (hnone j hj)
  · constructor
    · rintro ⟨hn, hlength⟩
      refine ⟨Or.inr ⟨_, hlt, hwide, hn⟩, fun j hj hwide' => ?_⟩
      exact hlength.trans (Nat.succ_le_succ (hfirst j hj hwide'))
    · rintro ⟨hm | ⟨j, hj, hwide', hn⟩, hlength⟩
      · exact ⟨hlt.trans hm, hlength _ hlt hwide⟩
      · exact ⟨(hfirst j hj hwide').trans_lt hn, hlength _ hlt hwide⟩

namespace Recovery

open Reseeded WalletStore

theorem account_ne (i : ℕ) {a : Account} (ha : 2 ^ 33 ≤ a.toNat) : account env 5 i ≠ a := by
  rintro rfl
  rw [toNat_account] at ha
  omega

theorem account_lt (i : ℕ) : (account env 5 i).toNat < 2 ^ 128 := by
  rw [toNat_account]
  omega

/-- Each block of the tower sends 1 raw to an account of the seed 5. -/
def plan (target : ℕ → ℕ) : Plan :=
  .sending (fun n => account env 5 (target n)) fun n => account_lt (target n)

variable {U : Set Block} {target : ℕ → ℕ} {s : BlockStore} {Λ : Lattice env} {n : ℕ}

theorem received (hb : Built (plan target) s Λ n) {i : ℕ} (hi : i < n) (hn : n < 2 ^ 64) :
    s.Received (account env 5 (target i)) :=
  Or.inr (hb.pending_link hi hn (Plan.sending_lt (hi.trans hn)))

theorem of_received (hb : Built (plan target) s Λ n) {i : ℕ} (hi : i < 2 ^ 32)
    (htarget : ∀ n, target n < 2 ^ 32) (h : s.Received (account env 5 i)) : ∃ n, i = target n := by
  rcases h with hchain | ⟨k, hk, heq⟩
  · exact absurd (hb.of_account hchain) (account_ne i (by decide))
  · obtain ⟨n, hn⟩ := hb.of_pending hk
    exact ⟨n, (account_inj hi (htarget n)).mp (heq.symm.trans hn)⟩

/-- The search finds an index within the limit of the one it found before. -/
theorem succ_le_lastUsed {i j : ℕ} (hj : j + 1 < 2 ^ 32)
    (hi : i ≤ lastFound gapLimit (fun i => s.Received (account env 5 i)) j)
    (hlt : j + 1 < gapLimit i) (hreceived : s.Received (account env 5 (j + 1))) :
    j + 1 ≤ lastUsed env s 5 :=
  le_lastFound (Nat.le_sub_one_of_lt hj) (hlt.trans_le (gapLimit_mono hi)) hreceived

/-- One account has received something, and it is among the first 64. -/
theorem lastUsed_eq {j : ℕ} (h0 : j ≠ 0) (hj : j < 64) (hreceived : s.Received (account env 5 j))
    (honly : ∀ i < 2 ^ 32, s.Received (account env 5 i) → i = j) : lastUsed env s 5 = j := by
  obtain ⟨j, rfl⟩ := Nat.exists_eq_succ_of_ne_zero h0
  have hle := succ_le_lastUsed (by omega) (Nat.zero_le _) hj hreceived
  exact honly _ (lastUsed_lt env s 5) (received_lastUsed (Nat.ne_of_gt (Nat.zero_lt_of_lt hle)))

/-- The search ends at an index whose limit wraps around, and a new wallet does not recover the
account after it. -/
theorem not_recovered (hr : Refines U s Λ) {j : ℕ} (hj : j + 1 < 2 ^ 32) (hwide : Wide env s 5 j)
    (hlast : j < lastUsed env s 5) (hmax : ∀ i, account env 5 i ≠ BitVec.allOnes 256) :
    ∃ r, wallet.changeSeed s 5 = .ok r ∧ r.2.exists' (account env 5 (j + 1)) = false := by
  have hscanned : lastScanned env s 5 ≤ j := by
    rcases lastScanned_spec env s 5 with ⟨-, hnone⟩ | ⟨-, -, hfirst⟩
    · exact absurd hwide (hnone j hlast)
    · exact hfirst j hlast hwide
  have hfree : lastScanned env s 5 < (wallet.freeIndices 5).length := by
    rw [freeIndices_wallet, List.length_range]
    omega
  obtain ⟨r, hrun, hexists⟩ := changeSeed_ok hr wallet_open wallet_records hmax hfree
  refine ⟨r, hrun, eq_false_of_ne_true fun h => ?_⟩
  rcases (hexists _).mp h with hkept | hmem
  · rw [kept_wallet] at hkept
    cases hkept
  · obtain ⟨i, hi, heq⟩ := List.mem_map.mp hmem
    rw [freeIndices_wallet, List.take_range, List.mem_range] at hi
    have := (account_inj (by omega) hj).mp heq
    omega

/-- Used indices that are as far from one another as the search allows. -/
def index : ℕ → ℕ
  | 0 => 63
  | n + 1 => gapLimit (index n) - 1

theorem index_lt (n : ℕ) : index n < index (n + 1) := by
  rw [index, gapLimit]
  omega

theorem index_le_lastFound (hused : ∀ i ≤ n, s.Received (account env 5 (index i))) :
    ∀ k, index n ≤ k → index n ≤ lastFound gapLimit (fun i => s.Received (account env 5 i)) k := by
  induction n with
  | zero =>
    intro k hk
    refine le_lastFound (j := 62) hk ?_ (hused 0 le_rfl)
    exact lt_of_lt_of_le (by decide) (gapLimit_mono (Nat.zero_le _))
  | succ n ih =>
    intro k hk
    have hlt := index_lt n
    obtain ⟨j, hj⟩ := Nat.exists_eq_succ_of_ne_zero (Nat.ne_zero_of_lt hlt)
    have hprev := ih (fun i hi => hused i (hi.trans (Nat.le_succ n))) j (by omega)
    have hbound : index (n + 1) < gapLimit (index n) := by
      rw [index]
      exact Nat.sub_lt (by unfold gapLimit; omega) Nat.one_pos
    have hlast := hused (n + 1) le_rfl
    rw [hj] at hk hbound hlast ⊢
    exact le_lastFound hk (hbound.trans_le (gapLimit_mono hprev)) hlast

/-- The first `n + 1` of them, and the one after the last. -/
def targets (n i : ℕ) : ℕ := if i ≤ n then index i else index n + 1

/-- **An account out of sight.** If the limit after the last of them wraps around, the account after
it is not recovered. -/
theorem distant (n : ℕ) (hn : n + 2 < 2 ^ 64) (hlt : index n + 1 < 2 ^ 32)
    (hlimit : 2 ^ 32 ≤ gapLimit (index n)) (hmax : ∀ i, account env 5 i ≠ BitVec.allOnes 256) :
    ∃ s, Ledger.Reachable env (blocks (plan (targets n))) s ∧
      (∀ i ≤ n, s.Received (account env 5 (index i))) ∧
      s.Received (account env 5 (index n + 1)) ∧ index n + 1 ≤ lastUsed env s 5 ∧
      ∃ r, wallet.changeSeed s 5 = .ok r ∧ r.2.exists' (account env 5 (index n + 1)) = false := by
  obtain ⟨s₀, Λ₀, -, h₀⟩ := first_built (plan (targets n))
  obtain ⟨s, Λ, -, hb⟩ := run_build h₀ (n + 2) hn
  have hused : ∀ i ≤ n, s.Received (account env 5 (index i)) := by
    intro i hi
    have h := received hb (i := i) (by omega) hn
    rwa [targets, if_pos hi] at h
  have hnext : s.Received (account env 5 (index n + 1)) := by
    have h := received hb (i := n + 1) (by omega) hn
    rwa [targets, if_neg (by omega)] at h
  have hlast : index n + 1 ≤ lastUsed env s 5 := by
    refine succ_le_lastUsed hlt (index_le_lastFound hused _ le_rfl) ?_ hnext
    unfold gapLimit
    omega
  exact ⟨s, hb.reachable, hused, hnext, hlast,
    not_recovered hb.valid.refines hlt ⟨hused n le_rfl, hlimit⟩ hlast hmax⟩

end Recovery

/-- The accounts of 895 indices have received something, each as far from the one before as the
search allows, and the account after the last of them as well. A new wallet does not recover this
one: the search ends before it, where its limit wraps around. -/
theorem distant_account_not_recovered : ∃ U s,
    HashAssumptions env.toEnv U ∧ Ledger.Reachable env.toEnv U s ∧ wallet.validPassword = true ∧
    (∀ k ∈ requiredRecords, wallet.exists' k = true) ∧ (∀ i, account env 5 i ≠ BitVec.allOnes 256) ∧
    (∀ n ≤ 894, s.Received (account env 5 (Recovery.index n))) ∧
    s.Received (account env 5 (Recovery.index 894 + 1)) ∧
    Recovery.index 894 + 1 ≤ lastUsed env s 5 ∧
    ∃ r, wallet.changeSeed s 5 = .ok r ∧
      r.2.exists' (account env 5 (Recovery.index 894 + 1)) = false := by
  have hmax : ∀ i, account env 5 i ≠ BitVec.allOnes 256 :=
    fun i => Recovery.account_ne i (by decide)
  obtain ⟨s, hs, h⟩ := Recovery.distant 894 (by decide) (by decide +kernel) (by decide +kernel) hmax
  exact ⟨_, s, assumptions _, hs, wallet_open, wallet_records, hmax, h⟩

/-- Only the account of the index 3 has received something. The wallet watches the account of the
index 1, so the three free accounts are inserted, and the next one. -/
theorem seed_recovery_iff_used : ∃ U s, Ledger.Reachable env.toEnv U s ∧
    s.Received (account env 5 3) ∧ lastUsed env s 5 = 3 ∧
    ∃ r, used.changeSeed s 5 = .ok r ∧
      ∀ i ≤ 3, r.2.exists' (account env 5 i) = true := by
  obtain ⟨s₀, Λ₀, -, h₀⟩ := first_built (Recovery.plan fun _ => 3)
  obtain ⟨s, Λ, -, hb⟩ := run_build h₀ 1 (by decide)
  have hreceived : s.Received (account env 5 3) :=
    Recovery.received hb (i := 0) (by decide) (by decide)
  have honly : ∀ i < 2 ^ 32, s.Received (account env 5 i) → i = 3 := by
    intro i hi h
    obtain ⟨-, heq⟩ := Recovery.of_received hb hi (fun _ => by norm_num) h
    exact heq
  have hlast := Recovery.lastUsed_eq (by decide) (by decide) hreceived honly
  have hiff := seed_recovery_iff (e := env) (assumptions _) hb.reachable
    used_open used_records 5 fun i => Recovery.account_ne i (by decide)
  obtain ⟨l, hl⟩ := freeIndices_used 5
  rw [hlast, hl] at hiff
  refine ⟨_, s, hb.reachable, hreceived, hlast, hiff.mpr ⟨Or.inl ?_, fun j hj hwide => ?_⟩⟩
  · rw [List.length_append]
    exact Nat.lt_of_lt_of_le (by decide) (Nat.le_add_right _ _)
  · have := hwide.2
    unfold gapLimit at this
    omega

end RaiBlocks
