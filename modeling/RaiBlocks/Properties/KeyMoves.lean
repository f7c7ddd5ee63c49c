import RaiBlocks.Wallet.Entries

/-!
# Moving keys between wallets

`move` takes each listed key out of one wallet and puts it into another, until it meets one
that cannot be fetched. The key is inserted first and erased afterwards. If both wallets are
the same, it is erased from the wallet it was just inserted into. And an entry that the
wallet had for the account is overwritten.
-/

namespace RaiBlocks

open Foundation WalletStore WalletSample

namespace WalletStore

variable {e : WalletEnv} {w w' : WalletStore e} {k a : Uint256}

/-! ## One entry -/

/-- `fetch` reads the entry of the account and the records. -/
theorem fetch_of_lookup (hk : specialCount ≤ k)
    (hlookup : ∀ a, a ≠ k → w'.handle.lookup a = w.handle.lookup a)
    (hpassword : w'.password = w.password) (hmem : w'.walletKeyMem = w.walletKeyMem)
    (ha : a ≠ k) : w'.fetch a = w.fetch a := by
  have hb : Beside k w w' := ⟨hk, fun a ha _ => hlookup a ha⟩
  have hvalid := hb.validPassword hpassword hmem
  by_cases hv : w.validPassword = true
  · rw [fetch_eq_opened hv, fetch_eq_opened (hvalid.trans hv)]
    exact opened_congr (entryGetRaw_congr (hlookup a ha)) hb.check fun _ => hb.clearSeed
  · rw [fetch, fetch, if_neg hv, if_neg (hvalid ▸ hv)]

theorem exists_of_fetch {prv : Uint256} (h : w.fetch k = some prv) : w.exists' k = true := by
  by_cases hv : w.validPassword = true
  · rw [fetch_eq_opened hv] at h
    exact exists_of_opened h
  · rw [fetch, if_neg hv] at h
    cases h

theorem insertAdhoc_eq (hv : w.validPassword = true) (prv : Uint256) : w.insertAdhoc prv =
    .ok (e.publicKey prv, w.encryptPut (e.publicKey prv) ⟨w.walletKey, oword w.salt, prv⟩) := by
  rw [insertAdhoc, hv]
  rfl

theorem fetch_encryptPut {prv : Uint256} (hv : w.validPassword = true)
    (hlarge : 2 ^ 64 ≤ (e.encrypt prv w.walletKey (oword w.salt)).toNat)
    (hk : specialCount ≤ e.publicKey prv) :
    (w.encryptPut (e.publicKey prv) ⟨w.walletKey, oword w.salt, prv⟩).fetch a =
      if a = e.publicKey prv then some prv else w.fetch a := by
  have hvalid : (w.encryptPut (e.publicKey prv)
      ⟨w.walletKey, oword w.salt, prv⟩).validPassword = true :=
    ((beside_encryptPut hk _).validPassword rfl rfl).trans hv
  split_ifs with ha
  · rw [WalletEnv.encrypt, keystream_eq_check hv] at hlarge
    rw [ha, fetch_eq_opened hvalid]
    exact opened_encryptPut (keystream_eq_check hv) hk hlarge
  · exact fetch_of_lookup hk (fun a ha => by rw [lookup_encryptPut, if_neg ha]) rfl rfl ha

theorem fetch_delete (hk : specialCount ≤ k) :
    (w.delete k).fetch a = if a = k then none else w.fetch a := by
  split_ifs with ha
  · rw [ha]
    cases hfetch : (w.delete k).fetch k with
    | none => rfl
    | some prv =>
      have hexists := exists_of_fetch hfetch
      rw [exists', lookup_delete, if_pos rfl] at hexists
      cases hexists
  · exact fetch_of_lookup hk (fun a ha => by rw [lookup_delete, if_neg ha]) rfl rfl ha

end WalletStore

/-! ## The loop -/

namespace KeyMoves

/-- The keys that are moved: up to the first that is not there, or not there any more. -/
def moved (there : Uint256 → Bool) : List Uint256 → List Uint256
  | [] => []
  | k :: keys => if there k then k :: moved (fun x => there x && x ≠ k) keys else []

theorem there_of_mem_moved {there : Uint256 → Bool} {keys : List Uint256} {k : Uint256}
    (h : k ∈ moved there keys) : there k = true := by
  induction keys generalizing there with
  | nil => cases h
  | cons x keys ih =>
    rw [moved] at h
    split_ifs at h with hx
    · rcases List.mem_cons.mp h with rfl | h
      · exact hx
      · exact (Bool.and_eq_true_iff.mp (ih h)).1
    · cases h

variable {e : WalletEnv} {ι : Type} [DecidableEq ι] {stores : ι → WalletStore e} {this other : ι}
  {k prv : Uint256}

/-- Can the key be fetched from the store? -/
def there (w : WalletStore e) (k : Uint256) : Bool := (w.fetch k).isSome

/-- Both stores are unlocked, and the keys of the list are encrypted to large numbers when
they are moved. -/
structure Ready (stores : ι → WalletStore e) (this other : ι) (keys : List Uint256) : Prop where
  this_valid : (stores this).validPassword = true
  other_valid : (stores other).validPassword = true
  large : ∀ k ∈ keys, ∀ prv, (stores other).fetch k = some prv →
    2 ^ 64 ≤ (e.encrypt prv (stores this).walletKey (oword (stores this).salt)).toNat

/-- The stores after one key was moved. -/
def moveOne (stores : ι → WalletStore e) (this other : ι) (k prv : Uint256) : ι → WalletStore e :=
  let inserted := Function.update stores this ((stores this).encryptPut k
    ⟨(stores this).walletKey, oword (stores this).salt, prv⟩)
  Function.update inserted other ((inserted other).delete k)

theorem moveOne_this (hne : this ≠ other) : moveOne stores this other k prv this =
    (stores this).encryptPut k ⟨(stores this).walletKey, oword (stores this).salt, prv⟩ := by
  rw [moveOne, Function.update_of_ne hne, Function.update_self]

theorem moveOne_other (hne : this ≠ other) : moveOne stores this other k prv other =
    (stores other).delete k := by
  rw [moveOne, Function.update_self, Function.update_of_ne hne.symm]

theorem moveOne_same : moveOne stores this this k prv this = ((stores this).encryptPut k
    ⟨(stores this).walletKey, oword (stores this).salt, prv⟩).delete k := by
  rw [moveOne, Function.update_self, Function.update_self]

theorem moveKey_eq (hthis : (stores this).validPassword = true)
    (hfetch : (stores other).fetch k = some prv) :
    moveKey this other (false, stores) k =
      .ok (false, moveOne stores this other k prv) := by
  have hpub := publicKey_of_fetch hfetch
  have herase : ∀ {w : WalletStore e}, w.exists' k = true → w.erase k = .ok (w.delete k) := by
    intro w hexists
    rw [erase, hexists]
    rfl
  unfold moveKey
  dsimp only
  rw [hfetch]
  dsimp only
  rw [if_neg Bool.false_ne_true, insertAdhoc_eq hthis, ok_bind, hpub]
  dsimp only
  rw [herase, ok_bind]
  · rfl
  · -- The entry is there, also if it was written just now.
    rw [Function.update_apply]
    split_ifs
    · rw [exists', lookup_encryptPut, if_pos rfl]
      rfl
    · exact exists_of_fetch hfetch

section Step

variable (hk : specialCount ≤ k)
include hk

/-- Nothing but the entry of the key changes, in either store. -/
theorem beside_moveOne (i : ι) : (stores i).Beside k (moveOne stores this other k prv i) ∧
    (moveOne stores this other k prv i).password = (stores i).password ∧
    (moveOne stores this other k prv i).walletKeyMem = (stores i).walletKeyMem := by
  have hput : ∀ i, (stores i).Beside k (Function.update stores this ((stores this).encryptPut k
      ⟨(stores this).walletKey, oword (stores this).salt, prv⟩) i) ∧
      (Function.update stores this ((stores this).encryptPut k ⟨(stores this).walletKey,
        oword (stores this).salt, prv⟩) i).password = (stores i).password ∧
      (Function.update stores this ((stores this).encryptPut k ⟨(stores this).walletKey,
        oword (stores this).salt, prv⟩) i).walletKeyMem = (stores i).walletKeyMem := by
    intro i
    by_cases hi : i = this
    · subst hi
      rw [Function.update_self]
      exact ⟨beside_encryptPut hk _, rfl, rfl⟩
    · rw [Function.update_of_ne hi]
      exact ⟨⟨hk, fun _ _ _ => rfl⟩, rfl, rfl⟩
  unfold moveOne
  by_cases hi : i = other
  · subst hi
    obtain ⟨hb, hpassword, hmem⟩ := hput i
    rw [Function.update_self]
    exact ⟨⟨hk, fun x hx hxi => ((beside_delete hk).lookup x hx hxi).trans
      (hb.lookup x hx hxi)⟩, hpassword, hmem⟩
  · rw [Function.update_of_ne hi]
    exact hput i

theorem validPassword_moveOne (i : ι) :
    (moveOne stores this other k prv i).validPassword = (stores i).validPassword := by
  obtain ⟨hb, hpassword, hmem⟩ : (stores i).Beside k (moveOne stores this other k prv i) ∧ _ :=
    beside_moveOne hk i
  exact hb.validPassword hpassword hmem

variable (hthis : (stores this).validPassword = true) (hfetch : (stores other).fetch k = some prv)
  (hlarge : 2 ^ 64 ≤ (e.encrypt prv (stores this).walletKey (oword (stores this).salt)).toNat)
include hthis hfetch hlarge

theorem fetch_moveOne_other (a : Uint256) : (moveOne stores this other k prv other).fetch a =
    if a = k then none else (stores other).fetch a := by
  obtain rfl := publicKey_of_fetch hfetch
  by_cases hne : this = other
  · subst hne
    rw [moveOne_same, fetch_delete hk, fetch_encryptPut hthis hlarge hk]
    split_ifs
    · rfl
    · rfl
  · rw [moveOne_other hne, fetch_delete hk]

/-- The key is in the first store, unless the two are the same. -/
theorem fetch_moveOne_this (a : Uint256) : (moveOne stores this other k prv this).fetch a =
    if a = k then (if this = other then none else some prv) else (stores this).fetch a := by
  obtain rfl := publicKey_of_fetch hfetch
  by_cases hne : this = other
  · subst hne
    rw [fetch_moveOne_other hk hthis hfetch hlarge, if_pos rfl]
  · rw [moveOne_this hne, fetch_encryptPut hthis hlarge hk, if_neg hne]

end Step

theorem foldlM_moveKey_error (keys : List Uint256) :
    keys.foldlM (moveKey this other) (true, stores) = .ok (true, stores) := by
  induction keys with
  | nil => rfl
  | cons k keys ih =>
    have hkey : moveKey this other (true, stores) k = .ok (true, stores) := by
      unfold moveKey
      dsimp only
      cases (stores other).fetch k with
      | none => rfl
      | some prv => rfl
    rw [List.foldlM_cons, hkey]
    exact ih

theorem Ready.moveOne {keys : List Uint256} (h : Ready stores this other (k :: keys))
    (hk : specialCount ≤ k) (hfetch : (stores other).fetch k = some prv) :
    Ready (KeyMoves.moveOne stores this other k prv) this other keys := by
  have hlarge := h.large k List.mem_cons_self prv hfetch
  obtain ⟨hb, hpassword, hmem⟩ :
      (stores this).Beside k (KeyMoves.moveOne stores this other k prv this) ∧ _ :=
    beside_moveOne hk this
  refine ⟨(validPassword_moveOne hk this).trans h.this_valid,
    (validPassword_moveOne hk other).trans h.other_valid, fun x hx p hp => ?_⟩
  rw [fetch_moveOne_other hk h.this_valid hfetch hlarge] at hp
  split_ifs at hp
  rw [hb.walletKey hpassword hmem, hb.salt]
  exact h.large x (List.mem_cons_of_mem _ hx) p hp

/-- **What the loop does**: it reports an error if not all keys are moved. -/
theorem foldlM_moveKey (keys : List Uint256) : ∀ {stores : ι → WalletStore e},
    Ready stores this other keys →
    (∀ k ∈ moved (there (stores other)) keys, specialCount ≤ k) → ∃ stores',
      keys.foldlM (moveKey this other) (false, stores) =
        .ok (decide (moved (there (stores other)) keys ≠ keys), stores') ∧
      (∀ a, (stores' this).fetch a = if a ∈ moved (there (stores other)) keys then
        (if this = other then none else (stores other).fetch a) else (stores this).fetch a) ∧
      ∀ a, (stores' other).fetch a =
        if a ∈ moved (there (stores other)) keys then none else (stores other).fetch a := by
  induction keys with
  | nil =>
    intro stores _ _
    exact ⟨stores, rfl, fun a => (if_neg List.not_mem_nil).symm,
      fun a => (if_neg List.not_mem_nil).symm⟩
  | cons k keys ih =>
    intro stores h hordinary
    cases hfetch : (stores other).fetch k with
    | none =>
      have hmoved : moved (there (stores other)) (k :: keys) = [] := by
        rw [moved, there, hfetch]
        rfl
      have hkey : moveKey this other (false, stores) k = .ok (true, stores) := by
        unfold moveKey
        dsimp only
        rw [hfetch]
      rw [hmoved]
      refine ⟨stores, ?_, fun a => (if_neg List.not_mem_nil).symm,
        fun a => (if_neg List.not_mem_nil).symm⟩
      rw [List.foldlM_cons, hkey, ok_bind, foldlM_moveKey_error,
        decide_eq_true (List.cons_ne_nil k keys).symm]
    | some prv =>
      have hmoved : moved (there (stores other)) (k :: keys) =
          k :: moved (fun x => there (stores other) x && x ≠ k) keys := by
        rw [moved, if_pos (by rw [there, hfetch]; rfl)]
      rw [hmoved, List.forall_mem_cons] at hordinary
      obtain ⟨hk, hordinary⟩ := hordinary
      have hlarge := h.large k List.mem_cons_self prv hfetch
      have hother := fetch_moveOne_other hk h.this_valid hfetch hlarge
      have hthis := fetch_moveOne_this hk h.this_valid hfetch hlarge
      have hthere : there (moveOne stores this other k prv other) =
          fun x => there (stores other) x && x ≠ k := by
        funext x
        rw [there, hother, there]
        by_cases hx : x = k
        · simp [hx]
        · simp [hx]
      obtain ⟨stores', hrun, hfinal, hfinal'⟩ :=
        ih (h.moveOne hk hfetch) (by rw [hthere]; exact hordinary)
      rw [hthere] at hrun hfinal hfinal'
      have hgone : k ∉ moved (fun x => there (stores other) x && x ≠ k) keys := by
        intro hmem
        simpa using there_of_mem_moved hmem
      refine ⟨stores', ?_, fun a => ?_, fun a => ?_⟩
      · rw [List.foldlM_cons, moveKey_eq h.this_valid hfetch, ok_bind, hrun, hmoved]
        simp
      · rw [hfinal, hthis, hother, hmoved]
        by_cases ha : a = k
        · rw [ha, if_neg hgone, if_pos rfl, if_pos List.mem_cons_self, hfetch]
        · rw [if_neg ha, if_neg ha]
          exact if_congr (by rw [List.mem_cons, or_iff_right ha]) rfl rfl
      · rw [hfinal', hother, hmoved]
        by_cases ha : a = k
        · rw [ha, if_neg hgone, if_pos rfl, if_pos List.mem_cons_self]
        · rw [if_neg ha]
          exact if_congr (by rw [List.mem_cons, or_iff_right ha]) rfl rfl

/-- Every private key that was in one of the stores is in one of them afterwards, for the
same account; and without an error the first one has all keys of the list. -/
def Keeps (stores stores' : ι → WalletStore e) (this other : ι) (keys : List Uint256)
    (error : Bool) : Prop :=
  (∀ a prv, (stores this).fetch a = some prv ∨ (stores other).fetch a = some prv →
    (stores' this).fetch a = some prv ∨ (stores' other).fetch a = some prv) ∧
  (error = false → ∀ k ∈ keys, ((stores' this).fetch k).isSome = true)

end KeyMoves

/-- **When moving keys loses none.** For any two unlocked wallets, the same or not, and any
list of keys of which those that are moved are no records: `move` returns, loses no key and,
without an error, leaves all listed keys in the wallet, exactly if for every key that is moved
the wallets are different and the first one has no other private key for the account. -/
theorem move_keeps_keys_iff {e : WalletEnv} {ι : Type} [DecidableEq ι] {stores : ι → WalletStore e}
    {this other : ι} {keys : List Uint256} (hready : KeyMoves.Ready stores this other keys)
    (hordinary : ∀ k ∈ KeyMoves.moved (KeyMoves.there (stores other)) keys, specialCount ≤ k) :
    (∃ error stores', move stores this other keys = .ok (error, stores') ∧
      KeyMoves.Keeps stores stores' this other keys error) ↔
    ∀ k ∈ KeyMoves.moved (KeyMoves.there (stores other)) keys, this ≠ other ∧
      ((stores this).fetch k = none ∨ (stores this).fetch k = (stores other).fetch k) := by
  obtain ⟨stores', hrun, hthis, hother⟩ := KeyMoves.foldlM_moveKey keys hready hordinary
  have hmove : move stores this other keys = .ok
      (decide (KeyMoves.moved (KeyMoves.there (stores other)) keys ≠ keys), stores') := by
    rw [move, hready.this_valid, hready.other_valid]
    exact hrun
  constructor
  · rintro ⟨error, final, hfinal, hkeeps, -⟩ k hmem
    rw [hmove] at hfinal
    obtain ⟨-, rfl⟩ := Prod.mk.inj (Except.ok.inj hfinal)
    -- A moved key is found in the first wallet only, and if it is another one.
    have hafter : ∀ p, (stores' this).fetch k = some p ∨ (stores' other).fetch k = some p →
        this ≠ other ∧ (stores other).fetch k = some p := by
      intro p hp
      rw [hthis, hother, if_pos hmem, if_pos hmem, or_iff_left (Option.some_ne_none p).symm] at hp
      split_ifs at hp with hsame
      exact ⟨hsame, hp⟩
    obtain ⟨prv, hprv⟩ := Option.isSome_iff_exists.mp (KeyMoves.there_of_mem_moved hmem)
    refine ⟨(hafter prv (hkeeps k prv (Or.inr hprv))).1, ?_⟩
    cases hold : (stores this).fetch k with
    | none => exact Or.inl rfl
    | some p => exact Or.inr (hafter p (hkeeps k p (Or.inl hold))).2.symm
  · intro hmoved
    refine ⟨_, stores', hmove, fun a prv hbefore => ?_, fun herror k hk => ?_⟩
    · rw [hthis, hother]
      by_cases hmem : a ∈ KeyMoves.moved (KeyMoves.there (stores other)) keys
      · obtain ⟨hne, hsame⟩ := hmoved a hmem
        rw [if_pos hmem, if_neg hne]
        rcases hbefore with hbefore | hbefore
        · rcases hsame with hnone | hsame
          · rw [hnone] at hbefore
            cases hbefore
          · exact Or.inl (hsame ▸ hbefore)
        · exact Or.inl hbefore
      · rw [if_neg hmem, if_neg hmem]
        exact hbefore
    · -- All keys of the list were moved.
      rw [← not_not.mp (of_decide_eq_false herror)] at hk
      rw [hthis, if_pos hk, if_neg (hmoved k hk).1]
      exact KeyMoves.there_of_mem_moved hk

namespace KeyMoves

open WalletSample

theorem wallet_spec :
    wallet.fetch (env.publicKey prv) = none ∧ specialCount ≤ env.publicKey prv := by
  decide +kernel

/-- Two wallets, of which the first has the key. -/
def pair (first : Bool) : WalletStore env := if first then keyed else wallet

theorem ready (this : Bool) : Ready pair this true [env.publicKey prv] := by
  obtain ⟨hvalid, hfetch, hlarge⟩ := keyed_open
  refine ⟨?_, hvalid, fun k hk p hp => ?_⟩
  · cases this with
    | false => exact wallet_open.1
    | true => exact hvalid
  · rw [List.mem_singleton.mp hk] at hp
    obtain rfl : prv = p := Option.some.inj (hfetch.symm.trans hp)
    cases this with
    | false => exact wallet_open.2
    | true => exact hlarge

theorem moved_key : moved (there (pair true)) [env.publicKey prv] = [env.publicKey prv] := by
  have hthere : there (pair true) (env.publicKey prv) = true :=
    congrArg Option.isSome keyed_open.2.1
  rw [moved, if_pos hthere, moved]

theorem moved_ordinary :
    ∀ k ∈ moved (there (pair true)) [env.publicKey prv], specialCount ≤ k := by
  rw [moved_key]
  exact List.forall_mem_singleton.mpr wallet_spec.2

end KeyMoves

/-- A key that is moved within one wallet is lost, and no error is reported. -/
theorem key_lost_in_move : KeyMoves.Ready KeyMoves.pair true true
      [env.publicKey prv] ∧ (KeyMoves.pair true).fetch (env.publicKey prv) = some prv ∧
    ∃ stores', move KeyMoves.pair true true
        [env.publicKey prv] = .ok (false, stores') ∧
      (stores' true).fetch (env.publicKey prv) = none := by
  obtain ⟨stores', hrun, hthis, -⟩ := KeyMoves.foldlM_moveKey _ (KeyMoves.ready true)
    KeyMoves.moved_ordinary
  rw [KeyMoves.moved_key, decide_eq_false (not_not.mpr rfl)] at hrun
  refine ⟨KeyMoves.ready true, keyed_open.2.1, stores', ?_, ?_⟩
  · rw [move, (KeyMoves.ready true).this_valid]
    exact hrun
  · rw [hthis, KeyMoves.moved_key, if_pos List.mem_cons_self, if_pos rfl]

/-- Moved from one wallet to another, it is kept. -/
theorem move_keeps_keys_iff_pair :
    ∃ error stores', move KeyMoves.pair false true
        [env.publicKey prv] = .ok (error, stores') ∧
      KeyMoves.Keeps KeyMoves.pair stores' false true
        [env.publicKey prv] error := by
  refine (move_keeps_keys_iff (KeyMoves.ready false) KeyMoves.moved_ordinary).mpr
    fun k hk => ⟨Bool.false_ne_true, ?_⟩
  rw [KeyMoves.moved_key] at hk
  rw [List.mem_singleton.mp hk]
  exact Or.inl KeyMoves.wallet_spec.1

end RaiBlocks
