import RaiBlocks.Wallet.Dispensing

/-!
# The accounts of a new seed

`seed_set` deletes the deterministic accounts of the old seed, in a loop that places its
iterator anew after each deletion, and starts again with the index 0. From there
`deterministic_insert` hands out the accounts of the new seed in the order of their
indices and leaves out those that have an entry already.
-/

namespace RaiBlocks

open Foundation WalletStore Reseeded

namespace WalletStore

variable {e : WalletEnv} {w w' : WalletStore e} {k s : Uint256} {row : Uint256 × WalletValue}
  {l : List (Uint256 × WalletValue)}

/-! ## The loop over the table -/

/-- The accounts are the keys of the rows from `begin ()` on. -/
theorem map_beginAt (w : WalletStore e) :
    (w.beginAt specialCount).map Prod.fst = w.accounts := by
  have hrows : ((w.beginAt specialCount).map Prod.fst).Pairwise (· < ·) :=
    List.pairwise_map.mpr ((Table.pairwise_rowsFrom w.handle specialCount).imp
      fun h => BitVec.lt_of_le_ne h.1 h.2)
  have haccounts : w.accounts.Pairwise (· < ·) := Finset.sortedLT_sort _ |>.pairwise
  refine hrows.eq_of_mem_iff haccounts fun k => ?_
  rw [mem_accounts_iff, exists', Option.isSome_iff_exists, List.mem_map]
  constructor
  · rintro ⟨row, hrow, rfl⟩
    obtain ⟨hrow, hle⟩ := Table.mem_rowsFrom.mp hrow
    exact ⟨⟨row.2, hrow⟩, hle⟩
  · rintro ⟨⟨v, hv⟩, hle⟩
    exact ⟨(k, v), Table.mem_rowsFrom.mpr ⟨hv, hle⟩, rfl⟩

/-- `l` are the rows of the table from some key on. -/
structure Ahead (w : WalletStore e) (l : List (Uint256 × WalletValue)) : Prop where
  sorted : l.Pairwise fun x y => x.1 < y.1
  mem : ∀ row ∈ l, w.handle.lookup row.1 = some row.2
  all : ∀ row ∈ l, ∀ {k v}, w.handle.lookup k = some v → row.1 ≤ k → (k, v) ∈ l

theorem ahead_beginAt (w : WalletStore e) (key : Uint256) : w.Ahead (w.beginAt key) where
  sorted := (Table.pairwise_rowsFrom w.handle key).imp fun h => BitVec.lt_of_le_ne h.1 h.2
  mem _ hrow := (Table.mem_rowsFrom.mp hrow).1
  all _ hrow _ _ hk hle :=
    Table.mem_rowsFrom.mpr ⟨hk, le_trans (Table.mem_rowsFrom.mp hrow).2 hle⟩

/-- `++i` -/
theorem Ahead.tail (h : w.Ahead (row :: l)) : w.Ahead l := by
  have hsorted := List.pairwise_cons.mp h.sorted
  refine ⟨hsorted.2, fun x hx => h.mem x (List.mem_cons_of_mem _ hx), fun x hx k v hk hle => ?_⟩
  rcases List.mem_cons.mp (h.all x (List.mem_cons_of_mem _ hx) hk hle) with heq | hmem
  · have hlt := hsorted.1 x hx
    rw [← heq] at hlt
    exact absurd hle (not_le.mpr hlt)
  · exact hmem

/-- The iterator that is placed at a deleted key stands at the next row. -/
theorem Ahead.beginAt_delete (h : w.Ahead (row :: l)) : (w.delete row.1).beginAt row.1 = l := by
  have hsorted := List.pairwise_cons.mp h.sorted
  refine (ahead_beginAt (w.delete row.1) row.1).sorted.eq_of_mem_iff hsorted.2 ?_
  rintro ⟨k, v⟩
  rw [beginAt, Table.mem_rowsFrom, lookup_delete]
  constructor
  · rintro ⟨hk, hle⟩
    split_ifs at hk with heq
    rcases List.mem_cons.mp (h.all row List.mem_cons_self hk hle) with hrow | hmem
    · exact absurd (congrArg Prod.fst hrow) heq
    · exact hmem
  · intro hmem
    have hlt : row.1 < k := hsorted.1 (k, v) hmem
    exact ⟨(if_neg hlt.ne').trans (h.mem (k, v) (List.mem_cons_of_mem _ hmem)), hlt.le⟩

theorem clearRow_loop (l : List (Uint256 × WalletValue)) : ∀ w : WalletStore e, w.Ahead l →
    whileLoop Fault.outOfFuel (fun x => !x.2.isEmpty) clearRow l.length (w, l) =
      .ok ((l.map Prod.fst).foldl clearKey w, []) := by
  induction l with
  | nil => exact fun w _ => rfl
  | cons row l ih =>
    intro w h
    have hrow := h.mem row List.mem_cons_self
    have hentry : w.entryGetRaw row.1 = row.2 := by rw [entryGetRaw, hrow]; rfl
    rw [List.map_cons, List.foldl_cons, clearKey, hentry]
    by_cases htype : keyType row.2 = .deterministic
    · rw [if_pos htype, List.length_cons, whileLoop_step (t := (w.delete row.1, l)) rfl ?_]
      · have hnext := ahead_beginAt (w.delete row.1) row.1
        rw [h.beginAt_delete] at hnext
        exact ih _ hnext
      · have herase : w.erase row.1 = .ok (w.delete row.1) := by
          rw [erase, exists', hrow]
          rfl
        unfold clearRow
        dsimp only
        rw [htype]
        dsimp only
        rw [herase, ok_bind, h.beginAt_delete]
        rfl
    · rw [if_neg htype, List.length_cons, whileLoop_step (t := (w, l)) rfl ?_]
      · exact ih w h.tail
      · unfold clearRow
        dsimp only
        cases ht : keyType row.2 with
        | deterministic => exact absurd ht htype
        | notAType => rfl
        | unknown => rfl
        | adhoc => rfl

/-- **The loop of `deterministic_clear` deletes what it should**, though it deletes from
the table it goes through. -/
theorem deterministicClearLoop_eq (w : WalletStore e) :
    w.deterministicClearLoop = .ok w.deterministicClear := by
  unfold deterministicClearLoop
  dsimp only
  rw [clearRow_loop _ w (ahead_beginAt w specialCount), ok_bind, map_beginAt]
  rfl

end WalletStore

/-- **A new seed replaces the deterministic accounts and no others.** The iterator of the
loop that deletes them is placed anew each time, but the loop ends. Afterwards the other
accounts have the entries they had, no deterministic entry is left and the index is 0. The
next `n` calls of `deterministic_insert` return the accounts of the first `n` indices whose
accounts have no entry, in this order, and `fetch` finds their keys. -/
theorem reseed_replaces_deterministic {e : WalletEnv} {w : WalletStore e}
    (hopen : w.validPassword = true)
    (hrecords : ∀ k ∈ requiredRecords, w.exists' k = true) (s : Uint256)
    (hdistinct : Function.Injective fun index => e.publicKey (deterministicKey e.toEnv s index)) :
    (w.encryptPut seedSpecial ⟨w.walletKey, oword w.salt, s⟩).deterministicClearLoop =
      .ok (w.seedSet s) ∧
    (∀ a, specialCount ≤ a → keyType (w.entryGetRaw a) ≠ .deterministic →
      (w.seedSet s).handle.lookup a = w.handle.lookup a) ∧
    (∀ a, specialCount ≤ a → keyType ((w.seedSet s).entryGetRaw a) ≠ .deterministic) ∧
    (w.seedSet s).deterministicIndexGet = 0 ∧
    let free := (List.range (2 ^ 32)).filter fun i =>
      !(w.seedSet s).exists' (account e s i)
    ∀ n ≤ free.length, ∃ w', deterministicInserts n (w.seedSet s) =
        .ok ((free.take n).map (account e s), w') ∧
      ∀ i ∈ free.take n, w'.fetch (account e s i) =
        some (deterministicKey e.toEnv s (BitVec.ofNat 32 i)) := by
  refine ⟨deterministicClearLoop_eq _, fun a ha htype => ?_, fun a ha => ?_,
    deterministicIndexGet_seedSet, ?_⟩
  · rw [lookup_seedSet ha, if_neg htype]
  · rw [entryGetRaw, lookup_seedSet ha]
    split_ifs with htype
    · decide
    · exact htype
  · intro free n hn
    have hinj : Set.InjOn (account e s) (Set.Iio (2 ^ 32)) := by
      intro i hi j hj heq
      have hnat := congrArg BitVec.toNat (hdistinct heq)
      rwa [BitVec.toNat_ofNat, BitVec.toNat_ofNat, Nat.mod_eq_of_lt hi, Nat.mod_eq_of_lt hj] at hnat
    have hfree : (w.seedSet s).freshIndices s = free := freshNumbers_of_injOn hinj
    have hstart := dispensing_seedSet (s := s) hopen hrecords
    obtain ⟨w', hrun, hhanded⟩ := hstart.deterministicInserts n (hfree ▸ hn)
    rw [hfree] at hrun hhanded
    refine ⟨w', hrun, fun i hi => ?_⟩
    rw [fetch_eq_opened hhanded.dispensing.valid]
    exact hhanded.opened i hi

/-- A wallet with an account of another seed that watches the account of the index 1. The former
is deleted, the latter stays, and the next three accounts are those of the indices 0, 2 and 3. -/
theorem reseed_replaces_deterministic_used : ∃ w',
    (used.seedSet 5).exists' (account env 5 1) = true ∧
    deterministicInserts 3 (used.seedSet 5) = .ok ([0, 2, 3].map (account env 5), w') ∧
    ∀ i ∈ [0, 2, 3], w'.fetch (account env 5 i) =
      some (deterministicKey env.toEnv 5 (BitVec.ofNat 32 i)) := by
  obtain ⟨-, -, -, -, hinserts⟩ := reseed_replaces_deterministic used_open
    used_records 5 (injective 5)
  have hexists : (used.seedSet 5).exists' (account env 5 1) = true := by
    rw [exists_seedSet used_records, kept_used (by norm_num)]
    rfl
  obtain ⟨l, hl⟩ := freeIndices_used 5
  rw [exists_seedSet used_records, ← freeIndices_eq, hl] at hinserts
  obtain ⟨w', hrun, hfetch⟩ := hinserts 3 (by simp)
  exact ⟨w', hexists, hrun, hfetch⟩

end RaiBlocks
