import RaiBlocks.Lib.Numerals
import RaiBlocks.Wallet.Entries
import RaiBlocks.Wallet.Import

/-!
# Reading a wallet from a text

The constructor decodes one entry after the other and notes in a flag whether the entry
was in order. The flag is assigned and not added to, so that it is about the last entry
when the loop is over. For some texts the library throws what `decode_hex` does not catch, and
then nothing is reported.
-/

namespace RaiBlocks

open Foundation Uint256

variable {e : WalletEnv}

namespace WalletStore

variable {tree : PropertyTree} {entry : String × String} {k : Uint256} {r : Bool × WalletStore e}
  {l : List (String × String)} {password walletKeyMem : Fan}

/-! ## The loop -/

/-- The entry is decoded and written under the key `k`. -/
def Imported (tree : PropertyTree) (entry : String × String) (k : Uint256) : Prop :=
  decodeHex entry.1 = .ok (some k) ∧ ∃ value, decodeHex (tree.get entry.1) = .ok (some value)

/-- Decoding the entry ends with an exception that is not caught. -/
def Throws (tree : PropertyTree) (entry : String × String) : Prop :=
  ∃ raised, decodeHex entry.1 = .error raised ∨
    (∃ k, decodeHex entry.1 = .ok (some k)) ∧ decodeHex (tree.get entry.1) = .error raised

/-- What one entry does: it is written, or the flag is set, or the constructor is left. -/
theorem importEntry_cases (tree : PropertyTree) (r : Bool × WalletStore e)
    (entry : String × String) :
    (∃ k value, Imported tree entry k ∧ ¬ Throws tree entry ∧
      importEntry tree r entry = .ok (false, r.2.entryPutRaw k ⟨value, 0⟩)) ∨
    ((∀ k, ¬ Imported tree entry k) ∧ ¬ Throws tree entry ∧
      importEntry tree r entry = .ok (true, r.2)) ∨
    Throws tree entry ∧ ∃ raised, importEntry tree r entry = .error raised := by
  unfold importEntry Imported Throws
  rcases hkey : decodeHex entry.1 with raised | (_ | k)
  · exact Or.inr (Or.inr ⟨⟨raised, Or.inl rfl⟩, raised, rfl⟩)
  · exact Or.inr (Or.inl ⟨by simp, by simp, rfl⟩)
  · rcases hvalue : decodeHex (tree.get entry.1) with raised | (_ | value)
    · exact Or.inr (Or.inr ⟨⟨raised, Or.inr ⟨⟨k, rfl⟩, rfl⟩⟩, raised, rfl⟩)
    · exact Or.inr (Or.inl ⟨by simp, by simp, rfl⟩)
    · exact Or.inl ⟨k, value, ⟨rfl, value, rfl⟩, by simp, rfl⟩

theorem import_isOk (l : List (String × String)) (r : Bool × WalletStore e) :
    (∃ r', l.foldlM (importEntry tree) r = .ok r') ↔ ∀ entry ∈ l, ¬ Throws tree entry := by
  induction l generalizing r with
  | nil => exact iff_of_true ⟨r, rfl⟩ (by simp)
  | cons entry l ih =>
    rw [List.foldlM_cons, List.forall_mem_cons]
    rcases importEntry_cases tree r entry with
      ⟨k, value, -, hno, heq⟩ | ⟨-, hno, heq⟩ | ⟨hthrows, raised, heq⟩
    · rw [heq, ok_bind, ih, and_iff_right hno]
    · rw [heq, ok_bind, ih, and_iff_right hno]
    · rw [heq, error_bind]
      exact iff_of_false (by simp) fun h => h.1 hthrows

theorem import_flag {w : WalletStore e} (h : l.foldlM (importEntry tree) (false, w) = .ok r) :
    r.1 = true ↔ ∃ entry ∈ l.getLast?, ∀ k, ¬ Imported tree entry k := by
  rcases List.eq_nil_or_concat l with rfl | ⟨l, entry, rfl⟩
  · obtain rfl := Except.ok.inj h
    simp
  · rw [List.concat_eq_append, List.foldlM_append] at h
    obtain ⟨r₁, -, hlast⟩ := bind_eq_ok h
    rw [List.concat_eq_append, List.getLast?_concat]
    simp only [Option.mem_def, Option.some.injEq, exists_eq_left']
    rcases importEntry_cases tree r₁ entry with
      ⟨k, value, himported, -, heq⟩ | ⟨hnone, -, heq⟩ | ⟨-, raised, heq⟩
    · rw [List.foldlM_cons, heq, ok_bind] at hlast
      obtain rfl := Except.ok.inj hlast
      exact iff_of_false Bool.false_ne_true fun h => h k himported
    · rw [List.foldlM_cons, heq, ok_bind] at hlast
      obtain rfl := Except.ok.inj hlast
      exact iff_of_true rfl hnone
    · rw [List.foldlM_cons, heq] at hlast
      cases hlast

/-- The table has the keys of the entries that are in order. -/
theorem import_exists {r' : Bool × WalletStore e} (h : l.foldlM (importEntry tree) r = .ok r')
    (k : Uint256) :
    r'.2.exists' k = true ↔ r.2.exists' k = true ∨ ∃ entry ∈ l, Imported tree entry k := by
  induction l generalizing r with
  | nil =>
    obtain rfl := Except.ok.inj h
    simp
  | cons entry l ih =>
    rw [List.foldlM_cons] at h
    obtain ⟨r₁, hentry, hrest⟩ := bind_eq_ok h
    rw [ih hrest, List.exists_mem_cons_iff, ← or_assoc]
    refine or_congr_left ?_
    rcases importEntry_cases tree r entry with
      ⟨k', value, himported, -, heq⟩ | ⟨hnone, -, heq⟩ | ⟨-, raised, heq⟩
    · obtain rfl := Except.ok.inj (heq.symm.trans hentry)
      unfold exists'
      rw [lookup_entryPutRaw]
      by_cases hk : k = k'
      · rw [if_pos hk]
        exact iff_of_true rfl (Or.inr (hk ▸ himported))
      · rw [if_neg hk]
        refine (or_iff_left fun h => hk ?_).symm
        exact Option.some.inj (Except.ok.inj (h.1.symm.trans himported.1))
    · obtain rfl := Except.ok.inj (heq.symm.trans hentry)
      exact (or_iff_left (hnone k)).symm
    · cases heq.symm.trans hentry

theorem finishImport_flag
    (h : tree.foldlM (importEntry tree) (false, .blank password walletKeyMem) = .ok r) :
    (finishImport r).1 = true ↔
      (∃ entry ∈ tree.getLast?, ∀ k, ¬ Imported tree entry k) ∨
        ∃ k ∈ requiredRecords, ∀ entry ∈ tree, ¬ Imported tree entry k := by
  change (r.1 || requiredRecords.any fun k => !r.2.exists' k) = true ↔ _
  rw [Bool.or_eq_true, import_flag h, List.any_eq_true]
  refine or_congr_right (exists_congr fun k => and_congr_right fun _ => ?_)
  have hblank : (blank (e := e) password walletKeyMem).exists' k = false := rfl
  rw [Bool.not_eq_true', Bool.eq_false_iff, ne_eq, import_exists h, hblank]
  simp

theorem ofJson_eq
    (h : tree.foldlM (importEntry tree) (false, .blank password walletKeyMem) = .ok r) :
    ofJson password walletKeyMem (some tree) = .ok (finishImport r) := by
  change (tree.foldlM (importEntry tree) (false, .blank password walletKeyMem) >>= _) = _
  rw [h]
  rfl

/-- **What the constructor reports.** An error, if nothing is thrown and the last entry is not in
order or one of the records has no entry that is. -/
theorem ofJson_reports (password walletKeyMem : Fan) (tree : PropertyTree) :
    (∃ w : WalletStore e, ofJson password walletKeyMem (some tree) = .ok (true, w)) ↔
      (∀ entry ∈ tree, ¬ Throws tree entry) ∧
      ((∃ entry ∈ tree.getLast?, ∀ k, ¬ Imported tree entry k) ∨
        ∃ k ∈ requiredRecords, ∀ entry ∈ tree, ¬ Imported tree entry k) := by
  rw [← import_isOk (e := e) tree (false, .blank password walletKeyMem)]
  constructor
  · rintro ⟨w, h⟩
    obtain ⟨r, hr, hfinish⟩ := bind_eq_ok h
    refine ⟨⟨r, hr⟩, (finishImport_flag hr).mp ?_⟩
    rw [show finishImport r = (true, w) from Except.ok.inj hfinish]
  · rintro ⟨⟨r, hr⟩, hflag⟩
    have hone := (finishImport_flag hr).mpr hflag
    exact ⟨(finishImport r).2, by rw [ofJson_eq hr, ← hone]⟩

/-! ## Faults of a text -/

/-- A key or a value is not the text of a number. -/
def Garbled (tree : PropertyTree) : Prop :=
  ∃ entry ∈ tree, (∀ k, decodeHex entry.1 ≠ .ok (some k)) ∨
    ∀ value, decodeHex entry.2 ≠ .ok (some value)

/-- One of the records has no entry. -/
def Incomplete (tree : PropertyTree) : Prop :=
  ∃ k ∈ requiredRecords, ∀ entry ∈ tree, decodeHex entry.1 ≠ .ok (some k)

/-- `get` finds the data of some entry of the name. -/
theorem get_mem {name data : String} (h : (name, data) ∈ tree) :
    (name, tree.get name) ∈ tree := by
  unfold PropertyTree.get
  induction tree with
  | nil => cases h
  | cons entry tree ih =>
    obtain ⟨name', data'⟩ := entry
    by_cases hname : name = name'
    · subst hname
      rw [List.lookup_cons_self]
      exact List.mem_cons_self
    · have hmem : (name, data) ∈ tree := by
        rcases List.mem_cons.mp h with heq | hmem
        · exact absurd (Prod.mk.inj heq).1 hname
        · exact hmem
      rw [List.lookup_cons, beq_eq_false_iff_ne.mpr hname]
      exact List.mem_cons_of_mem _ (ih hmem)

/-- In a text that is not garbled every entry is in order. -/
theorem imported_of_not_garbled (htree : ¬ Garbled tree) (hentry : entry ∈ tree) :
    ∃ k, Imported tree entry k := by
  simp only [Garbled, not_exists, not_and, not_or, not_forall, not_not] at htree
  obtain ⟨⟨k, hkey⟩, -⟩ := htree entry hentry
  obtain ⟨-, value, hvalue⟩ := htree _ (get_mem hentry)
  exact ⟨k, hkey, value, hvalue⟩

theorem not_throws_of_imported (h : Imported tree entry k) : ¬ Throws tree entry := by
  obtain ⟨hkey, value, hvalue⟩ := h
  simp [Throws, hkey, hvalue]

/-! ## The text of a wallet -/

theorem get_serializeJson (w : WalletStore e) {v : WalletValue}
    (h : w.handle.lookup k = some v) : w.serializeJson.get (encodeHex k) = encodeHex v.key := by
  have hlist : ∀ rows : List (Uint256 × WalletValue), rows.Pairwise (fun x y => x.1 ≠ y.1) →
      (k, v) ∈ rows →
      List.lookup (encodeHex k) (rows.map fun row => (encodeHex row.1, encodeHex row.2.key)) =
        some (encodeHex v.key) := by
    intro rows
    induction rows with
    | nil => exact fun _ h => by cases h
    | cons row rows ih =>
      intro hrows hmem
      obtain ⟨hrow, hrows⟩ := List.pairwise_cons.mp hrows
      rcases List.mem_cons.mp hmem with rfl | hmem
      · exact List.lookup_cons_self
      · have hne : encodeHex k ≠ encodeHex row.1 := fun heq =>
          hrow _ hmem (encodeHex_inj heq).symm
        rw [List.map_cons, List.lookup_cons, beq_eq_false_iff_ne.mpr hne]
        exact ih hrows hmem
  unfold PropertyTree.get serializeJson
  rw [hlist _ ((Table.pairwise_rows w.handle).imp fun h => h.2) (Table.mem_rows.mpr h)]
  rfl

/-- An entry of the text of a wallet is written as it was, without the work. -/
theorem importEntry_serializeJson (w : WalletStore e) {row : Uint256 × WalletValue}
    (h : w.handle.lookup row.1 = some row.2) (r : Bool × WalletStore e) :
    importEntry w.serializeJson r (encodeHex row.1, encodeHex row.2.key) =
      .ok (false, r.2.entryPutRaw row.1 ⟨row.2.key, 0⟩) := by
  unfold importEntry
  dsimp only
  rw [get_serializeJson w h, decodeHex_encodeHex, ok_bind]
  dsimp only
  rw [decodeHex_encodeHex]
  rfl

theorem import_serializeJson (w : WalletStore e)
    (rows : List (Uint256 × WalletValue)) (hrows : ∀ row ∈ rows, w.handle.lookup row.1 = some row.2)
    (r : Bool × WalletStore e) (hr : r.1 = false) :
    ∃ r', (rows.map fun row => (encodeHex row.1, encodeHex row.2.key)).foldlM
        (importEntry w.serializeJson) r = .ok r' ∧ r'.1 = false ∧
      ∀ k, r'.2.handle.lookup k = if k ∈ rows.map Prod.fst
        then (w.handle.lookup k).map fun v => ⟨v.key, 0⟩ else r.2.handle.lookup k := by
  induction rows generalizing r with
  | nil => exact ⟨r, rfl, hr, fun k => rfl⟩
  | cons row rows ih =>
    have hrow := hrows row List.mem_cons_self
    obtain ⟨r', hrest, hflag, hlookup⟩ := ih (fun x hx => hrows x (List.mem_cons_of_mem _ hx))
      (false, r.2.entryPutRaw row.1 ⟨row.2.key, 0⟩) rfl
    refine ⟨r', ?_, hflag, fun k => ?_⟩
    · rw [List.map_cons, List.foldlM_cons, importEntry_serializeJson w hrow, ok_bind, hrest]
    · rw [hlookup, lookup_entryPutRaw]
      by_cases hk : k = row.1
      · subst hk
        simp [hrow]
      · have hmem : k ∈ (row :: rows).map Prod.fst ↔ k ∈ rows.map Prod.fst := by
          rw [List.map_cons, List.mem_cons, or_iff_right hk]
        simp only [if_neg hk, hmem]

end WalletStore

open WalletStore

/-- **Only the last entry of a wallet's text is checked.** An error is reported exactly for the
texts that are garbled or incomplete, if and only if for a garbled text nothing is thrown and
it has an entry that is not in order at its end, or no entry that is in order for one of the
records. The text of a wallet gives back the key part of every entry, and an error exactly if
the wallet lacks one of the records. -/
theorem wallet_import_iff (password walletKeyMem : Fan) :
    (∀ tree : PropertyTree,
      ((∃ w : WalletStore e, ofJson password walletKeyMem (some tree) = .ok (true, w)) ↔
          Garbled tree ∨ Incomplete tree) ↔
        (Garbled tree → (∀ entry ∈ tree, ¬ Throws tree entry) ∧
          ((∃ entry ∈ tree.getLast?, ∀ k, ¬ Imported tree entry k) ∨
            ∃ k ∈ requiredRecords, ∀ entry ∈ tree, ¬ Imported tree entry k))) ∧
    ∀ w : WalletStore e, ∃ r : Bool × WalletStore e,
      ofJson password walletKeyMem (some w.serializeJson) = .ok r ∧
      (r.1 = false ↔ ∀ k ∈ requiredRecords, w.exists' k = true) ∧
      ∀ k, r.2.handle.lookup k = (w.handle.lookup k).map fun v => ⟨v.key, 0⟩ := by
  constructor
  · intro tree
    rw [ofJson_reports]
    by_cases htree : Garbled tree
    · simp [htree]
    · have himported : ∀ entry ∈ tree, ∃ k, Imported tree entry k :=
        fun _ => imported_of_not_garbled htree
      refine iff_of_true ?_ fun h => absurd h htree
      rw [or_iff_right htree]
      constructor
      · rintro ⟨-, ⟨entry, hlast, hnone⟩ | ⟨k, hk, hnone⟩⟩
        · obtain ⟨k, hin⟩ := himported entry (List.mem_of_getLast? hlast)
          exact absurd hin (hnone k)
        · refine ⟨k, hk, fun entry hentry hkey => ?_⟩
          obtain ⟨k', hin⟩ := himported entry hentry
          exact hnone entry hentry ⟨hkey, hin.2⟩
      · rintro ⟨k, hk, hnone⟩
        refine ⟨fun entry hentry => ?_,
          Or.inr ⟨k, hk, fun entry hentry hin => hnone entry hentry hin.1⟩⟩
        obtain ⟨k', hin⟩ := himported entry hentry
        exact not_throws_of_imported hin
  · intro w
    obtain ⟨r, hr, hflag, hlookup⟩ := import_serializeJson w (w.handle.rows (· ≤ ·))
      (fun row hrow => Table.mem_rows.mp hrow) (false, .blank password walletKeyMem) rfl
    have hall : ∀ k, r.2.handle.lookup k = (w.handle.lookup k).map fun v => ⟨v.key, 0⟩ := by
      intro k
      rw [hlookup]
      split_ifs with hk
      · rfl
      · cases hrow : w.handle.lookup k with
        | none => rfl
        | some v => exact absurd (List.mem_map.mpr ⟨(k, v), Table.mem_rows.mpr hrow, rfl⟩) hk
    have hexists : ∀ k, r.2.exists' k = w.exists' k := by
      intro k
      rw [exists', hall, Option.isSome_map]
      rfl
    refine ⟨finishImport r, ofJson_eq hr, ?_, hall⟩
    change (r.1 || requiredRecords.any fun k => !r.2.exists' k) = false ↔ _
    simp [hflag, hexists]

namespace TextSample

/-- The records of a wallet. -/
def records : PropertyTree := [("0", "3"), ("1", "a"), ("2", "b"), ("3", "c"), ("4", "d")]

theorem seven_garbled (k : Uint256) : decodeHex "seven" ≠ .ok (some k) := by
  have hnone : decodeHex "seven" = .ok none := by decide +kernel
  simp [hnone]

end TextSample

/-- For an entry that is not the text of a number no error is reported if it comes first, and for
one at which the library throws `std::out_of_range` none either. -/
theorem garbled_wallet_imported :
    (ofJson (e := WalletSample.env) (.single 0) (.single 0)
      (some (("seven", "0") :: TextSample.records))).map Prod.fst = .ok false ∧
    decodeHex "seven" = .ok none ∧
    (ofJson (e := WalletSample.env) (.single 0) (.single 0)
      (some (TextSample.records ++ [("+", "0")]))).map Prod.fst = .error .outOfRange := by
  decide +kernel

/-- At the end it is reported, and a wallet is read back. -/
theorem wallet_import_iff_last :
    (∃ w : WalletStore WalletSample.env, ofJson (.single 0) (.single 0)
      (some (TextSample.records ++ [("seven", "0")])) = .ok (true, w)) ∧
    ∃ r : Bool × WalletStore WalletSample.env,
      ofJson (.single 0) (.single 0) (some WalletSample.wallet.serializeJson) = .ok r ∧
      r.1 = false ∧ r.2.handle.lookup versionSpecial = some ⟨3, 0⟩ := by
  obtain ⟨htree, hwallet⟩ := wallet_import_iff (e := WalletSample.env) (.single 0) (.single 0)
  have hgarbled : Garbled (TextSample.records ++ [("seven", "0")]) :=
    ⟨("seven", "0"), by simp, Or.inl TextSample.seven_garbled⟩
  have hisOk : ∀ entry ∈ TextSample.records ++ [("seven", "0")],
      (decodeHex entry.1).isOk = true ∧ (decodeHex
        (PropertyTree.get (TextSample.records ++ [("seven", "0")]) entry.1)).isOk = true := by
    decide +kernel
  have hlast : ∃ entry ∈ (TextSample.records ++ [("seven", "0")]).getLast?, ∀ k,
      ¬ Imported (TextSample.records ++ [("seven", "0")]) entry k :=
    ⟨("seven", "0"), by simp, fun k h => TextSample.seven_garbled k h.1⟩
  constructor
  · refine ((htree _).mpr fun _ => ⟨fun entry hentry hthrows => ?_, Or.inl hlast⟩).mpr
      (Or.inl hgarbled)
    obtain ⟨hkey, hvalue⟩ := hisOk entry hentry
    obtain ⟨raised, h | ⟨-, h⟩⟩ := hthrows
    · rw [h] at hkey
      cases hkey
    · rw [h] at hvalue
      cases hvalue
  · obtain ⟨r, hr, hflag, hlookup⟩ := hwallet WalletSample.wallet
    refine ⟨r, hr, hflag.mpr fun k hk => hasRecords_create _ k (requiredRecords_lt k hk), ?_⟩
    rw [hlookup, WalletSample.wallet, lookup_create _ (by decide)]
    rfl

end RaiBlocks
