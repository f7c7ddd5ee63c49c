import RaiBlocks.Lib.Text

/-!
# Numbers that are read back

What the functions of `rai/lib/numbers.cpp` write of a number they read as the number, in
hexadecimal and in decimal.
-/

namespace RaiBlocks

open Foundation Numeral

variable {d n x w : ℕ} {c : Char}

/-! ## Digits -/

@[simp] theorem length_hexDigits : ∀ n x, (hexDigits n x).length = n
  | 0, _ => rfl
  | n + 1, x => by rw [hexDigits, List.length_append, length_hexDigits n, List.length_singleton]

theorem hexDigits_eq (n x : ℕ) : hexDigits n x = (digits 16 n x).map Nat.digitChar := by
  induction n generalizing x with
  | zero => rfl
  | succ n ih => rw [hexDigits, ih, digits, List.map_append, List.map_singleton]

theorem hexValue_digitChar (hd : d < 16) : hexValue (Nat.digitChar d) = some d := by
  have hall : ∀ i : Fin 16, hexValue (Nat.digitChar i) = some i.1 := by decide
  exact hall ⟨d, hd⟩

theorem parseDigits_map_digitChar {base : ℕ} (hbase : base ≤ 16) {l : List ℕ}
    (hl : ∀ d ∈ l, d < base) :
    parseDigits base (l.map Nat.digitChar) = some (value base l) := by
  have hmap : (l.map Nat.digitChar).mapM (fun c => (hexValue c).filter (· < base)) = some l := by
    induction l with
    | nil => rfl
    | cons d l ih =>
      have hd := hl d List.mem_cons_self
      have hrest := ih fun x hx => hl x (List.mem_cons_of_mem d hx)
      rw [List.map_cons, List.mapM_cons, hrest, hexValue_digitChar (hd.trans_le hbase)]
      simp [Option.filter, hd]
  rw [parseDigits, hmap]
  rfl

theorem not_isSpace_digitChar (hd : d < 16) : isSpace (Nat.digitChar d) = false := by
  have hall : ∀ i : Fin 16, isSpace (Nat.digitChar i) = false := by decide
  exact hall ⟨d, hd⟩

/-- A text of permitted characters that does not start with white space is read as a whole. -/
theorem readStringWhile_of_forall {permitted text : List Char}
    (hspace : ∀ c ∈ text, isSpace c = false) (h : ∀ c ∈ text, c ∈ permitted) :
    readStringWhile permitted text = (text, true) := by
  have hdrop : text.dropWhile isSpace = text := by
    cases text with
    | nil => rfl
    | cons c text => simp [hspace c List.mem_cons_self]
  have htake : text.takeWhile (· ∈ permitted) = text :=
    List.takeWhile_eq_self_iff.mpr fun c hc => decide_eq_true (h c hc)
  have hrest : text.dropWhile (· ∈ permitted) = [] :=
    List.dropWhile_eq_nil_iff.mpr fun c hc => decide_eq_true (h c hc)
  rw [readStringWhile, hdrop, htake, hrest]
  rfl

/-! ## Hexadecimal numbers -/

theorem mem_hexDigits (h : c ∈ hexDigits n x) : ∃ d < 16, c = Nat.digitChar d := by
  rw [hexDigits_eq] at h
  obtain ⟨d, hd, rfl⟩ := List.mem_map.mp h
  exact ⟨d, lt_of_mem_digits (by decide) hd, rfl⟩

theorem parseDigits_hexDigits (hx : x < 16 ^ n) : parseDigits 16 (hexDigits n x) = some x := by
  rw [hexDigits_eq, parseDigits_map_digitChar le_rfl fun d hd =>
    lt_of_mem_digits (by decide) hd, value_digits_of_lt hx]

theorem hex_digitChar (hd : d < 16) :
    Nat.digitChar d ∈ hexCharacters ∧ Nat.digitChar d ≠ '+' ∧ Nat.digitChar d ≠ '-' ∧
      Nat.digitChar d ≠ 'x' ∧ Nat.digitChar d ≠ 'X' ∧ Nat.digitChar d ≠ 'n' := by
  have hall : ∀ i : Fin 16, Nat.digitChar i ∈ hexCharacters ∧ Nat.digitChar i ≠ '+' ∧
      Nat.digitChar i ≠ '-' ∧ Nat.digitChar i ≠ 'x' ∧ Nat.digitChar i ≠ 'X' ∧
      Nat.digitChar i ≠ 'n' := by decide
  exact hall ⟨d, hd⟩

theorem not_mem_hexDigits (hc : c = '+' ∨ c = '-' ∨ c = 'x' ∨ c = 'X' ∨ c = 'n') :
    c ∉ hexDigits n x := by
  intro h
  obtain ⟨d, hd, rfl⟩ := mem_hexDigits h
  obtain ⟨-, hplus, hminus, hx, hX, hn⟩ := hex_digitChar hd
  rcases hc with hc | hc | hc | hc | hc
  · exact hplus hc
  · exact hminus hc
  · exact hx hc
  · exact hX hc
  · exact hn hc

theorem exists_hexDigits_eq_cons (hn : 0 < n) : ∃ c rest, hexDigits n x = c :: rest := by
  refine List.exists_cons_of_ne_nil fun h => ?_
  have hlen := length_hexDigits n x
  rw [h] at hlen
  exact absurd hlen hn.ne

theorem take_hexDigits_ne (hc : c = 'x' ∨ c = 'X') : (hexDigits n x).take 2 ≠ ['0', c] := by
  intro h
  have hmem : c ∈ (hexDigits n x).take 2 := by simp [h]
  exact not_mem_hexDigits (by tauto) (List.mem_of_mem_take hmem)

/-- All of the number is read, and the library puts `0x` before it. -/
theorem extractHex_hexDigits (hn : 0 < n) (hx : x < 16 ^ n) :
    extractHex w (hexDigits n x) = .ok (BitVec.ofNat w x, true) := by
  have hread : readStringWhile hexCharacters (hexDigits n x) = (hexDigits n x, true) := by
    refine readStringWhile_of_forall (fun c hc => ?_) (fun c hc => ?_)
    · obtain ⟨d, hd, rfl⟩ := mem_hexDigits hc
      exact not_isSpace_digitChar hd
    · obtain ⟨d, hd, rfl⟩ := mem_hexDigits hc
      exact (hex_digitChar hd).1
  obtain ⟨c, rest, heq⟩ := exists_hexDigits_eq_cons (x := x) hn
  have hfirst : (c = '+' || c = '-') = false := by
    have hmem : c ∈ hexDigits n x := by simp [heq]
    have hplus : c ≠ '+' := fun h => not_mem_hexDigits (by tauto) (h ▸ hmem)
    have hminus : c ≠ '-' := fun h => not_mem_hexDigits (by tauto) (h ▸ hmem)
    simp [hplus, hminus]
  have hinsert : insertHexPrefix (hexDigits n x) = .ok (['0', 'x'] ++ hexDigits n x) := by
    rw [insertHexPrefix, if_neg (take_hexDigits_ne (Or.inl rfl)), heq]
    simp [hfirst]
  have hassign : assign w false (['0', 'x'] ++ hexDigits n x) = .ok (BitVec.ofNat w x) := by
    simp [assign, parseDigits_hexDigits hx]
  rw [extractHex, hread, if_neg (by simp [heq]), hinsert, ok_bind, hassign]
  rfl

theorem readHex_hexDigits (hn : 0 < n) (hx : x < 16 ^ n) :
    readHex w (String.ofList (hexDigits n x)) = .ok (some (BitVec.ofNat w x)) := by
  rw [readHex, String.toList_ofList, extractHex_hexDigits hn hx]
  rfl

/-- A number of `w` bits has `n` digits if `16 ^ n = 2 ^ w`. -/
theorem readHex_toNat (hn : 0 < n) (hw : 4 * n = w) (x : BitVec w) :
    readHex w (String.ofList (hexDigits n x.toNat)) = .ok (some x) := by
  have hx : x.toNat < 16 ^ n := by
    have hpow : (16 : ℕ) ^ n = 2 ^ w := by
      rw [← hw, pow_mul]
      rfl
    exact hpow ▸ x.isLt
  rw [readHex_hexDigits hn hx, BitVec.ofNat_toNat, BitVec.setWidth_eq]

theorem extractWord_hexDigits (hn : 0 < n) (hx : x < 16 ^ n) :
    extractWord (hexDigits n x) = (BitVec.ofNat 64 x, true) := by
  obtain ⟨c, rest, heq⟩ := exists_hexDigits_eq_cons (x := x) hn
  have hmem : c ∈ hexDigits n x := by simp [heq]
  have hspace : (hexDigits n x).dropWhile isSpace = hexDigits n x := by
    obtain ⟨d, hd, hc⟩ := mem_hexDigits hmem
    rw [heq, List.dropWhile_cons_of_neg]
    simp [hc, not_isSpace_digitChar hd]
  have hsign : ∀ s, (s = '+' ∨ s = '-') → (hexDigits n x).head? ≠ some s := by
    rintro s hs h
    rw [heq, List.head?_cons, Option.some.injEq] at h
    exact not_mem_hexDigits (by tauto) (h ▸ hmem)
  have hdigit : ∀ c ∈ hexDigits n x, (hexValue c).isSome = true := by
    intro c hc
    obtain ⟨d, hd, rfl⟩ := mem_hexDigits hc
    simp [hexValue_digitChar hd]
  have htake := List.takeWhile_eq_self_iff.mpr hdigit
  have hdrop := List.dropWhile_eq_nil_iff.mpr hdigit
  simp [extractWord, hspace, hsign, take_hexDigits_ne, htake, hdrop, parseDigits_hexDigits hx]

theorem decodeHex_encodeHex (x : Uint256) : Uint256.decodeHex (encodeHex x) = .ok (some x) := by
  have hlen : (encodeHex x).length = 64 := by simp [encodeHex]
  have hne : encodeHex x ≠ "" := by
    intro h
    rw [h] at hlen
    cases hlen
  rw [Uint256.decodeHex, if_pos ⟨hne, hlen.le⟩, encodeHex, readHex_toNat (by decide) (by decide)]

theorem encodeHex_inj {x y : Uint256} (h : encodeHex x = encodeHex y) : x = y := by
  have hx := decodeHex_encodeHex x
  rw [h, decodeHex_encodeHex] at hx
  exact (Option.some.inj (Except.ok.inj hx)).symm

/-! ## Decimal numbers -/

theorem length_decDigits (x : ℕ) : (decDigits x).length = size 10 x := by
  simp [decDigits]

theorem mem_decDigits (h : c ∈ decDigits x) : ∃ d < 10, c = Nat.digitChar d := by
  obtain ⟨d, hd, rfl⟩ := List.mem_map.mp h
  exact ⟨d, lt_of_mem_digits (by decide) hd, rfl⟩

theorem mem_decCharacters (hd : d < 10) : Nat.digitChar d ∈ decCharacters := by
  have hall : ∀ i : Fin 10, Nat.digitChar i ∈ decCharacters := by decide
  exact hall ⟨d, hd⟩

theorem digitChar_ne_minus (hd : d < 10) : Nat.digitChar d ≠ '-' := by
  have hall : ∀ i : Fin 10, Nat.digitChar i ≠ '-' := by decide
  exact hall ⟨d, hd⟩

theorem digitChar_eq_zero_iff (hd : d < 10) : Nat.digitChar d = '0' ↔ d = 0 := by
  have hall : ∀ i : Fin 10, Nat.digitChar i = '0' ↔ i.1 = 0 := by decide
  exact hall ⟨d, hd⟩

theorem head_decDigits (x : ℕ) :
    ∃ d rest, d < 10 ∧ decDigits x = Nat.digitChar d :: rest ∧ (d = 0 → x = 0) := by
  have hlt := lt_pow_size (b := 10) (by decide) x
  obtain ⟨n, hn⟩ : ∃ n, size 10 x = n + 1 := ⟨Nat.log 10 x, rfl⟩
  have hfirst : x / 10 ^ n < 10 := by
    rw [Nat.div_lt_iff_lt_mul (by positivity), ← pow_succ']
    rwa [hn] at hlt
  refine ⟨x / 10 ^ n % 10, (digits 10 n x).map Nat.digitChar, Nat.mod_lt _ (by decide),
    ?_, fun hzero => ?_⟩
  · rw [decDigits, hn, digits_succ, List.map_cons]
  · rw [Nat.mod_eq_of_lt hfirst] at hzero
    cases n with
    | zero => simpa using hzero
    | succ n =>
      have hle := pow_le_of_size hn
      have hpos : 0 < x / 10 ^ (n + 1) := Nat.div_pos hle (by positivity)
      omega

theorem assign_decDigits (hx : x < 2 ^ w) :
    assign w true (decDigits x) = .ok (BitVec.ofNat w x) := by
  obtain ⟨d, rest, hd, heq, hzero⟩ := head_decDigits x
  have hvalue : parseDigits 10 (decDigits x) = some x := by
    rw [decDigits, parseDigits_map_digitChar (by decide) fun d hd =>
      lt_of_mem_digits (by decide) hd]
    rw [value_digits_of_lt (lt_pow_size (by decide) x)]
  have hminus : (decDigits x).head? ≠ some '-' := by
    rw [heq]
    exact fun h => digitChar_ne_minus hd (Option.some.inj h)
  have hrange : ¬ 2 ^ w ≤ x := not_le.mpr hx
  by_cases hx0 : x = 0
  · subst hx0
    have htext : decDigits 0 = ['0'] := by decide
    simp [assign, htext, parseDigits, hrange]
  · have hd0 : Nat.digitChar d ≠ '0' := fun h => hx0 (hzero ((digitChar_eq_zero_iff hd).mp h))
    have hhex : ∀ c, (decDigits x).take 2 ≠ ['0', c] := by
      intro c h
      rw [heq] at h
      exact hd0 (List.cons.inj h).1
    have hoct : (decDigits x).head? ≠ some '0' := by
      rw [heq]
      exact fun h => hd0 (Option.some.inj h)
    simp [assign, hminus, hhex, hoct, hvalue, hrange]

theorem decodeDec_decDigits (hx : x < 2 ^ 128) :
    Uint128.decodeDec (String.ofList (decDigits x)) = .ok (some (BitVec.ofNat 128 x)) := by
  obtain ⟨d, rest, hd, heq, hzero⟩ := head_decDigits x
  have hlen : (decDigits x).length ≤ 39 := by
    rw [length_decDigits, size, Nat.add_one_le_iff]
    exact Nat.log_lt_of_lt_pow' (by decide) (hx.trans (by decide))
  have hlead : ¬ (1 < (decDigits x).length ∧ (decDigits x).head? = some '0') := by
    rintro ⟨hlong, hhead⟩
    rw [heq] at hhead
    obtain rfl := hzero ((digitChar_eq_zero_iff hd).mp (Option.some.inj hhead))
    revert hlong
    decide
  have hminus : (decDigits x).head? ≠ some '-' := by
    rw [heq]
    exact fun h => digitChar_ne_minus hd (Option.some.inj h)
  have hread : readStringWhile decCharacters (decDigits x) = (decDigits x, true) := by
    refine readStringWhile_of_forall (fun c hc => ?_) (fun c hc => ?_)
    · obtain ⟨d, hd, rfl⟩ := mem_decDigits hc
      exact not_isSpace_digitChar (by omega)
    · obtain ⟨d, hd, rfl⟩ := mem_decDigits hc
      exact mem_decCharacters hd
  have hextract : extractDec 128 (decDigits x) = .ok (BitVec.ofNat 128 x, true) := by
    rw [extractDec, hread]
    have hne : decDigits x ≠ [] := by
      rw [heq]
      exact List.cons_ne_nil _ _
    rw [if_neg hne, assign_decDigits hx]
    rfl
  unfold Uint128.decodeDec
  rw [String.length_ofList, String.toList_ofList, if_neg, hextract]
  · rfl
  · rintro (h | h | h)
    · omega
    · exact hlead h
    · exact hminus h

end RaiBlocks
