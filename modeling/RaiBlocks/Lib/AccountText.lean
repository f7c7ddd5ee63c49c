import RaiBlocks.Foundation.Numeral
import RaiBlocks.Lib.Accounts

/-!
# The digits of an account number

The text of an account has 60 digits of the base 32, the last eight of them for the check. What
the decoder makes of any text is stated with the values that it gives to the characters.
-/

namespace RaiBlocks

open Foundation

namespace AccountText

variable {c : UInt8} {m d w n : ℕ} {digits source pre : List UInt8}

/-! ## Characters -/

/-- The value that the decoder gives to a character. -/
def charValue (c : UInt8) : ℕ := if c ∈ accountLookup then accountLookup.idxOf c else 78

/-- The characters that the loop does not stop at. -/
def InTable (c : UInt8) : Prop := 0x30 ≤ c ∧ c ≤ 0x7e

instance decidableInTable (c : UInt8) : Decidable (InTable c) :=
  inferInstanceAs (Decidable (_ ∧ _))

theorem accountDecode_eq (hc : InTable c) : accountDecode c = .ok (UInt8.ofNat (charValue c)) := by
  have hall : ∀ i : Fin 79, accountDecode (UInt8.ofNat (i.1 + 0x30)) =
      .ok (UInt8.ofNat (charValue (UInt8.ofNat (i.1 + 0x30)))) := by
    decide +kernel
  have hlow : 0x30 ≤ c.toNat := UInt8.le_iff_toNat_le.mp hc.1
  have hhigh : c.toNat ≤ 0x7e := UInt8.le_iff_toNat_le.mp hc.2
  have hi := hall ⟨c.toNat - 0x30, by omega⟩
  have heq : UInt8.ofNat (c.toNat - 0x30 + 0x30) = c := by
    rw [Nat.sub_add_cancel hlow, UInt8.ofNat_toNat]
  simpa only [heq] using hi

theorem charValue_of_mem (hc : c ∈ accountLookup) : charValue c < 32 := by
  rw [charValue, if_pos hc]
  exact List.idxOf_lt_length_iff.mpr hc

theorem charValue_le (c : UInt8) : charValue c ≤ 78 := by
  by_cases hc : c ∈ accountLookup
  · have := charValue_of_mem hc
    omega
  · rw [charValue, if_neg hc]

theorem inTable_of_mem (hc : c ∈ accountLookup) : InTable c := by
  have hall : ∀ c ∈ accountLookup, 0x30 ≤ c ∧ c ≤ 0x7e := by decide +kernel
  exact hall c hc

/-- The character of a digit. -/
def digitChar (d : ℕ) : UInt8 := accountLookup.getD d 0

theorem digitChar_mem (hd : d < 32) : digitChar d ∈ accountLookup := by
  have hall : ∀ i : Fin 32, digitChar i ∈ accountLookup := by decide +kernel
  exact hall ⟨d, hd⟩

theorem charValue_digitChar (hd : d < 32) : charValue (digitChar d) = d := by
  have hall : ∀ i : Fin 32, charValue (digitChar i) = i.1 := by decide +kernel
  exact hall ⟨d, hd⟩

theorem digitChar_charValue (hc : c ∈ accountLookup) : digitChar (charValue c) = c := by
  rw [charValue, if_pos hc, digitChar, List.getD_eq_getElem?_getD, List.getElem?_idxOf hc,
    Option.getD_some]

/-! ## The loops -/

theorem ofNat_shiftLeft_five (w m : ℕ) : BitVec.ofNat w m <<< 5 = BitVec.ofNat w (m * 32) := by
  apply BitVec.eq_of_toNat_eq
  rw [BitVec.toNat_shiftLeft, BitVec.toNat_ofNat, BitVec.toNat_ofNat, Nat.shiftLeft_eq,
    Nat.mod_mul_mod]

theorem ofNat_shiftRight_five (hm : m < 2 ^ w) :
    BitVec.ofNat w m >>> 5 = BitVec.ofNat w (m / 32) := by
  apply BitVec.eq_of_toNat_eq
  rw [BitVec.toNat_ushiftRight, BitVec.toNat_ofNat, BitVec.toNat_ofNat, Nat.shiftRight_eq_div_pow,
    Nat.mod_eq_of_lt hm, Nat.mod_eq_of_lt ((Nat.div_le_self ..).trans_lt hm)]

theorem ofNat_and_lowest (hw : 5 ≤ w) (hm : m < 2 ^ w) :
    (BitVec.ofNat w m &&& 0x1f).toNat = m % 32 := by
  have hmask : (0x1f : BitVec w).toNat = 2 ^ 5 - 1 := by
    have hlt : 31 < 2 ^ w := lt_of_lt_of_le (by decide) (Nat.pow_le_pow_right two_pos hw)
    rw [BitVec.ofNat_eq_ofNat, BitVec.toNat_ofNat]
    exact Nat.mod_eq_of_lt hlt
  rw [BitVec.toNat_and, BitVec.toNat_ofNat, Nat.mod_eq_of_lt hm, hmask,
    Nat.and_two_pow_sub_one_eq_mod]

/-- The number that the decoder makes of the digits. -/
def textNumber (digits : List UInt8) : ℕ := Numeral.value 32 (digits.map charValue)

theorem inTable_iff : ¬ (c < 0x30 ∨ 0x80 ≤ c) ∧ c ≠ 0x7f ↔ InTable c := by
  simp only [InTable, UInt8.lt_iff_toNat_lt, UInt8.le_iff_toNat_le, ne_eq, ← UInt8.toNat_inj]
  change ¬ (c.toNat < 48 ∨ 128 ≤ c.toNat) ∧ ¬ c.toNat = 127 ↔ 48 ≤ c.toNat ∧ c.toNat ≤ 126
  omega

/-- One step of the loop. The marker is compared after the subtraction, so that no character of
the table is refused. -/
theorem decodeDigits_cons (hc : InTable c) (digits : List UInt8) (m : ℕ) :
    decodeDigits (c :: digits) (BitVec.ofNat 512 m) =
      decodeDigits digits (BitVec.ofNat 512 (m * 32 + charValue c)) := by
  have hle := charValue_le c
  have hvalue : (UInt8.ofNat (charValue c)).toNat = charValue c :=
    UInt8.toNat_ofNat_of_lt (hle.trans_lt (by decide))
  have hmarker : UInt8.ofNat (charValue c) ≠ 0x7e := by
    intro heq
    have htoNat : charValue c = 126 := hvalue.symm.trans (congrArg UInt8.toNat heq)
    omega
  rw [decodeDigits, if_neg (inTable_iff.mpr hc).1, accountDecode_eq hc, ok_bind, if_neg hmarker,
    hvalue, ofNat_shiftLeft_five, ← BitVec.ofNat_add]

theorem decodeDigits_of_inTable (h : ∀ c ∈ digits, InTable c) (m : ℕ) :
    decodeDigits digits (BitVec.ofNat 512 m) =
      .ok (some (BitVec.ofNat 512 (m * 32 ^ digits.length + textNumber digits))) := by
  induction digits generalizing m with
  | nil => simp [decodeDigits, textNumber]
  | cons c digits ih =>
    rw [decodeDigits_cons (h c List.mem_cons_self),
      ih (fun x hx => h x (List.mem_cons_of_mem c hx)), textNumber, textNumber, List.map_cons,
      Numeral.value_cons, List.length_map, List.length_cons]
    congr 3
    ring

/-- At the first character that is not in the table the loop ends, with a failed assertion if
it is the character 127. -/
theorem decodeDigits_of_not_inTable {front : List UInt8} (hfront : ∀ x ∈ front, InTable x)
    (hc : ¬ InTable c) (rest : List UInt8) (m : ℕ) :
    decodeDigits (front ++ c :: rest) (BitVec.ofNat 512 m) =
      if c = 0x7f then .error .assertion else .ok none := by
  induction front generalizing m with
  | nil =>
    by_cases hdel : c = 0x7f
    · subst hdel
      have hfault : accountDecode 0x7f = .error .assertion := by decide +kernel
      rw [List.nil_append, decodeDigits, if_neg (by decide), hfault, if_pos rfl, error_bind]
    · have hstop : c < 0x30 ∨ 0x80 ≤ c := by
        by_contra hrange
        exact hc (inTable_iff.mp ⟨hrange, hdel⟩)
      rw [List.nil_append, decodeDigits, if_pos hstop, if_neg hdel]
  | cons x front ih =>
    rw [List.cons_append, decodeDigits_cons (hfront x List.mem_cons_self),
      ih (fun y hy => hfront y (List.mem_cons_of_mem x hy))]

theorem encodeDigits_eq (n : ℕ) {x : ℕ} (hx : x < 2 ^ 512) (destination : List UInt8) :
    encodeDigits n (BitVec.ofNat 512 x) destination =
      .ok (destination ++ ((Numeral.digits 32 n x).map digitChar).reverse) := by
  induction n generalizing x destination with
  | zero => simp [encodeDigits, Numeral.digits]
  | succ n ih =>
    have hlt : x % 32 < 32 := Nat.mod_lt x (by decide)
    have hdigit : (UInt8.ofNat (x % 32)).toNat = x % 32 :=
      UInt8.toNat_ofNat_of_lt (hlt.trans (by decide))
    have hsmall : UInt8.ofNat (x % 32) < 32 := by
      rw [UInt8.lt_iff_toNat_lt, hdigit]
      exact hlt
    rw [encodeDigits, ofNat_and_lowest (by decide) hx, accountEncode, decide_eq_true hsmall,
      assertThat_true, ok_bind, hdigit, ofNat_shiftRight_five hx]
    simp only [pure_bind]
    rw [ih ((Nat.div_le_self ..).trans_lt hx), Numeral.digits, List.map_append,
      List.reverse_append, List.append_assoc]
    rfl

/-! ## The encoder -/

/-- The number that is written: the account and its check. -/
def accountNumber (check : Uint256 → BitVec 40) (a : Uint256) : ℕ :=
  a.toNat * 2 ^ 40 + (check a).toNat

/-- The digits of an account, without the prefix. -/
def accountDigits (check : Uint256 → BitVec 40) (a : Uint256) : List UInt8 :=
  (Numeral.digits 32 60 (accountNumber check a)).map digitChar

variable {check : Uint256 → BitVec 40} {a : Uint256}

@[simp] theorem length_accountDigits : (accountDigits check a).length = 60 := by
  simp [accountDigits]

theorem accountNumber_lt : accountNumber check a < 2 ^ (256 + 40) := by
  calc a.toNat * 2 ^ 40 + (check a).toNat
      < a.toNat * 2 ^ 40 + 2 ^ 40 := Nat.add_lt_add_left (check a).isLt _
    _ = (a.toNat + 1) * 2 ^ 40 := (Nat.succ_mul ..).symm
    _ ≤ 2 ^ 256 * 2 ^ 40 := Nat.mul_le_mul_right _ a.isLt
    _ = 2 ^ (256 + 40) := (pow_add ..).symm

theorem two_pow_le (h : m ≤ n) : 2 ^ m ≤ 2 ^ n := Nat.pow_le_pow_right two_pos h

theorem pow_thirty_two (n : ℕ) : 32 ^ n = 2 ^ (5 * n) := by
  rw [pow_mul]
  norm_num

theorem two_mul_pow : 2 * 32 ^ 59 = 2 ^ (256 + 40) := by
  have hexp : 5 * 59 + 1 = 256 + 40 := rfl
  rw [pow_thirty_two, ← pow_succ', hexp]

theorem encodeAccount_eq :
    encodeAccount check a = .ok (asciiBytes "xrb_" ++ accountDigits check a) := by
  have ha := a.isLt
  have hcheck := (check a).isLt
  have hlt : accountNumber check a < 2 ^ 512 := accountNumber_lt.trans_le (two_pow_le (by decide))
  have hnumber : (a.setWidth 512 <<< 40) ||| (check a).setWidth 512 =
      BitVec.ofNat 512 (accountNumber check a) := by
    apply BitVec.eq_of_toNat_eq
    rw [BitVec.toNat_or, BitVec.toNat_shiftLeft, BitVec.toNat_setWidth, BitVec.toNat_setWidth,
      BitVec.toNat_ofNat, Nat.mod_eq_of_lt hlt,
      Nat.mod_eq_of_lt (ha.trans_le (two_pow_le (by decide))),
      Nat.mod_eq_of_lt (hcheck.trans_le (two_pow_le (by decide))), Nat.mod_eq_of_lt,
      ← Nat.shiftLeft_add_eq_or_of_lt hcheck, Nat.shiftLeft_eq, accountNumber]
    rw [Nat.shiftLeft_eq]
    exact (Nat.le_add_right _ _).trans_lt hlt
  rw [encodeAccount, hnumber, encodeDigits_eq 60 hlt, ok_bind, List.nil_append, List.reverse_append,
    List.reverse_reverse]
  rfl

theorem textNumber_accountDigits : textNumber (accountDigits check a) = accountNumber check a := by
  have hmap : (accountDigits check a).map charValue =
      Numeral.digits 32 60 (accountNumber check a) := by
    rw [accountDigits, List.map_map]
    refine (List.map_congr_left fun d hd => ?_).trans (List.map_id _)
    exact charValue_digitChar (Numeral.lt_of_mem_digits (by decide) hd)
  have hlt : accountNumber check a < 32 ^ 60 := by
    rw [pow_thirty_two]
    exact accountNumber_lt.trans_le (two_pow_le (by decide))
  rw [textNumber, hmap, Numeral.value_digits_of_lt hlt]

theorem mem_accountDigits (h : c ∈ accountDigits check a) : c ∈ accountLookup := by
  obtain ⟨d, hd, rfl⟩ := List.mem_map.mp h
  exact digitChar_mem (Numeral.lt_of_mem_digits (by decide) hd)

/-- The first digit is 0 or 1, since an account has 256 bits. -/
theorem head_accountDigits :
    (accountDigits check a).getD 0 0 = 0x31 ∨ (accountDigits check a).getD 0 0 = 0x33 := by
  have hlt : accountNumber check a / 32 ^ 59 < 2 := by
    rw [Nat.div_lt_iff_lt_mul (by positivity), two_mul_pow]
    exact accountNumber_lt
  have hfirst : (accountDigits check a).getD 0 0 =
      digitChar (accountNumber check a / 32 ^ 59 % 32) := by
    rw [accountDigits, Numeral.digits_succ, List.map_cons, List.getD_cons_zero]
  rw [hfirst]
  generalize accountNumber check a / 32 ^ 59 = first at hlt
  interval_cases first
  · exact Or.inl (by decide +kernel)
  · exact Or.inr (by decide +kernel)

/-! ## The shape of a text -/

def prefixes : List (List UInt8) := ["xrb_", "xrb-", "nano_", "nano-"].map asciiBytes

/-- The end of `decode_account`, after the loop. -/
def finish (check : Uint256 → BitVec 40) : Option (BitVec 512) → Option Uint256
  | none => none
  | some number =>
    if number.setWidth 40 = check ((number >>> 40).setWidth 256) then
      some ((number >>> 40).setWidth 256)
    else none

/-- The two tests of the prefix. -/
def HasPrefix (name : List UInt8) (source : List UInt8) : Prop :=
  source.take name.length = name ∧
    (source.getD name.length 0 = 0x5f ∨ source.getD name.length 0 = 0x2d)

instance decidableHasPrefix (name source : List UInt8) : Decidable (HasPrefix name source) :=
  inferInstanceAs (Decidable (_ ∧ _))

/-- What is done with the digits. -/
def decodeRest (check : Uint256 → BitVec 40) (digits : List UInt8) :
    Except Fault (Option Uint256) :=
  if digits.getD 0 0 = 0x31 ∨ digits.getD 0 0 = 0x33 then
    (decodeDigits digits 0).map (finish check)
  else .ok none

theorem not_nano_of_xrb (h : HasPrefix (asciiBytes "xrb") source) :
    ¬ HasPrefix (asciiBytes "nano") source := by
  rintro ⟨hnano, -⟩
  have hfirst := congrArg List.head? h.1
  have hfirst' := congrArg List.head? hnano
  rw [List.head?_take, if_neg (by decide)] at hfirst hfirst'
  exact absurd (hfirst.symm.trans hfirst') (by decide)

theorem bind_eq_map_finish {f : Option (BitVec 512) → Except Fault (Option Uint256)}
    (hf : ∀ number, f number = .ok (finish check number)) :
    decodeDigits digits 0 >>= f = (decodeDigits digits 0).map (finish check) := by
  cases decodeDigits digits 0 with
  | error e => rfl
  | ok number => exact hf number

theorem decodeAccount_eq (source : List UInt8) :
    decodeAccount check source =
      if source.length < 5 ∨ HasPrefix (asciiBytes "xrb") source ∧ source.length ≠ 64 ∨
          HasPrefix (asciiBytes "nano") source ∧ source.length ≠ 65 then .ok none
      else if HasPrefix (asciiBytes "xrb") source then decodeRest check (source.drop 4)
      else if HasPrefix (asciiBytes "nano") source then decodeRest check (source.drop 5)
      else .ok none := by
  have hxrb : decide (source.take 3 = asciiBytes "xrb" ∧
      (source.getD 3 0 = 0x5f ∨ source.getD 3 0 = 0x2d)) =
        decide (HasPrefix (asciiBytes "xrb") source) := rfl
  have hnano : decide (source.take 4 = asciiBytes "nano" ∧
      (source.getD 4 0 = 0x5f ∨ source.getD 4 0 = 0x2d)) =
        decide (HasPrefix (asciiBytes "nano") source) := rfl
  unfold decodeAccount
  simp only [hxrb, hnano]
  by_cases h5 : source.length < 5
  · simp only [h5, if_true, true_or]
    rfl
  · by_cases hx : HasPrefix (asciiBytes "xrb") source
    · have hn := not_nano_of_xrb hx
      by_cases h64 : source.length = 64
      · simp [hx, hn, h64, decodeRest]
        split_ifs
        · refine bind_eq_map_finish fun number => ?_
          rcases number with _ | number
          · rfl
          · simp only [finish]
            split_ifs <;> rfl
        · rfl
      · simp [h5, hx, hn, h64]
        rfl
    · by_cases hn : HasPrefix (asciiBytes "nano") source
      · by_cases h65 : source.length = 65
        · simp [hx, hn, h65, decodeRest]
          split_ifs
          · refine bind_eq_map_finish fun number => ?_
            rcases number with _ | number
            · rfl
            · simp only [finish]
              split_ifs <;> rfl
          · rfl
        · simp [h5, hx, hn, h65]
          rfl
      · simp [h5, hx, hn]
        rfl

theorem mem_prefixes : pre ∈ prefixes ↔
    ∃ c, (c = 0x5f ∨ c = 0x2d) ∧
      (pre = asciiBytes "xrb" ++ [c] ∨ pre = asciiBytes "nano" ++ [c]) := by
  have hall : prefixes = [asciiBytes "xrb" ++ [0x5f], asciiBytes "xrb" ++ [0x2d],
      asciiBytes "nano" ++ [0x5f], asciiBytes "nano" ++ [0x2d]] := by decide
  rw [hall]
  simp only [List.mem_cons, List.not_mem_nil, or_false]
  constructor
  · rintro (rfl | rfl | rfl | rfl)
    · exact ⟨0x5f, Or.inl rfl, Or.inl rfl⟩
    · exact ⟨0x2d, Or.inr rfl, Or.inl rfl⟩
    · exact ⟨0x5f, Or.inl rfl, Or.inr rfl⟩
    · exact ⟨0x2d, Or.inr rfl, Or.inr rfl⟩
  · rintro ⟨c, rfl | rfl, rfl | rfl⟩
    · exact Or.inl rfl
    · exact Or.inr (Or.inr (Or.inl rfl))
    · exact Or.inr (Or.inl rfl)
    · exact Or.inr (Or.inr (Or.inr rfl))

theorem hasPrefix_append (name digits : List UInt8) (hc : c = 0x5f ∨ c = 0x2d) :
    HasPrefix name (name ++ [c] ++ digits) := by
  rw [HasPrefix, List.append_assoc, List.take_left]
  simpa using hc

theorem HasPrefix.split {name : List UInt8} (h : HasPrefix name source)
    (hlen : name.length < source.length) :
    ∃ c, (c = 0x5f ∨ c = 0x2d) ∧ source = name ++ [c] ++ source.drop (name.length + 1) := by
  refine ⟨source.getD name.length 0, h.2, ?_⟩
  have hget : source.getD name.length 0 = source[name.length] := by simp [hlen]
  conv_lhs => rw [← List.take_append_drop name.length source, h.1]
  rw [List.append_assoc, hget, List.singleton_append, List.getElem_cons_drop]

theorem decodeAccount_of_shape (hpre : pre ∈ prefixes) (hlen : digits.length = 60) :
    decodeAccount check (pre ++ digits) = decodeRest check digits := by
  obtain ⟨c, hc, rfl | rfl⟩ := mem_prefixes.mp hpre
  · have hx := hasPrefix_append (asciiBytes "xrb") digits hc
    have hlength : (asciiBytes "xrb" ++ [c] ++ digits).length = 64 := by
      rw [List.length_append, hlen]
      rfl
    have hdrop : (asciiBytes "xrb" ++ [c] ++ digits).drop 4 = digits := List.drop_left' rfl
    rw [decodeAccount_eq, if_neg, if_pos hx, hdrop]
    rintro (hshort | ⟨-, hne⟩ | ⟨hn, -⟩)
    · omega
    · exact hne hlength
    · exact not_nano_of_xrb hx hn
  · have hn := hasPrefix_append (asciiBytes "nano") digits hc
    have hx : ¬ HasPrefix (asciiBytes "xrb") (asciiBytes "nano" ++ [c] ++ digits) :=
      fun hx => not_nano_of_xrb hx hn
    have hlength : (asciiBytes "nano" ++ [c] ++ digits).length = 65 := by
      rw [List.length_append, hlen]
      rfl
    have hdrop : (asciiBytes "nano" ++ [c] ++ digits).drop 5 = digits := List.drop_left' rfl
    rw [decodeAccount_eq, if_neg, if_neg hx, if_pos hn, hdrop]
    rintro (hshort | ⟨hx', -⟩ | ⟨-, hne⟩)
    · omega
    · exact hx hx'
    · exact hne hlength

theorem decodeAccount_of_no_shape
    (h : ∀ pre ∈ prefixes, ∀ digits : List UInt8, digits.length = 60 → source ≠ pre ++ digits) :
    decodeAccount check source = .ok none := by
  rw [decodeAccount_eq]
  split_ifs with hbad hx hn
  · rfl
  · have hlength : source.length = 64 := by
      by_contra hne
      exact hbad (Or.inr (Or.inl ⟨hx, hne⟩))
    obtain ⟨c, hc, heq⟩ := hx.split (by rw [hlength]; decide)
    refine absurd heq (h _ (mem_prefixes.mpr ⟨c, hc, Or.inl rfl⟩) _ ?_)
    rw [List.length_drop, hlength]
    rfl
  · have hlength : source.length = 65 := by
      by_contra hne
      exact hbad (Or.inr (Or.inr ⟨hn, hne⟩))
    obtain ⟨c, hc, heq⟩ := hn.split (by rw [hlength]; decide)
    refine absurd heq (h _ (mem_prefixes.mpr ⟨c, hc, Or.inr rfl⟩) _ ?_)
    rw [List.length_drop, hlength]
    rfl
  · rfl

/-! ## The result -/

/-- The check of the number that the decoder made of the digits is right. -/
def Checked (check : Uint256 → BitVec 40) (digits : List UInt8) : Prop :=
  BitVec.ofNat 40 (textNumber digits) = check (BitVec.ofNat 256 (textNumber digits / 2 ^ 40))

instance decidableChecked (digits : List UInt8) : Decidable (Checked check digits) :=
  inferInstanceAs (Decidable (_ = _))

theorem textNumber_lt (hlen : digits.length = 60) : textNumber digits < 2 ^ 512 := by
  have hle : textNumber digits ≤ Numeral.value 128 (digits.map charValue) :=
    Numeral.value_mono (by decide) _
  have hlt : Numeral.value 128 (digits.map charValue) < 128 ^ (digits.map charValue).length := by
    refine Numeral.value_lt fun d hd => ?_
    obtain ⟨c, -, rfl⟩ := List.mem_map.mp hd
    exact (charValue_le c).trans_lt (by decide)
  have hpow : (128 : ℕ) ^ 60 = 2 ^ (7 * 60) := by
    rw [pow_mul]
    norm_num
  rw [List.length_map, hlen, hpow] at hlt
  exact hle.trans_lt (hlt.trans_le (two_pow_le (by decide)))

theorem finish_ofNat (hn : n < 2 ^ 512) :
    finish check (some (BitVec.ofNat 512 n)) =
      if BitVec.ofNat 40 n = check (BitVec.ofNat 256 (n / 2 ^ 40)) then
        some (BitVec.ofNat 256 (n / 2 ^ 40)) else none := by
  have hcheck : (BitVec.ofNat 512 n).setWidth 40 = BitVec.ofNat 40 n :=
    BitVec.setWidth_ofNat_of_le (by decide) n
  have haccount : (BitVec.ofNat 512 n >>> 40).setWidth 256 = BitVec.ofNat 256 (n / 2 ^ 40) := by
    apply BitVec.eq_of_toNat_eq
    rw [BitVec.toNat_setWidth, BitVec.toNat_ushiftRight, BitVec.toNat_ofNat, BitVec.toNat_ofNat,
      Nat.mod_eq_of_lt hn, Nat.shiftRight_eq_div_pow]
  rw [finish, hcheck, haccount]

/-- A text of characters of the table is accepted if the check is right, whether they are
digits or not. -/
theorem decodeRest_of_inTable (hlen : digits.length = 60)
    (hfirst : digits.getD 0 0 = 0x31 ∨ digits.getD 0 0 = 0x33) (h : ∀ c ∈ digits, InTable c) :
    decodeRest check digits =
      .ok (if Checked check digits then some (BitVec.ofNat 256 (textNumber digits / 2 ^ 40))
        else none) := by
  have hloop := decodeDigits_of_inTable h 0
  rw [Nat.zero_mul, Nat.zero_add] at hloop
  rw [decodeRest, if_pos hfirst]
  change (decodeDigits digits (BitVec.ofNat 512 0)).map (finish check) = _
  rw [hloop, Except.map, finish_ofNat (textNumber_lt hlen)]
  rfl

/-- The first digit is 0 or 1, so that the number has at most 296 bits. -/
theorem textNumber_lt_of_digits (hlen : digits.length = 60)
    (hfirst : digits.getD 0 0 = 0x31 ∨ digits.getD 0 0 = 0x33)
    (h : ∀ c ∈ digits, c ∈ accountLookup) : textNumber digits < 2 ^ (256 + 40) := by
  cases digits with
  | nil => cases hlen
  | cons c rest =>
    have hrest : Numeral.value 32 (rest.map charValue) < 32 ^ 59 := by
      have hlt : Numeral.value 32 (rest.map charValue) < 32 ^ (rest.map charValue).length := by
        refine Numeral.value_lt fun d hd => ?_
        obtain ⟨x, hx, rfl⟩ := List.mem_map.mp hd
        exact charValue_of_mem (h x (List.mem_cons_of_mem c hx))
      rwa [List.length_map, Nat.succ.inj hlen] at hlt
    have hc : charValue c ≤ 1 := by
      rcases hfirst with hc | hc
      · obtain rfl : c = 0x31 := hc
        decide +kernel
      · obtain rfl : c = 0x33 := hc
        decide +kernel
    rw [textNumber, List.map_cons, Numeral.value_cons, List.length_map, Nat.succ.inj hlen,
      ← two_mul_pow]
    calc charValue c * 32 ^ 59 + Numeral.value 32 (rest.map charValue)
        < charValue c * 32 ^ 59 + 32 ^ 59 := Nat.add_lt_add_left hrest _
      _ = (charValue c + 1) * 32 ^ 59 := (Nat.succ_mul ..).symm
      _ ≤ 2 * 32 ^ 59 := Nat.mul_le_mul_right _ (Nat.succ_le_succ hc)

/-- **Digits denote their own text.** If all characters are digits, exactly the text of an
account is accepted. -/
theorem checked_iff_accountDigits (hlen : digits.length = 60)
    (hfirst : digits.getD 0 0 = 0x31 ∨ digits.getD 0 0 = 0x33)
    (h : ∀ c ∈ digits, c ∈ accountLookup) (a : Uint256) :
    (Checked check digits ∧ BitVec.ofNat 256 (textNumber digits / 2 ^ 40) = a) ↔
      digits = accountDigits check a := by
  constructor
  · rintro ⟨hcheck, rfl⟩
    have hlt : textNumber digits / 2 ^ 40 < 2 ^ 256 := by
      rw [Nat.div_lt_iff_lt_mul (by positivity), ← pow_add]
      exact textNumber_lt_of_digits hlen hfirst h
    have hnumber : accountNumber check (BitVec.ofNat 256 (textNumber digits / 2 ^ 40)) =
        textNumber digits := by
      rw [accountNumber, ← hcheck, BitVec.toNat_ofNat, BitVec.toNat_ofNat, Nat.mod_eq_of_lt hlt]
      exact Nat.div_add_mod' ..
    have hvalues : ∀ d ∈ digits.map charValue, d < 32 := by
      intro d hd
      obtain ⟨c, hc, rfl⟩ := List.mem_map.mp hd
      exact charValue_of_mem (h c hc)
    have hdigits : Numeral.digits 32 60 (textNumber digits) = digits.map charValue := by
      have hlength : (digits.map charValue).length = 60 := (List.length_map _).trans hlen
      rw [← hlength]
      exact Numeral.digits_value (by decide) hvalues
    rw [accountDigits, hnumber, hdigits, List.map_map]
    refine ((List.map_congr_left fun c hc => ?_).trans (List.map_id digits)).symm
    exact digitChar_charValue (h c hc)
  · intro hdigits
    have hcheck := (check a).isLt
    have hdiv : accountNumber check a / 2 ^ 40 = a.toNat := by
      rw [accountNumber, Nat.add_comm, Nat.add_mul_div_right _ _ (by positivity),
        Nat.div_eq_of_lt hcheck, Nat.zero_add]
    have hmod : BitVec.ofNat 40 (accountNumber check a) = check a := by
      apply BitVec.eq_of_toNat_eq
      rw [BitVec.toNat_ofNat, accountNumber, Nat.mul_add_mod_self_right, Nat.mod_eq_of_lt hcheck]
    have haccount : BitVec.ofNat 256 (accountNumber check a / 2 ^ 40) = a := by
      rw [hdiv, BitVec.ofNat_toNat, BitVec.setWidth_eq]
    rw [Checked, hdigits, textNumber_accountDigits, haccount]
    exact ⟨hmod, rfl⟩

theorem decodeAccount_accountDigits (check : Uint256 → BitVec 40) (a : Uint256) :
    decodeAccount check (asciiBytes "xrb_" ++ accountDigits check a) = .ok (some a) := by
  have hdigits : ∀ c ∈ accountDigits check a, c ∈ accountLookup := fun _ => mem_accountDigits
  obtain ⟨hchecked, ha⟩ := (checked_iff_accountDigits length_accountDigits
    head_accountDigits hdigits a).mpr rfl
  rw [decodeAccount_of_shape (by decide) length_accountDigits,
    decodeRest_of_inTable length_accountDigits head_accountDigits fun c hc =>
      inTable_of_mem (hdigits c hc), if_pos hchecked, ha]

end AccountText

end RaiBlocks
