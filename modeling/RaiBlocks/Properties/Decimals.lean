import RaiBlocks.Lib.Numerals

/-!
# Amounts through the C interface

`xrb_uint128_to_dec` copies 32 characters of the decimal text. An amount has up to 39
digits, so of a large one the last digits are cut off, and what is left is the text of
a smaller amount, which is read without an error.
-/

namespace RaiBlocks

open Foundation Numeral

/-! ## Cutting off digits -/

theorem digitChar_ne_nul {d : ℕ} (hd : d < 10) : Nat.digitChar d ≠ nul := by
  have hall : ∀ i : Fin 10, Nat.digitChar i ≠ nul := by decide
  exact hall ⟨d, hd⟩

/-- Cutting off digits of a text leaves the text of another number. -/
theorem take_decDigits {x k : ℕ} (hk : 0 < k) (hsize : k ≤ size 10 x) :
    (decDigits x).take k = decDigits (x / 10 ^ (size 10 x - k)) := by
  obtain ⟨n, hn⟩ : ∃ n, size 10 x = n + 1 := ⟨Nat.log 10 x, rfl⟩
  obtain ⟨j, rfl⟩ : ∃ j, k = j + 1 := ⟨k - 1, by omega⟩
  rw [hn] at hsize ⊢
  have hsub : n + 1 - (j + 1) = n - j := by omega
  have hlt := lt_pow_size (b := 10) (by decide) x
  rw [hn] at hlt
  have hhigh : x / 10 ^ (n - j) < 10 ^ (j + 1) := by
    rw [Nat.div_lt_iff_lt_mul (by positivity), ← pow_add]
    have hexp : j + 1 + (n - j) = n + 1 := by omega
    rwa [hexp]
  have hcut : size 10 (x / 10 ^ (n - j)) = j + 1 := by
    rcases Nat.eq_zero_or_pos j with rfl | hj
    · rw [size, Nat.log_of_lt (by simpa using hhigh)]
    · refine size_eq_of_bounds ?_ hhigh
      obtain ⟨m, rfl⟩ : ∃ m, n = m + 1 := ⟨n - 1, by omega⟩
      rw [Nat.le_div_iff_mul_le (by positivity), ← pow_add]
      have hexp : j + (m + 1 - j) = m + 1 := by omega
      rw [hexp]
      exact pow_le_of_size hn
  rw [hsub, decDigits, decDigits, hn, hcut, ← List.map_take, take_digits hsize, hsub]

/-! ## The interface -/

/-- A text without the character 0 is found in the buffer, up to the first 32 characters. -/
theorem ofBuffer_strncpy {text : List Char} (htext : ∀ c ∈ text, c ≠ nul) :
    ofBuffer (strncpy (List.replicate 40 nul) text 32) = text.take 32 := by
  have hsource : ofBuffer text = text :=
    List.takeWhile_eq_self_iff.mpr fun c hc => decide_eq_true (htext c hc)
  have hcopied : ∀ c ∈ text.take 32, c ≠ nul := fun c hc => htext c (List.mem_of_mem_take hc)
  obtain ⟨n, hn⟩ : ∃ n, List.replicate (32 - (text.take 32).length) nul ++
      (List.replicate 40 nul).drop 32 = List.replicate (n + 1) nul := by
    refine ⟨32 - (text.take 32).length + 7, ?_⟩
    rw [List.drop_replicate, List.replicate_append_replicate]
  unfold strncpy
  rw [hsource, List.append_assoc, hn]
  unfold ofBuffer
  rw [List.takeWhile_append_of_pos fun c hc => decide_eq_true (hcopied c hc),
    List.replicate_succ, List.takeWhile_cons_of_neg (by simp), List.append_nil]

/-- What the interface reads is the number that the first 32 digits denote. -/
theorem fromDec_toDec (x : Uint128) :
    xrbUint128FromDec (xrbUint128ToDec x (List.replicate 40 nul)) =
      .ok (some (BitVec.ofNat 128 (x.toNat / 10 ^ (size 10 x.toNat - 32)))) := by
  have hnul : ∀ c ∈ decDigits x.toNat, c ≠ nul := by
    intro c hc
    obtain ⟨d, hd, rfl⟩ := mem_decDigits hc
    exact digitChar_ne_nul hd
  have hlt : x.toNat / 10 ^ (size 10 x.toNat - 32) < 2 ^ 128 :=
    (Nat.div_le_self ..).trans_lt x.isLt
  unfold xrbUint128FromDec xrbUint128ToDec Uint128.encodeDec
  rw [String.toList_ofList, ofBuffer_strncpy hnul, ← decodeDec_decDigits hlt]
  congr 2
  rcases Nat.lt_or_ge (size 10 x.toNat) 32 with hshort | hlong
  · rw [List.take_of_length_le (by rw [length_decDigits]; omega),
      Nat.sub_eq_zero_of_le hshort.le, pow_zero, Nat.div_one]
  · exact take_decDigits (by decide) hlong

/-- **Which amounts survive the C interface.** Exactly those of at most 32 digits. -/
theorem decimal_survives_iff (x : Uint128) :
    xrbUint128FromDec (xrbUint128ToDec x (List.replicate 40 nul)) = .ok (some x) ↔
      x.toNat < 10 ^ 32 := by
  rw [fromDec_toDec]
  have hlt := lt_pow_size (b := 10) (by decide) x.toNat
  constructor
  · intro h
    by_contra hlarge
    have heq := congrArg BitVec.toNat (Option.some.inj (Except.ok.inj h))
    rw [BitVec.toNat_ofNat, Nat.mod_eq_of_lt ((Nat.div_le_self ..).trans_lt x.isLt)] at heq
    have hsize : 32 < size 10 x.toNat := by
      by_contra hsize
      exact hlarge (hlt.trans_le (Nat.pow_le_pow_right (by decide) (not_lt.mp hsize)))
    have hpow : 1 < 10 ^ (size 10 x.toNat - 32) := Nat.one_lt_pow (by omega) (by decide)
    have hdiv := Nat.div_lt_self (by omega : 0 < x.toNat) hpow
    omega
  · intro hsmall
    have hsize : size 10 x.toNat ≤ 32 := by
      rw [size, Nat.add_one_le_iff]
      exact Nat.log_lt_of_lt_pow' (by decide) hsmall
    rw [Nat.sub_eq_zero_of_le hsize, pow_zero, Nat.div_one, BitVec.ofNat_toNat, BitVec.setWidth_eq]

/-- Of 10^32 the last digit is lost. -/
theorem amount_cut_short :
    xrbUint128FromDec (xrbUint128ToDec (10 ^ 32) (List.replicate 40 nul)) =
      .ok (some (10 ^ 31)) := by
  decide +kernel

end RaiBlocks
