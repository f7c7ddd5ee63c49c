import Mathlib.Algebra.Order.Floor.Semifield
import RaiBlocks.Lib.Balance
import RaiBlocks.Lib.Numerals

/-!
# Balances and their text

`format_balance` writes the balance in units of the scale, cut off after the given number of
decimals, and a balance that is not zero but would be shown as zero as less than the least
number with these decimals. To find out whether it would, the scale is divided by ten as
often as there are decimals. With more decimals than the scale has digits this leaves
zero, by which the balance is divided then.
-/

namespace RaiBlocks

open Foundation Numeral

/-! ## Numerals -/

/-- `text` is `plain` with separators put in. -/
inductive Separated (sep : Char) : List Char → List Char → Prop where
  | nil : Separated sep [] []
  | keep (c : Char) {plain text : List Char} (h : Separated sep plain text) :
      Separated sep (c :: plain) (c :: text)
  | insert {plain text : List Char} (h : Separated sep plain text) :
      Separated sep plain (sep :: text)

/-- A decimal numeral: digits, and behind the point, if any, more digits. -/
def Denotes (decimalPoint : Char) (text : List Char) (q : ℚ) : Prop :=
  ∃ whole fraction : List ℕ, whole ≠ [] ∧ (∀ d ∈ whole ++ fraction, d < 10) ∧
    text = whole.map Nat.digitChar ++
      (if fraction = [] then [] else decimalPoint :: fraction.map Nat.digitChar) ∧
    q = value 10 whole + value 10 fraction / 10 ^ fraction.length

namespace Separated

variable {sep : Char} {plain text plain' text' : List Char}

theorem refl (sep : Char) : ∀ text, Separated sep text text
  | [] => .nil
  | c :: text => .keep c (refl sep text)

theorem append (h : Separated sep plain text) (h' : Separated sep plain' text') :
    Separated sep (plain ++ plain') (text ++ text') := by
  induction h with
  | nil => exact h'
  | keep c _ ih => exact .keep c ih
  | insert _ ih => exact .insert ih

end Separated

namespace Balance

variable {b i value k p precision : ℕ} {groupings grouping : List ℕ} {groupSep sep point : Char}
  {emitGroup : List Bool} {s : DecState} {stream : List Char}

theorem decDigits_of_lt {d : ℕ} (hd : d < 10) : decDigits d = [Nat.digitChar d] := by
  have hsize : size 10 d = 1 := by rw [size, Nat.log_of_lt hd]
  rw [decDigits, hsize, digits, digits, Nat.mod_eq_of_lt hd]
  rfl

theorem divide_of_pos {a : ℕ} (hb : 0 < b) : divide a b = .ok (a / b) := if_neg hb.ne'

theorem index_of_lt {α : Type} {l : List α} (h : i < l.length) : ∃ x, index l i = .ok x := by
  refine ⟨l[i], ?_⟩
  rw [index, List.getElem?_eq_getElem h]

/-! ## The integer -/

/-- The state of the first loop when `n` digits have been counted behind the first one. -/
def Counted (value k : ℕ) (s : ℕ × ℕ) : Prop :=
  ∃ n, n + k = 38 ∧ (n = 0 ∨ 10 ^ n ≤ value) ∧ s = (10 ^ n, n + 1)

theorem Counted.step {s : ℕ × ℕ} (hvalue : value < 10 ^ 39) (h : Counted value k s)
    (hcond : s.1 * 10 ≤ value) : ∃ k' < k, Counted value k' (s.1 * 10, s.2 + 1) := by
  obtain ⟨n, hn, -, rfl⟩ := h
  have hnext : 10 ^ (n + 1) ≤ value := by rwa [pow_succ]
  have hlt : n + 1 < 39 :=
    (Nat.pow_lt_pow_iff_right (by decide)).mp (hnext.trans_lt hvalue)
  exact ⟨k - 1, by omega, n + 1, by omega, Or.inr hnext, rfl⟩

theorem largestPow10_eq (hvalue : value < 10 ^ 39) :
    ∃ n ≤ 38, size 10 value = n + 1 ∧ largestPow10 value = .ok (10 ^ n, n + 1) := by
  obtain ⟨k, s, hs, ⟨n, hn, hlow, rfl⟩, hend⟩ :
      ∃ k s, largestPow10 value = .ok s ∧ Counted value k s ∧
        decide (s.1 * 10 ≤ value) = false := by
    refine whileLoop_total (fun k s h hcond => ?_) 77 38 (1, 1) (by decide)
      ⟨0, rfl, Or.inl rfl, rfl⟩
    obtain ⟨k', hk, h'⟩ := h.step hvalue (of_decide_eq_true hcond)
    exact ⟨k', _, rfl, hk, h'⟩
  have hhigh : value < 10 ^ (n + 1) := by
    rw [pow_succ]
    exact not_le.mp (of_decide_eq_false hend)
  refine ⟨n, by omega, ?_, hs⟩
  rcases hlow with rfl | hlow
  · rw [size, Nat.log_of_lt (by simpa using hhigh)]
  · exact size_eq_of_bounds hlow hhigh

theorem emitGroups_ok (n : ℕ) :
    ∀ (groupIndex groupCount : ℕ) (emitGroup : List Bool), groupIndex < groupings.length →
      emitGroup.length + n ≤ 39 →
      ∃ l, emitGroups groupings n groupIndex groupCount emitGroup = .ok l ∧
        l.length = emitGroup.length + n := by
  induction n with
  | zero => exact fun _ _ emitGroup _ _ => ⟨emitGroup, rfl, rfl⟩
  | succ n ih =>
    intro groupIndex groupCount emitGroup hindex hlen
    have hpush : ∀ b, (emitGroup ++ [b]).length = emitGroup.length + 1 := fun b => by simp
    obtain ⟨size, hsize⟩ := index_of_lt hindex
    rw [emitGroups, hsize, ok_bind, if_pos (by omega)]
    split
    · have hmin : min (groupIndex + 1) (groupings.length - 1) < groupings.length := by omega
      obtain ⟨l, hl, hlength⟩ := ih _ 1 (emitGroup ++ [true]) hmin (by rw [hpush]; omega)
      exact ⟨l, hl, by rw [hlength, hpush]; omega⟩
    · obtain ⟨l, hl, hlength⟩ := ih groupIndex (groupCount + 1) (emitGroup ++ [false]) hindex
        (by rw [hpush]; omega)
      exact ⟨l, hl, by rw [hlength, hpush]; omega⟩

theorem markGroups_ok {decCount : ℕ} (hcount : decCount ≤ 39)
    (hgroupings : groupSep ≠ nul → groupings ≠ []) :
    ∃ l, markGroups groupSep groupings decCount = .ok l ∧
      (groupSep ≠ nul → decCount ≤ l.length) := by
  by_cases hnul : groupSep = nul
  · exact ⟨[], if_neg (not_not.mpr hnul), fun h => absurd hnul h⟩
  · obtain ⟨l, hl, hlength⟩ := emitGroups_ok decCount 0 0 []
      (List.length_pos_of_ne_nil (hgroupings hnul)) (by simpa using hcount)
    refine ⟨l, (if_pos hnul).trans hl, fun _ => ?_⟩
    rw [hlength]
    exact Nat.le_add_left ..

theorem sub_div_mul (a b : ℕ) : a - a / b * b = a % b := by
  have := Nat.div_add_mod' a b
  omega

theorem pow_succ_div (m : ℕ) : 10 ^ (m + 1) / 10 = 10 ^ m := by
  rw [pow_succ, Nat.mul_div_cancel _ (by decide)]

theorem decDigit_ok (hreduce : 0 < s.reduce)
    (hemit : groupSep ≠ nul → ∃ n, s.decCount = n + 1 ∧ n < emitGroup.length) :
    ∃ after, (after = [] ∨ groupSep ≠ nul ∧ after = [groupSep]) ∧
      decDigit groupSep emitGroup s = .ok ⟨s.reduce / 10, s.rem % s.reduce, s.decCount - 1,
        s.stream ++ decDigits (s.rem / s.reduce) ++ after⟩ := by
  rw [decDigit, divide_of_pos hreduce, ok_bind, sub_div_mul]
  by_cases hnul : groupSep = nul
  · refine ⟨[], Or.inl rfl, ?_⟩
    rw [if_neg (not_not.mpr hnul)]
    rfl
  · obtain ⟨n, hcount, hn⟩ := hemit hnul
    obtain ⟨emit, hemit⟩ := index_of_lt hn
    refine ⟨if emit && 1 < s.reduce then [groupSep] else [], ?_, ?_⟩
    · split
      · exact Or.inr ⟨hnul, rfl⟩
      · exact Or.inl rfl
    · rw [if_pos hnul, hcount, emitBefore, hemit]
      rfl

/-- The state of the third loop with `m` digits to go: what was written are the first digits of
the number, and `rem` has the others. -/
def Written (sep : Char) (stream : List Char) (all : List ℕ) (m : ℕ) (s : DecState) : Prop :=
  s.decCount = m ∧ s.reduce = 10 ^ m / 10 ∧ s.rem < 10 ^ m ∧
    ∃ done text, s.stream = stream ++ text ∧ Separated sep (done.map Nat.digitChar) text ∧
      done ++ digits 10 m s.rem = all

theorem Written.step {all : List ℕ} {m : ℕ} (hsep : groupSep = nul ∨ groupSep = sep)
    (hemit : groupSep ≠ nul → m ≤ emitGroup.length) (h : Written sep stream all m s)
    (hcond : 0 < s.reduce) :
    ∃ m' s', decDigit groupSep emitGroup s = .ok s' ∧ m' < m ∧
      Written sep stream all m' s' := by
  obtain ⟨hcount, hreduce, hrem, done, text, hstream, hdone, hall⟩ := h
  obtain ⟨m, rfl⟩ : ∃ n, m = n + 1 := by
    refine Nat.exists_eq_succ_of_ne_zero ?_
    rintro rfl
    exact absurd hcond (by rw [hreduce]; decide)
  rw [pow_succ_div] at hreduce
  obtain ⟨after, hafter, hstep⟩ := decDigit_ok hcond
    fun hnul => ⟨m, hcount, Nat.lt_of_succ_le (hemit hnul)⟩
  have hfirst : s.rem / s.reduce < 10 := by
    rw [hreduce, Nat.div_lt_iff_lt_mul (by positivity)]
    rwa [pow_succ'] at hrem
  have hinserted : Separated sep [] after := by
    rcases hafter with rfl | ⟨hnul, rfl⟩
    · exact .nil
    · rw [hsep.resolve_left hnul]
      exact .insert .nil
  refine ⟨m, _, hstep, m.lt_succ_self, ?_, ?_, ?_, done ++ [s.rem / s.reduce],
    text ++ (decDigits (s.rem / s.reduce) ++ after), ?_, ?_, ?_⟩
  · exact Nat.sub_eq_of_eq_add hcount
  · exact congrArg (· / 10) hreduce
  · rw [hreduce]
    exact Nat.mod_lt _ (by positivity)
  · rw [hstream, List.append_assoc, List.append_assoc]
  · rw [List.map_append, ← List.append_nil [s.rem / s.reduce], List.map_append,
      decDigits_of_lt hfirst]
    exact hdone.append ((Separated.refl sep _).append hinserted)
  · rw [digits_succ_of_lt (by decide) hrem] at hall
    rw [List.append_assoc, List.singleton_append, hreduce]
    exact hall

theorem formatDec_ok (hvalue : value < 10 ^ 39) (hsep : groupSep = nul ∨ groupSep = sep)
    (hgroupings : groupSep ≠ nul → groupings ≠ []) (stream : List Char) :
    ∃ text, formatDec stream value groupSep groupings = .ok (stream ++ text) ∧
      Separated sep (decDigits value) text := by
  obtain ⟨n, hn, hsize, hpow⟩ := largestPow10_eq hvalue
  obtain ⟨emitGroup, hemit, hlength⟩ := markGroups_ok (Nat.succ_le_succ hn) hgroupings
  have hlt : value < 10 ^ (n + 1) := hsize ▸ lt_pow_size (by decide) value
  obtain ⟨m, s, hloop, ⟨⟨hcount, hreduce, hrem, done, text, hstream, hdone, hall⟩, -⟩, hend⟩ :
      ∃ m s, whileLoop .outOfFuel (fun s : DecState => 0 < s.reduce)
          (decDigit groupSep emitGroup) 39 ⟨10 ^ n, value, n + 1, stream⟩ = .ok s ∧
        (Written sep stream (digits 10 (n + 1) value) m s ∧ m ≤ n + 1) ∧
        decide (0 < s.reduce) = false := by
    refine whileLoop_total (I := fun m s =>
      Written sep stream (digits 10 (n + 1) value) m s ∧ m ≤ n + 1)
      ?_ 39 (n + 1) _ (by omega) ⟨?_, le_rfl⟩
    · rintro m s ⟨h, hm⟩ hcond
      obtain ⟨m', s', hs', hlt, h'⟩ := h.step hsep (fun hnul => hm.trans (hlength hnul))
        (of_decide_eq_true hcond)
      exact ⟨m', s', hs', hlt, h', hlt.le.trans hm⟩
    · exact ⟨rfl, (pow_succ_div n).symm, hlt, [], [], (List.append_nil stream).symm, .nil, rfl⟩
  obtain rfl : m = 0 := by
    by_contra hm
    obtain ⟨m, rfl⟩ := Nat.exists_eq_succ_of_ne_zero hm
    have hpos : 0 < s.reduce := by
      rw [hreduce, pow_succ_div]
      positivity
    exact of_decide_eq_false hend hpos
  rw [digits, List.append_nil] at hall
  refine ⟨text, ?_, ?_⟩
  · rw [formatDec, hpow, ok_bind, if_neg (Nat.succ_le_succ hn).not_gt, hemit, ok_bind, hloop,
      ok_bind, hstream]
    rfl
  · rw [decDigits, hsize, ← hall]
    exact hdone

/-! ## The fraction -/

/-- The state of the loop with `j` decimals to go, when `i` have been written. -/
def Decimals (stream : List Char) (value k precision j : ℕ) (s : FracState) : Prop :=
  ∃ i, i + j = precision ∧ i ≤ k ∧ s.reduce = 10 ^ (k - i) ∧ s.rem = value % 10 ^ (k - i) ∧
    s.precision = j ∧ s.stream = stream ++ (digits 10 i (value / 10 ^ (k - i))).map Nat.digitChar

theorem Decimals.step {j : ℕ} {s : FracState} (h : Decimals stream value k precision j s)
    (hreduce : 1 < s.reduce) (hprecision : 0 < s.precision) :
    ∃ j' s', fracDigit s = .ok s' ∧ j' < j ∧ Decimals stream value k precision j' s' := by
  obtain ⟨i, hij, hik, hr, hrem, hj, hstream⟩ := h
  obtain ⟨m, hm⟩ : ∃ m, k - i = m + 1 := by
    refine Nat.exists_eq_succ_of_ne_zero fun h0 => ?_
    rw [hr, h0] at hreduce
    exact absurd hreduce (by decide)
  have hki : k - (i + 1) = m := by omega
  rw [hm] at hr hrem hstream
  -- the next digit of the number
  have hdigit : s.rem / 10 ^ m = value / 10 ^ m % 10 := by
    rw [hrem, pow_succ, Nat.mod_mul_right_div_self]
  have hrest : s.rem % 10 ^ m = value % 10 ^ m := by
    rw [hrem, pow_succ, Nat.mod_mul_right_mod]
  have hfirst : value / 10 ^ (m + 1) = value / 10 ^ m / 10 := by
    rw [pow_succ, Nat.div_div_eq_div_mul]
  have hstep : fracDigit s = .ok ⟨10 ^ m, s.rem % 10 ^ m, s.precision - 1,
      s.stream ++ decDigits (s.rem / 10 ^ m)⟩ := by
    rw [fracDigit, hr, pow_succ_div, divide_of_pos (by positivity), ok_bind, sub_div_mul]
    rfl
  refine ⟨j - 1, _, hstep, by omega, i + 1, by omega, by omega, ?_, ?_, ?_, ?_⟩
  · rw [hki]
  · rw [hki]
    exact hrest
  · exact congrArg (· - 1) hj
  · rw [hki, digits, List.map_append, List.map_singleton, ← List.append_assoc, ← hfirst,
      ← hstream, ← hdigit, decDigits_of_lt]
    rw [hdigit]
    exact Nat.mod_lt _ (by decide)

/-- The decimals that are written: as many as wanted, or the last ones are zero. -/
theorem formatFrac_ok (hpos : 0 < value) (hvalue : value < 10 ^ k) (hprecision : 0 < precision)
    (stream : List Char) :
    ∃ i, 0 < i ∧ i ≤ precision ∧ i ≤ k ∧ (value % 10 ^ (k - i) = 0 ∨ i = precision) ∧
      formatFrac stream value (10 ^ k) precision =
        .ok (stream ++ (digits 10 i (value / 10 ^ (k - i))).map Nat.digitChar) := by
  obtain ⟨j, s, hloop, ⟨i, hij, hik, hr, hrem, hj, hstream⟩, hend⟩ :
      ∃ j s, whileLoop .outOfFuel
          (fun s : FracState => 1 < s.reduce && 0 < s.rem && 0 < s.precision)
          fracDigit precision ⟨10 ^ k, value, precision, stream⟩ = .ok s ∧
        Decimals stream value k precision j s ∧
        (1 < s.reduce && 0 < s.rem && 0 < s.precision) = false := by
    refine whileLoop_total (fun j s h hcond => ?_) precision precision _ le_rfl
      ⟨0, Nat.zero_add _, Nat.zero_le _, rfl, (Nat.mod_eq_of_lt hvalue).symm, rfl, ?_⟩
    · simp only [Bool.and_eq_true, decide_eq_true_eq] at hcond
      exact h.step hcond.1.1 hcond.2
    · exact (List.append_nil stream).symm
  simp only [Bool.and_eq_false_iff, decide_eq_false_iff_not, not_lt] at hend
  have hdone : value % 10 ^ (k - i) = 0 ∨ i = precision := by
    rcases hend with (h | h) | h
    · have hone : 10 ^ (k - i) = 1 := le_antisymm (hr ▸ h) (Nat.one_le_pow _ _ (by decide))
      rw [hone, Nat.mod_one]
      exact Or.inl rfl
    · exact Or.inl (by omega)
    · exact Or.inr (by omega)
  refine ⟨i, ?_, by omega, hik, hdone, ?_⟩
  · -- at the start there is something left
    rcases hdone with h | h
    · refine Nat.pos_of_ne_zero ?_
      rintro rfl
      rw [Nat.sub_zero, Nat.mod_eq_of_lt hvalue] at h
      exact hpos.ne' h
    · exact h ▸ hprecision
  · rw [formatFrac, hloop, ok_bind, hstream]
    rfl

/-! ## The balance -/

theorem precScale_eq (scale precision : ℕ) :
    precScale scale precision = scale / 10 ^ precision := by
  induction precision with
  | zero => exact (Nat.div_one scale).symm
  | succ n ih =>
    rw [precScale, Function.iterate_succ_apply', ← precScale, ih, Nat.div_div_eq_div_mul, pow_succ]

theorem floor_eq (b k p : ℕ) : ⌊(b : ℚ) / 10 ^ k * 10 ^ p⌋₊ = b * 10 ^ p / 10 ^ k := by
  have hq : (b : ℚ) / 10 ^ k * 10 ^ p = ((b * 10 ^ p : ℕ) : ℚ) / ((10 ^ k : ℕ) : ℚ) := by
    push_cast
    ring
  rw [hq, Nat.floor_div_eq_div]

/-- The first `i` decimals of a fraction are all if the others are not wanted or zero. -/
theorem decimals_eq {v : ℕ} (hip : i ≤ p) (hik : i ≤ k) (h : v % 10 ^ (k - i) = 0 ∨ i = p) :
    v * 10 ^ p / 10 ^ k * 10 ^ i = v / 10 ^ (k - i) * 10 ^ p := by
  rcases h with h | rfl
  · have hv : v / 10 ^ (k - i) * 10 ^ (k - i) = v := Nat.div_mul_cancel (Nat.dvd_of_mod_eq_zero h)
    have hpow : v * 10 ^ p = v / 10 ^ (k - i) * 10 ^ (p - i) * 10 ^ k := by
      calc v * 10 ^ p
          = v / 10 ^ (k - i) * 10 ^ (k - i) * (10 ^ (p - i) * 10 ^ i) := by
            rw [hv, ← pow_add, Nat.sub_add_cancel hip]
        _ = v / 10 ^ (k - i) * 10 ^ (p - i) * (10 ^ (k - i) * 10 ^ i) := by ring
        _ = _ := by rw [← pow_add, Nat.sub_add_cancel hik]
    rw [hpow, Nat.mul_div_cancel _ (by positivity), mul_assoc, ← pow_add, Nat.sub_add_cancel hip]
  · have hpow : 10 ^ k = 10 ^ (k - i) * 10 ^ i := by rw [← pow_add, Nat.sub_add_cancel hik]
    rw [hpow, Nat.mul_div_mul_right _ _ (by positivity)]

theorem cut_eq : b * 10 ^ p / 10 ^ k = b / 10 ^ k * 10 ^ p + b % 10 ^ k * 10 ^ p / 10 ^ k := by
  have hb : b * 10 ^ p = b % 10 ^ k * 10 ^ p + b / 10 ^ k * 10 ^ p * 10 ^ k := by
    conv_lhs => rw [← Nat.div_add_mod' b (10 ^ k)]
    ring
  rw [hb, Nat.add_mul_div_right _ _ (by positivity), Nat.add_comm]

theorem denotes_whole (h : p = 0 ∨ b % 10 ^ k = 0) :
    Denotes point (decDigits (b / 10 ^ k)) (⌊(b : ℚ) / 10 ^ k * 10 ^ p⌋₊ / 10 ^ p) := by
  refine ⟨digits 10 (size 10 (b / 10 ^ k)) (b / 10 ^ k), [], ?_, ?_, ?_, ?_⟩
  · exact List.ne_nil_of_length_pos (by simp [size])
  · rw [List.append_nil]
    exact fun d hd => lt_of_mem_digits (by decide) hd
  · rw [if_pos rfl, List.append_nil]
    rfl
  · have hcut : b * 10 ^ p / 10 ^ k = b / 10 ^ k * 10 ^ p := by
      rw [cut_eq]
      rcases h with rfl | h
      · rw [pow_zero, mul_one, mul_one, Nat.div_eq_of_lt (Nat.mod_lt b (by positivity)),
          Nat.add_zero]
      · rw [h, Nat.zero_mul, Nat.zero_div, Nat.add_zero]
    rw [floor_eq, hcut, value_digits_size (by decide), Nat.cast_mul, Nat.cast_pow]
    simp

theorem denotes_decimals (hi : 0 < i) (hip : i ≤ p) (hik : i ≤ k)
    (h : b % 10 ^ k % 10 ^ (k - i) = 0 ∨ i = p) :
    Denotes point (decDigits (b / 10 ^ k) ++ point ::
        (digits 10 i (b % 10 ^ k / 10 ^ (k - i))).map Nat.digitChar)
      (⌊(b : ℚ) / 10 ^ k * 10 ^ p⌋₊ / 10 ^ p) := by
  refine ⟨digits 10 (size 10 (b / 10 ^ k)) (b / 10 ^ k),
    digits 10 i (b % 10 ^ k / 10 ^ (k - i)), ?_, ?_, ?_, ?_⟩
  · exact List.ne_nil_of_length_pos (by simp [size])
  · intro d hd
    rcases List.mem_append.mp hd with hd | hd
    · exact lt_of_mem_digits (by decide) hd
    · exact lt_of_mem_digits (by decide) hd
  · rw [if_neg (List.ne_nil_of_length_pos (by simpa using hi))]
    rfl
  · have hlt : b % 10 ^ k / 10 ^ (k - i) < 10 ^ i := by
      rw [Nat.div_lt_iff_lt_mul (by positivity), ← pow_add, Nat.add_sub_cancel' hik]
      exact Nat.mod_lt b (by positivity)
    have hdecimals := decimals_eq hip hik h
    rw [floor_eq, cut_eq, value_digits_size (by decide), value_digits_of_lt hlt, length_digits]
    have hq : ((b % 10 ^ k * 10 ^ p / 10 ^ k : ℕ) : ℚ) * 10 ^ i =
        ((b % 10 ^ k / 10 ^ (k - i) : ℕ) : ℚ) * 10 ^ p := by exact_mod_cast hdecimals
    rw [Nat.cast_add, Nat.cast_mul, Nat.cast_pow, Nat.cast_ofNat]
    field_simp
    linear_combination hq

/-- The numeral for the least number with these decimals. -/
theorem denotes_least (point : Char) (p : ℕ) :
    ∃ numeral, formatLeast p point = "< ".toList ++ numeral ∧
      Denotes point numeral (1 / 10 ^ p) := by
  refine ⟨_, List.append_assoc .., ?_⟩
  cases p with
  | zero =>
    refine ⟨[1], [], by simp, by simp, rfl, ?_⟩
    simp [value]
  | succ n =>
    have hvalue : value 10 (List.replicate n 0) = 0 := by
      induction n with
      | zero => rfl
      | succ n ih => rw [List.replicate_succ, value_cons, ih]; simp
    refine ⟨[0], List.replicate n 0 ++ [1], by simp, ?_, ?_, ?_⟩
    · intro d hd
      simp only [List.mem_append, List.mem_singleton, List.mem_replicate] at hd
      omega
    · have hne : List.replicate n 0 ++ [1] ≠ [] := List.append_ne_nil_of_right_ne_nil _ (by simp)
      rw [if_pos n.succ_pos, if_neg hne, List.map_append, List.map_replicate]
      rfl
    · rw [value_append_singleton, hvalue]
      simp [value]

/-- The division by `prec_scale`. -/
theorem belowPrecision_eq (b k p : ℕ) :
    belowPrecision (b / 10 ^ k) (b % 10 ^ k) (precScale (10 ^ k) p) =
      if 0 < b ∧ b < 10 ^ k ∧ k < p then .error .divisionByZero
      else .ok (decide (0 < b ∧ b * 10 ^ p < 10 ^ k)) := by
  by_cases hsmall : 0 < b ∧ b < 10 ^ k
  · obtain ⟨hpos, hlt⟩ := hsmall
    rw [belowPrecision, Nat.div_eq_of_lt hlt, Nat.mod_eq_of_lt hlt, if_pos ⟨rfl, hpos⟩,
      precScale_eq]
    by_cases hkp : k < p
    · rw [if_pos ⟨hpos, hlt, hkp⟩, Nat.div_eq_of_lt (Nat.pow_lt_pow_right (by decide) hkp)]
      rfl
    · have hscale : 10 ^ k / 10 ^ p = 10 ^ (k - p) := Nat.pow_div (by omega) (by decide)
      have hshown : b / 10 ^ (k - p) = 0 ↔ 0 < b ∧ b * 10 ^ p < 10 ^ k := by
        have hpow : 10 ^ k = 10 ^ (k - p) * 10 ^ p := by
          rw [← pow_add, Nat.sub_add_cancel (by omega)]
        rw [Nat.div_eq_zero_iff_lt (by positivity), hpow, Nat.mul_lt_mul_right (by positivity)]
        exact ⟨fun h => ⟨hpos, h⟩, And.right⟩
      rw [if_neg (fun h => hkp h.2.2), hscale, divide_of_pos (by positivity), ok_bind]
      exact congrArg Except.ok (decide_eq_decide.mpr hshown)
  · have hcond : ¬ (b / 10 ^ k = 0 ∧ 0 < b % 10 ^ k) := by
      rintro ⟨hzero, hpos⟩
      have hlt := (Nat.div_eq_zero_iff_lt (by positivity)).mp hzero
      rw [Nat.mod_eq_of_lt hlt] at hpos
      exact hsmall ⟨hpos, hlt⟩
    have hnot : ¬ (0 < b ∧ b * 10 ^ p < 10 ^ k) := by
      rintro ⟨hpos, hlt⟩
      exact hsmall ⟨hpos, (Nat.le_mul_of_pos_right b (by positivity)).trans_lt hlt⟩
    rw [belowPrecision, if_neg hcond, if_neg (fun h => hsmall ⟨h.1, h.2.1⟩), decide_eq_false hnot]
    rfl

theorem formatBalance_eq (hk : k < 39) (balance : Uint128) (precision : ℕ) (groupDigits : Bool)
    (thousandsSep decimalPoint : Char) (grouping : List ℕ) :
    formatBalance balance (BitVec.ofNat 128 (10 ^ k)) precision groupDigits thousandsSep
        decimalPoint grouping =
      if 0 < balance.toNat ∧ balance.toNat < 10 ^ k ∧ k < precision then .error .divisionByZero
      else if 0 < balance.toNat ∧ balance.toNat * 10 ^ precision < 10 ^ k then
        .ok (formatLeast precision decimalPoint)
      else
        formatParts (balance.toNat / 10 ^ k) (balance.toNat % 10 ^ k) (10 ^ k) precision
          (groupSeparator groupDigits thousandsSep grouping) decimalPoint grouping := by
  have hscale : (BitVec.ofNat 128 (10 ^ k)).toNat = 10 ^ k := by
    rw [BitVec.toNat_ofNat, Nat.mod_eq_of_lt]
    exact (Nat.pow_le_pow_right (by decide) (Nat.lt_succ_iff.mp hk)).trans_lt (by norm_num)
  simp only [formatBalance, hscale]
  rw [divide_of_pos (by positivity), ok_bind, belowPrecision_eq]
  split_ifs with hbad hbelow
  · rfl
  · rw [decide_eq_true hbelow]
    rfl
  · rw [decide_eq_false hbelow]
    rfl

theorem groupSeparator_eq (groupDigits : Bool) (thousandsSep : Char) (grouping : List ℕ) :
    groupSeparator groupDigits thousandsSep grouping = nul ∨
      groupSeparator groupDigits thousandsSep grouping = thousandsSep := by
  rw [groupSeparator]
  split
  · exact Or.inr rfl
  · exact Or.inl rfl

theorem grouping_ne_nil {groupDigits : Bool} {thousandsSep : Char}
    (h : groupSeparator groupDigits thousandsSep grouping ≠ nul) : grouping ≠ [] := by
  rintro rfl
  simp [groupSeparator] at h

/-- What is shown of a balance is a numeral with separators. -/
theorem formatParts_ok (hb : b < 10 ^ 39) (hsep : groupSep = nul ∨ groupSep = sep)
    (hgrouping : groupSep ≠ nul → grouping ≠ []) (point : Char) :
    ∃ text numeral, formatParts (b / 10 ^ k) (b % 10 ^ k) (10 ^ k) p groupSep point grouping =
        .ok text ∧ Separated sep numeral text ∧
      Denotes point numeral (⌊(b : ℚ) / 10 ^ k * 10 ^ p⌋₊ / 10 ^ p) := by
  obtain ⟨whole, hwhole, hsepar⟩ :=
    formatDec_ok ((Nat.div_le_self b _).trans_lt hb) hsep hgrouping []
  rw [formatParts, hwhole, ok_bind, List.nil_append]
  by_cases hfrac : 0 < p ∧ 0 < b % 10 ^ k
  · obtain ⟨i, hi, hip, hik, hdone, htext⟩ := formatFrac_ok hfrac.2
      (Nat.mod_lt b (by positivity)) hfrac.1 (whole ++ [point])
    rw [if_pos hfrac, htext, List.append_assoc, List.singleton_append]
    exact ⟨_, _, rfl, hsepar.append (.refl sep _), denotes_decimals hi hip hik hdone⟩
  · rw [if_neg hfrac]
    exact ⟨whole, _, rfl, hsepar, denotes_whole (by omega)⟩

theorem below_iff (b k p : ℕ) :
    (0 < (b : ℚ) / 10 ^ k ∧ (b : ℚ) / 10 ^ k < 1 / 10 ^ p) ↔ 0 < b ∧ b * 10 ^ p < 10 ^ k := by
  refine and_congr ?_ ?_
  · rw [div_pos_iff_of_pos_right (by positivity), Nat.cast_pos]
  · rw [div_lt_div_iff₀ (by positivity) (by positivity), one_mul]
    exact_mod_cast Iff.rfl

end Balance

open Balance

/-- There is a text, and it is that of the least number with these decimals, with `< ` before
it, exactly if the balance is less and not zero, and otherwise a numeral with separators for
what the balance is when cut off. -/
def ShowsBalance (balance : Uint128) (k precision : ℕ) (groupDigits : Bool)
    (thousandsSep decimalPoint : Char) (grouping : List ℕ) : Prop :=
  ∃ text, formatBalance balance (BitVec.ofNat 128 (10 ^ k)) precision groupDigits thousandsSep
      decimalPoint grouping = .ok text ∧ let q : ℚ := balance.toNat / 10 ^ k
    if 0 < q ∧ q < 1 / 10 ^ precision then
      ∃ numeral, text = "< ".toList ++ numeral ∧ Denotes decimalPoint numeral (1 / 10 ^ precision)
    else
      ∃ numeral, Separated thousandsSep numeral text ∧
        Denotes decimalPoint numeral (⌊q * 10 ^ precision⌋₊ / 10 ^ precision)

/-- **When the text denotes the balance.** Always, unless the balance is less than the scale
and not zero, and there are more decimals than the scale has digits behind the first. -/
theorem balance_text_iff (balance : Uint128) (k : Fin 39) (precision : ℕ) (groupDigits : Bool)
    (thousandsSep decimalPoint : Char) (grouping : List ℕ) :
    ShowsBalance balance k precision groupDigits thousandsSep decimalPoint grouping ↔
      ¬ (0 < balance.toNat ∧ balance.toNat < 10 ^ k.1 ∧ k < precision) := by
  rw [ShowsBalance, formatBalance_eq k.isLt]
  simp only [below_iff]
  by_cases hbad : 0 < balance.toNat ∧ balance.toNat < 10 ^ k.1 ∧ k < precision
  · rw [if_pos hbad]
    refine iff_of_false ?_ (not_not.mpr hbad)
    rintro ⟨text, htext, -⟩
    cases htext
  · rw [if_neg hbad]
    refine iff_of_true ?_ hbad
    by_cases hbelow : 0 < balance.toNat ∧ balance.toNat * 10 ^ precision < 10 ^ k.1
    · rw [if_pos hbelow]
      simp only [if_pos hbelow]
      exact ⟨_, rfl, denotes_least decimalPoint precision⟩
    · rw [if_neg hbelow]
      simp only [if_neg hbelow]
      have hlt : balance.toNat < 10 ^ 39 := balance.isLt.trans (by norm_num)
      obtain ⟨text, numeral, htext, hnumeral⟩ := formatParts_ok hlt
        (groupSeparator_eq groupDigits thousandsSep grouping) grouping_ne_nil decimalPoint
      exact ⟨text, htext, numeral, hnumeral⟩

/-- One raw in units of ten, with two decimals. -/
theorem one_raw_divides_by_zero :
    formatBalance 1 10 2 true ',' '.' [3] = .error .divisionByZero := by
  decide +kernel

end RaiBlocks
