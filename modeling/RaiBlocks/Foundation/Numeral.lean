import Mathlib.Data.Nat.Digits.Lemmas
import Mathlib.Tactic

/-!
# Numerals

Numbers to a base as lists of digits, the most significant first: the value of a
list of digits, and the digits of a number, a given number of them or as many as
it needs. `Nat.ofDigits` of Mathlib reads the digits in the other order.
-/

namespace RaiBlocks.Foundation.Numeral

variable {b n x : ℕ} {l : List ℕ}

/-- The number that the digits denote. The digits may be too large for the base. -/
def value (b : ℕ) (l : List ℕ) : ℕ := l.foldl (fun n d => n * b + d) 0

/-- The last `n` digits of a number. -/
def digits (b : ℕ) : ℕ → ℕ → List ℕ
  | 0, _ => []
  | n + 1, x => digits b n (x / b) ++ [x % b]

/-- The number of digits without leading zeros. Zero has one digit. -/
def size (b x : ℕ) : ℕ := Nat.log b x + 1

/-! ## Values -/

@[simp] theorem value_nil : value b [] = 0 := rfl

@[simp] theorem value_append_singleton (l : List ℕ) (d : ℕ) :
    value b (l ++ [d]) = value b l * b + d := by
  simp [value]

theorem value_eq_ofDigits (l : List ℕ) : value b l = Nat.ofDigits b l.reverse := by
  induction l using List.reverseRecOn with
  | nil => rfl
  | append_singleton l d ih =>
    rw [value_append_singleton, List.reverse_append, List.reverse_singleton,
      List.singleton_append, Nat.ofDigits_cons, ih]
    ring

theorem value_append (l l' : List ℕ) :
    value b (l ++ l') = value b l * b ^ l'.length + value b l' := by
  induction l' using List.reverseRecOn with
  | nil => simp
  | append_singleton l' d ih =>
    rw [← List.append_assoc, value_append_singleton, value_append_singleton, ih,
      List.length_append, List.length_singleton]
    ring

theorem value_cons (d : ℕ) (l : List ℕ) : value b (d :: l) = d * b ^ l.length + value b l := by
  have h := value_append (b := b) [d] l
  simpa [value] using h

theorem value_lt (hl : ∀ d ∈ l, d < b) : value b l < b ^ l.length := by
  induction l using List.reverseRecOn with
  | nil => simp
  | append_singleton l d ih =>
    have hd : d < b := hl d (by simp)
    have hrest : value b l < b ^ l.length := ih fun x hx => hl x (by simp [hx])
    rw [value_append_singleton, List.length_append, List.length_singleton, pow_succ]
    calc value b l * b + d < value b l * b + b := by omega
      _ = (value b l + 1) * b := by ring
      _ ≤ b ^ l.length * b := Nat.mul_le_mul_right b hrest

theorem value_mono {b' : ℕ} (hb : b ≤ b') (l : List ℕ) : value b l ≤ value b' l := by
  induction l using List.reverseRecOn with
  | nil => rfl
  | append_singleton l d ih =>
    rw [value_append_singleton, value_append_singleton]
    exact Nat.add_le_add_right (Nat.mul_le_mul ih hb) d

/-- Different numerals of one length denote different numbers. -/
theorem value_inj (hb : 1 < b) {l' : List ℕ} (hlen : l.length = l'.length) (hl : ∀ d ∈ l, d < b)
    (hl' : ∀ d ∈ l', d < b) (h : value b l = value b l') : l = l' := by
  rw [value_eq_ofDigits, value_eq_ofDigits] at h
  refine List.reverse_injective (Nat.ofDigits_inj_of_len_eq hb ?_ ?_ ?_ h)
  · simpa using hlen
  · simpa using hl
  · simpa using hl'

/-! ## Digits -/

@[simp] theorem length_digits (n x : ℕ) : (digits b n x).length = n := by
  induction n generalizing x with
  | zero => rfl
  | succ n ih => simp [digits, ih]

theorem lt_of_mem_digits (hb : 0 < b) {d : ℕ} (h : d ∈ digits b n x) : d < b := by
  induction n generalizing x with
  | zero => simp [digits] at h
  | succ n ih =>
    rcases List.mem_append.mp h with h | h
    · exact ih h
    · rw [List.mem_singleton.mp h]
      exact Nat.mod_lt x hb

theorem value_digits (n x : ℕ) : value b (digits b n x) = x % b ^ n := by
  induction n generalizing x with
  | zero => simp [digits, Nat.mod_one]
  | succ n ih =>
    rw [digits, value_append_singleton, ih, pow_succ, mul_comm (b ^ n), Nat.mod_mul]
    ring

theorem value_digits_of_lt (hx : x < b ^ n) : value b (digits b n x) = x := by
  rw [value_digits, Nat.mod_eq_of_lt hx]

/-- The digits of the value are the digits one started with. -/
theorem digits_value (hb : 1 < b) (hl : ∀ d ∈ l, d < b) : digits b l.length (value b l) = l := by
  refine value_inj hb (length_digits ..) (fun d hd => ?_) hl ?_
  · exact lt_of_mem_digits (by omega) hd
  · exact value_digits_of_lt (value_lt hl)

theorem digits_succ (n x : ℕ) : digits b (n + 1) x = x / b ^ n % b :: digits b n x := by
  induction n generalizing x with
  | zero => simp [digits]
  | succ n ih =>
    rw [digits, ih, digits, Nat.div_div_eq_div_mul, ← pow_succ', List.cons_append]

theorem digits_succ_of_lt (hb : 1 < b) (hx : x < b ^ (n + 1)) :
    digits b (n + 1) x = x / b ^ n :: digits b n (x % b ^ n) := by
  have hfirst : x / b ^ n < b := by
    rw [Nat.div_lt_iff_lt_mul (by positivity)]
    rwa [pow_succ'] at hx
  have hrest : digits b n (x % b ^ n) = digits b n x := by
    have hlt : ∀ y, ∀ d ∈ digits b n y, d < b := fun y d hd => lt_of_mem_digits (by omega) hd
    refine value_inj hb (by simp) (hlt _) (hlt _) ?_
    rw [value_digits, value_digits, Nat.mod_mod]
  rw [digits_succ, Nat.mod_eq_of_lt hfirst, hrest]

theorem take_digits {k : ℕ} (hk : k ≤ n) (x : ℕ) :
    (digits b n x).take k = digits b k (x / b ^ (n - k)) := by
  induction n generalizing x with
  | zero =>
    obtain rfl : k = 0 := by omega
    rfl
  | succ n ih =>
    rcases Nat.lt_or_ge n k with hlt | hle
    · obtain rfl : k = n + 1 := by omega
      rw [List.take_of_length_le (by simp), Nat.sub_self, pow_zero, Nat.div_one]
    · rw [digits, List.take_append_of_le_length (by simpa using hle), ih hle,
        Nat.div_div_eq_div_mul, ← pow_succ', Nat.succ_sub hle]

/-! ## As many digits as needed -/

theorem lt_pow_size (hb : 1 < b) (x : ℕ) : x < b ^ size b x := Nat.lt_pow_succ_log_self hb x

theorem value_digits_size (hb : 1 < b) (x : ℕ) : value b (digits b (size b x) x) = x :=
  value_digits_of_lt (lt_pow_size hb x)

theorem pow_le_of_size (h : size b x = n + 2) : b ^ (n + 1) ≤ x := by
  have hlog : Nat.log b x = n + 1 := by
    rw [size] at h
    omega
  have hx : x ≠ 0 := by
    rintro rfl
    simp at hlog
  rw [← hlog]
  exact Nat.pow_log_le_self b hx

theorem size_eq_of_bounds (hlow : b ^ n ≤ x) (hhigh : x < b ^ (n + 1)) : size b x = n + 1 := by
  rcases Nat.eq_zero_or_pos n with rfl | hn
  · rw [size, Nat.log_of_lt (by simpa using hhigh)]
  · rw [size, Nat.log_eq_of_pow_le_of_lt_pow hlow hhigh]

end RaiBlocks.Foundation.Numeral
