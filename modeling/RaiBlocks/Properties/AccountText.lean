import RaiBlocks.Lib.AccountText

/-!
# Account numbers and their text

The digits of an account number have the base 32. `decode_account` wants to refuse the
characters that are no digits, which are marked with `~` in the table. But
`account_decode` has subtracted `0` from the entry before it is compared, so that such a
character counts as a digit of the value 78, and with the carry other texts denote the same
number. The character 127 fails an assertion.
-/

namespace RaiBlocks

open Foundation

open AccountText

/-- The decoder ends without a failed assertion, and it yields an account exactly for the texts
of this account: a prefix and the last 60 characters that are written for it. -/
def DecodesOwnText (check : Uint256 → BitVec 40) (source : List UInt8) : Prop :=
  ∃ result, decodeAccount check source = .ok result ∧
    ∀ a, result = some a ↔ ∃ pre ∈ prefixes, ∃ text,
      encodeAccount check a = .ok text ∧ source = pre ++ text.drop (text.length - 60)

namespace AccountText

variable {check : Uint256 → BitVec 40}

theorem exists_text_iff {source : List UInt8} {a : Uint256} :
    (∃ pre ∈ prefixes, ∃ text,
      encodeAccount check a = .ok text ∧ source = pre ++ text.drop (text.length - 60)) ↔
    ∃ pre ∈ prefixes, source = pre ++ accountDigits check a := by
  have hlast : (asciiBytes "xrb_" ++ accountDigits check a).drop
      ((asciiBytes "xrb_" ++ accountDigits check a).length - 60) = accountDigits check a := by
    rw [List.length_append, length_accountDigits, Nat.add_sub_cancel]
    exact List.drop_left
  refine exists_congr fun pre => and_congr_right fun _ => ?_
  rw [encodeAccount_eq]
  constructor
  · rintro ⟨text, htext, rfl⟩
    obtain rfl := Except.ok.inj htext
    rw [hlast]
  · rintro rfl
    exact ⟨_, rfl, by rw [hlast]⟩

theorem text_iff {pre digits : List UInt8} (hpre : pre ∈ prefixes) (hlen : digits.length = 60)
    {a : Uint256} :
    (∃ pre' ∈ prefixes, pre ++ digits = pre' ++ accountDigits check a) ↔
      digits = accountDigits check a := by
  constructor
  · rintro ⟨pre', -, heq⟩
    exact (List.append_inj' heq (hlen.trans length_accountDigits.symm)).2
  · intro heq
    exact ⟨pre, hpre, by rw [heq]⟩

/-- Digits for which the decoder goes wrong: the character 127 is reached, or some character is
no digit and the check is right nevertheless. -/
def Wild (check : Uint256 → BitVec 40) (digits : List UInt8) : Prop :=
  (∃ front rest, digits = front ++ 0x7f :: rest ∧ ∀ c ∈ front, InTable c) ∨
    ((∀ c ∈ digits, InTable c) ∧ (∃ c ∈ digits, c ∉ accountLookup) ∧ Checked check digits)

theorem exists_first_not {digits : List UInt8} (h : ¬ ∀ c ∈ digits, InTable c) :
    ∃ front c rest, digits = front ++ c :: rest ∧ (∀ x ∈ front, InTable x) ∧ ¬ InTable c := by
  have hfind : (digits.find? fun c => decide (¬ InTable c)).isSome := by
    rw [List.find?_isSome]
    simpa using h
  obtain ⟨c, hc⟩ := Option.isSome_iff_exists.mp hfind
  obtain ⟨hc, front, rest, heq, hfront⟩ := List.find?_eq_some_iff_append.mp hc
  refine ⟨front, c, rest, heq, fun x hx => ?_, of_decide_eq_true hc⟩
  simpa using hfront x hx

/-- **Which digits are decoded from their own text only.** -/
theorem decodeRest_iff_not_wild {digits : List UInt8} (hlen : digits.length = 60)
    (hfirst : digits.getD 0 0 = 0x31 ∨ digits.getD 0 0 = 0x33) :
    (∃ result, decodeRest check digits = .ok result ∧
      ∀ a, result = some a ↔ digits = accountDigits check a) ↔ ¬ Wild check digits := by
  by_cases hall : ∀ c ∈ digits, InTable c
  · have hdel : ¬ ∃ front rest, digits = front ++ 0x7f :: rest ∧ ∀ c ∈ front, InTable c := by
      rintro ⟨front, rest, heq, -⟩
      exact absurd (hall 0x7f (heq ▸ List.mem_append_right _ List.mem_cons_self)) (by decide)
    rw [decodeRest_of_inTable hlen hfirst hall]
    by_cases hdigits : ∀ c ∈ digits, c ∈ accountLookup
    · -- all are digits
      refine iff_of_true ⟨_, rfl, fun a => ?_⟩ ?_
      · rw [← checked_iff_accountDigits hlen hfirst hdigits]
        simp
      · rintro (h | ⟨-, ⟨c, hc, hno⟩, -⟩)
        · exact hdel h
        · exact hno (hdigits c hc)
    · have hother : ∀ a, digits ≠ accountDigits check a := by
        intro a heq
        exact hdigits fun c hc => mem_accountDigits (heq ▸ hc)
      have hno : ∃ c ∈ digits, c ∉ accountLookup := by simpa using hdigits
      constructor
      · rintro ⟨result, hresult, hiff⟩ (h | ⟨-, -, hchecked⟩)
        · exact hdel h
        · rw [if_pos hchecked] at hresult
          exact hother _ ((hiff _).mp (Except.ok.inj hresult).symm)
      · intro hwild
        have hchecked : ¬ Checked check digits := fun h => hwild (Or.inr ⟨hall, hno, h⟩)
        refine ⟨none, by rw [if_neg hchecked], fun a => ?_⟩
        exact iff_of_false (Option.some_ne_none a).symm (hother a)
  · obtain ⟨front, c, rest, heq, hfront, hc⟩ := exists_first_not hall
    have hloop := decodeDigits_of_not_inTable hfront hc rest 0
    rw [← heq] at hloop
    have hrest : decodeRest check digits =
        (decodeDigits digits (BitVec.ofNat 512 0)).map (finish check) := if_pos hfirst
    rw [hrest, hloop]
    by_cases hdel : c = 0x7f
    · subst hdel
      rw [if_pos rfl]
      refine iff_of_false ?_ (not_not.mpr (Or.inl ⟨front, rest, heq, hfront⟩))
      rintro ⟨result, hresult, -⟩
      cases hresult
    · rw [if_neg hdel]
      refine iff_of_true ⟨none, rfl, fun a => ?_⟩ ?_
      · refine iff_of_false (Option.some_ne_none a).symm fun hdigits => ?_
        have hmem : c ∈ digits := heq ▸ List.mem_append_right _ List.mem_cons_self
        exact hc (inTable_of_mem (mem_accountDigits (hdigits ▸ hmem)))
      · -- the loop does not reach the character 127, since it ends before
        rintro (⟨front', rest', heq', hfront'⟩ | ⟨h, -⟩)
        · have hloop' := decodeDigits_of_not_inTable (c := 0x7f) hfront' (by decide)
            rest' 0
          rw [← heq', hloop, if_neg hdel, if_pos rfl] at hloop'
          cases hloop'
        · exact hall h

end AccountText

/-- **Which texts are decoded only as their own account.** All but those of the right shape
(a prefix and 60 characters, the first of which is 1 or 3) in which the character 127 is reached,
or some character is no digit but the check of the number is right. -/
theorem account_text_iff (check : Uint256 → BitVec 40) (source : List UInt8) :
    DecodesOwnText check source ↔
      ∀ pre ∈ prefixes, ∀ digits : List UInt8, digits.length = 60 → source = pre ++ digits →
        (digits.getD 0 0 = 0x31 ∨ digits.getD 0 0 = 0x33) → ¬ Wild check digits := by
  unfold DecodesOwnText
  simp only [exists_text_iff]
  by_cases hshape : ∃ pre ∈ prefixes, ∃ digits : List UInt8, digits.length = 60 ∧
      source = pre ++ digits
  · obtain ⟨pre, hpre, digits, hlen, rfl⟩ := hshape
    simp only [text_iff hpre hlen, decodeAccount_of_shape hpre hlen]
    by_cases hfirst : digits.getD 0 0 = 0x31 ∨ digits.getD 0 0 = 0x33
    · rw [decodeRest_iff_not_wild hlen hfirst]
      constructor
      · intro hwild pre' _ digits' hlen' heq _
        obtain rfl := (List.append_inj' heq (hlen.trans hlen'.symm)).2
        exact hwild
      · intro h
        exact h pre hpre digits hlen rfl hfirst
    · refine iff_of_true ⟨none, if_neg hfirst, fun a => ?_⟩ ?_
      · refine iff_of_false (Option.some_ne_none a).symm fun heq => hfirst ?_
        rw [heq]
        exact head_accountDigits
      · intro pre' _ digits' hlen' heq hfirst'
        obtain rfl := (List.append_inj' heq (hlen.trans hlen'.symm)).2
        exact absurd hfirst' hfirst
  · have hno : ∀ pre ∈ prefixes, ∀ digits : List UInt8, digits.length = 60 →
        source ≠ pre ++ digits :=
      fun pre hpre digits hlen heq => hshape ⟨pre, hpre, digits, hlen, heq⟩
    refine iff_of_true ⟨none, decodeAccount_of_no_shape hno, fun a => ?_⟩ ?_
    · refine iff_of_false (Option.some_ne_none a).symm ?_
      rintro ⟨pre, hpre, heq⟩
      exact hno pre hpre _ length_accountDigits heq
    · intro pre hpre digits hlen heq
      exact absurd heq (hno pre hpre digits hlen)

/-- The character 0 is no digit. Its value 78 is that of the digits `4g`, so that there are two
texts for this account. And the character 127 fails an assertion. -/
theorem other_text_accepted :
    encodeAccount (fun _ => 0) 78 = .ok (asciiBytes
      "xrb_111111111111111111111111111111111111111111111111114g11111111") ∧
    decodeAccount (fun _ => 0) (asciiBytes
      "xrb_111111111111111111111111111111111111111111111111111011111111") = .ok (some 78) ∧
    decodeAccount (fun _ => 0) (asciiBytes "xrb_1" ++ List.replicate 59 0x7f) =
      .error .assertion := by
  decide +kernel

end RaiBlocks
