import RaiBlocks.Node.Endpoints

/-!
# The port of an endpoint

`parse_port` checks the number of characters that `std::stoul` used where it should check
the number, so that ports from 65536 on are cut to 16 bits. `std::stoul` also reads white
space and signs.
-/

namespace RaiBlocks

open Foundation

variable {front port text : List Char} {c : Char}

/-- The part after the last colon, or all if there is none. -/
def portText (text : List Char) : List Char := (text.reverse.takeWhile (· ≠ ':')).reverse

theorem portText_append (hport : ':' ∉ port) : portText (front ++ ':' :: port) = port := by
  have hall : ∀ c ∈ port.reverse, decide (c ≠ ':') = true := by
    intro c hc
    refine decide_eq_true ?_
    rintro rfl
    exact hport (List.mem_reverse.mp hc)
  rw [portText, List.reverse_append, List.reverse_cons, List.append_assoc,
    List.takeWhile_append_of_pos hall]
  simp

/-- The text splits at the position that is found, and there is no colon after it. -/
theorem rfind_eq_some {i : ℕ} (h : rfind text c = some i) :
    text = text.take i ++ c :: text.drop (i + 1) ∧ c ∉ text.drop (i + 1) := by
  rw [rfind, List.find?_eq_some_iff_append] at h
  obtain ⟨hi, before, after, heq, hbefore⟩ := h
  have hi : text[i]? = some c := of_decide_eq_true hi
  obtain ⟨hlt, hget⟩ := List.getElem?_eq_some_iff.mp hi
  constructor
  · rw [← hget, List.getElem_cons_drop, List.take_append_drop]
  · intro hmem
    obtain ⟨k, hk⟩ := List.mem_iff_getElem?.mp hmem
    rw [List.getElem?_drop] at hk
    -- The position of another occurrence would have been met before.
    have hk' : i + 1 + k < text.length := (List.getElem?_eq_some_iff.mp hk).1
    have hsorted : ((List.range text.length).reverse).Pairwise (· > ·) :=
      List.pairwise_reverse.mpr List.pairwise_lt_range
    rw [heq, List.pairwise_append, List.pairwise_cons] at hsorted
    have hin : i + 1 + k ∈ before ++ i :: after := by
      rw [← heq, List.mem_reverse, List.mem_range]
      exact hk'
    rcases List.mem_append.mp hin with hin | hin
    · have hnot := hbefore _ hin
      rw [hk] at hnot
      simp at hnot
    · rcases List.mem_cons.mp hin with hin | hin
      · omega
      · have := hsorted.2.1.1 _ hin
        omega

theorem rfind_append (hport : ':' ∉ port) :
    rfind (front ++ ':' :: port) ':' = some front.length := by
  cases hfind : rfind (front ++ ':' :: port) ':' with
  | none =>
    rw [rfind, List.find?_eq_none] at hfind
    simpa using hfind front.length (by simp)
  | some i =>
    obtain ⟨hsplit, hcolon⟩ := rfind_eq_some hfind
    have hafter : (front ++ ':' :: port).drop (i + 1) = port := by
      rw [← portText_append hcolon, ← hsplit, portText_append hport]
    have hlength := congrArg List.length hsplit
    rw [hafter] at hlength
    simp only [List.length_append, List.length_cons, List.length_take] at hlength
    congr 1
    omega

/-! ## Port texts -/

/-- White space, at most one sign, and the digits of a number of 64 bits. -/
structure PortNumeral (space sign digits : List Char) : Prop where
  space_isSpace : ∀ c ∈ space, isSpace c = true
  sign_eq : sign = [] ∨ sign = ['+'] ∨ sign = ['-']
  digits_isDigit : ∀ c ∈ digits, isDigit c = true
  digits_ne_nil : digits ≠ []
  number_lt : decimalValue digits < 2 ^ 64
  length_le : (space ++ (sign ++ digits)).length ≤ 65535

theorem ne_of_isDigit {d : Char} (hc : isDigit c = true) (hd : isDigit d = false) : c ≠ d := by
  rintro rfl
  exact absurd (hc.symm.trans hd) (by decide)

theorem not_isSpace_of_isDigit (hc : isDigit c = true) : isSpace c = false := by
  have hle : '0' ≤ c := of_decide_eq_true (Bool.and_eq_true_iff.mp hc).1
  rw [isSpace, decide_eq_false (ne_of_isDigit hc (by decide)), Bool.false_or, Bool.and_eq_false_iff]
  exact Or.inr (decide_eq_false fun h => absurd (Char.le_trans hle h) (by decide))

namespace PortNumeral

variable {space sign digits : List Char}

/-- What follows the white space does not start with any. -/
theorem takeWhile_isSpace (h : PortNumeral space sign digits) :
    (sign ++ digits).takeWhile isSpace = [] := by
  rcases h.sign_eq with rfl | rfl | rfl
  · cases digits with
    | nil => rfl
    | cons c rest =>
      have hc := not_isSpace_of_isDigit (h.digits_isDigit c List.mem_cons_self)
      simp [hc]
  · rfl
  · rfl

theorem filter_sign (h : PortNumeral space sign digits) :
    ((sign ++ digits).take 1).filter (fun c => c = '+' || c = '-') = sign := by
  rcases h.sign_eq with rfl | rfl | rfl
  · cases digits with
    | nil => rfl
    | cons c rest =>
      have hc := h.digits_isDigit c List.mem_cons_self
      have hplus := ne_of_isDigit hc (show isDigit '+' = false by decide)
      have hminus := ne_of_isDigit hc (show isDigit '-' = false by decide)
      simp [hplus, hminus]
  · rfl
  · rfl

/-- `std::stoul` uses all three parts. -/
theorem stoul_eq (h : PortNumeral space sign digits) :
    stoul (space ++ (sign ++ digits)) =
      some (if sign = ['-'] then -BitVec.ofNat 64 (decimalValue digits)
        else BitVec.ofNat 64 (decimalValue digits),
          space.length + sign.length + digits.length) := by
  have hspace : (space ++ (sign ++ digits)).takeWhile isSpace = space := by
    rw [List.takeWhile_append_of_pos h.space_isSpace, h.takeWhile_isSpace, List.append_nil]
  have hdigits : digits.takeWhile isDigit = digits :=
    List.takeWhile_eq_self_iff.mpr h.digits_isDigit
  simp only [stoul, hspace, List.drop_left, h.filter_sign, hdigits]
  exact if_neg (not_or.mpr ⟨h.digits_ne_nil, not_le.mpr h.number_lt⟩)

theorem parsePort_eq (h : PortNumeral space sign digits) :
    parsePort (space ++ (sign ++ digits)) =
      some ((if sign = ['-'] then -BitVec.ofNat 64 (decimalValue digits)
        else BitVec.ofNat 64 (decimalValue digits)).setWidth 16) := by
  have hlength : space.length + sign.length + digits.length =
      (space ++ (sign ++ digits)).length := by simp [Nat.add_assoc]
  rw [parsePort, h.stoul_eq]
  exact if_neg (not_or.mpr ⟨not_not.mpr hlength, not_lt.mpr (hlength ▸ h.length_le)⟩)

theorem colon_notMem (h : PortNumeral space sign digits) : ':' ∉ space ++ (sign ++ digits) := by
  simp only [List.mem_append, not_or]
  refine ⟨fun hmem => absurd (h.space_isSpace _ hmem) (by decide), ?_,
    fun hmem => absurd (h.digits_isDigit _ hmem) (by decide)⟩
  rcases h.sign_eq with rfl | rfl | rfl
  · exact List.not_mem_nil
  · decide
  · decide

/-- It has only digits if it has neither white space nor a sign. -/
theorem eq_nil_of_isDigit (h : PortNumeral space sign digits)
    (hall : ∀ c ∈ space ++ (sign ++ digits), isDigit c = true) : space = [] ∧ sign = [] := by
  simp only [List.mem_append] at hall
  constructor
  · refine List.eq_nil_iff_forall_not_mem.mpr fun c hc => ?_
    have := not_isSpace_of_isDigit (hall c (Or.inl hc))
    exact absurd (this.symm.trans (h.space_isSpace c hc)) (by decide)
  · rcases h.sign_eq with rfl | rfl | rfl
    · rfl
    · exact absurd (hall '+' (by simp)) (by decide)
    · exact absurd (hall '-' (by simp)) (by decide)

end PortNumeral

/-- **Only such texts are accepted.** -/
theorem portNumeral_of_parsePort {port : BitVec 16} (h : parsePort text = some port) :
    ∃ space sign digits, text = space ++ (sign ++ digits) ∧ PortNumeral space sign digits := by
  set space := text.takeWhile isSpace with hspace
  set rest := text.drop space.length with hrest
  set sign := (rest.take 1).filter (fun c => c = '+' || c = '-') with hsign
  set digits := (rest.drop sign.length).takeWhile isDigit with hdigits
  have hstoul : stoul text = if digits = [] ∨ 2 ^ 64 ≤ decimalValue digits then none
      else some (if sign = ['-'] then -BitVec.ofNat 64 (decimalValue digits)
        else BitVec.ofNat 64 (decimalValue digits),
        space.length + sign.length + digits.length) := rfl
  rw [parsePort, hstoul] at h
  by_cases hbad : digits = [] ∨ 2 ^ 64 ≤ decimalValue digits
  · rw [if_pos hbad] at h
    cases h
  rw [if_neg hbad] at h
  simp only [Option.ite_none_left_eq_some, not_or, not_not, not_lt] at h
  obtain ⟨⟨hlength, hle⟩, -⟩ := h
  obtain ⟨hne, hlt⟩ := not_or.mp hbad
  -- The three parts follow one another, and their lengths add up to that of the text.
  have hsplit : text = space ++ rest := by
    exact (List.prefix_iff_eq_append.mp (List.takeWhile_prefix isSpace)).symm
  have hsigns : (sign = [] ∨ sign = ['+'] ∨ sign = ['-']) ∧
      rest = sign ++ rest.drop sign.length := by
    rw [hsign]
    cases rest with
    | nil => exact ⟨Or.inl rfl, rfl⟩
    | cons c cs =>
      by_cases hplus : c = '+'
      · subst hplus
        exact ⟨Or.inr (Or.inl rfl), rfl⟩
      by_cases hminus : c = '-'
      · subst hminus
        exact ⟨Or.inr (Or.inr rfl), rfl⟩
      simp [hplus, hminus]
  have hdigits_eq : digits = rest.drop sign.length := by
    refine (List.takeWhile_prefix isDigit).eq_of_length ?_
    have hrest_length := congrArg List.length hsigns.2
    have htext_length := congrArg List.length hsplit
    rw [List.length_append] at hrest_length htext_length
    change digits.length = _
    omega
  have htext : text = space ++ (sign ++ digits) := by
    rw [hdigits_eq, ← hsigns.2]
    exact hsplit
  refine ⟨space, sign, digits, htext, ?_, hsigns.1, ?_, hne, not_le.mp hlt, ?_⟩
  · exact fun c hc => List.mem_takeWhile_imp hc
  · exact fun c hc => List.mem_takeWhile_imp hc
  · rw [← htext, ← hlength]
    exact hle

/-- **What the parser does**, at a text that ends with a port text. -/
theorem parseAddressPort_append {α : Type} (fromString : List Char → Option α)
    (hfront : front ≠ []) (hport : ':' ∉ port) :
    parseAddressPort fromString (front ++ ':' :: port) =
      (parsePort port).bind fun number =>
        (fromString front).map fun address => (address, number) := by
  have hafter : (front ++ ':' :: port).drop (front.length + 1) = port := by simp
  rw [parseAddressPort, rfind_append hport]
  simp only [if_pos (List.length_pos_iff.mpr hfront), hafter, List.take_left]
  cases parsePort port with
  | none => rfl
  | some number => rfl

/-- A text that is accepted has an address in front of the last colon. -/
theorem parseAddressPort_eq_some {α : Type} {fromString : List Char → Option α}
    {endpoint : α × BitVec 16} (h : parseAddressPort fromString text = some endpoint) :
    ∃ front port, text = front ++ ':' :: port ∧ ':' ∉ port ∧ front ≠ [] ∧
      (fromString front).isSome ∧ parsePort port = some endpoint.2 := by
  unfold parseAddressPort at h
  cases hfind : rfind text ':' with
  | none => simp [hfind] at h
  | some position =>
    obtain ⟨hsplit, hcolon⟩ := rfind_eq_some hfind
    simp only [hfind] at h
    split_ifs at h with hpos
    cases hparse : parsePort (text.drop (position + 1)) with
    | none => simp [hparse] at h
    | some port =>
      simp only [hparse] at h
      obtain ⟨address, haddress, rfl⟩ := Option.map_eq_some_iff.mp h
      refine ⟨text.take position, text.drop (position + 1), hsplit, hcolon, ?_, ?_, hparse⟩
      · intro hnil
        rcases List.take_eq_nil_iff.mp hnil with hzero | htext
        · exact absurd hzero hpos.ne'
        · simp [htext] at hsplit
      · rw [haddress]
        rfl

/-- The port text is a decimal number in the range of ports, and the port is this number. -/
def KeepsPort (text : List Char) (port : BitVec 16) : Prop :=
  portText text ≠ [] ∧ (∀ c ∈ portText text, isDigit c = true) ∧
    decimalValue (portText text) ≤ 65535 ∧ decimalValue (portText text) = port.toNat

/-- **When the port is kept.** Let the text be an address, a colon and a number of 64 bits,
possibly with white space and a sign in front of it. Then the endpoint that is parsed has the
port of the text exactly if there is no white space, no sign, and the number is a port. No
other text is accepted. -/
theorem endpoint_keeps_port_iff {α : Type} (fromString : List Char → Option α)
    (text : List Char) :
    ((∀ endpoint, parseEndpoint fromString text = some endpoint → KeepsPort text endpoint.2) ∧
      (∀ endpoint, parseTcpEndpoint fromString text = some endpoint → KeepsPort text endpoint.2)) ↔
    ∀ front space sign digits, text = front ++ ':' :: (space ++ (sign ++ digits)) →
      front ≠ [] → (fromString front).isSome → PortNumeral space sign digits →
      space = [] ∧ sign = [] ∧ decimalValue digits ≤ 65535 := by
  constructor
  · rintro ⟨hkeeps, -⟩ front space sign digits rfl hfront haddress hport
    obtain ⟨address, haddress⟩ := Option.isSome_iff_exists.mp haddress
    have hparse := parseAddressPort_append fromString hfront hport.colon_notMem
    rw [hport.parsePort_eq, haddress] at hparse
    obtain ⟨-, hdigits, hle, -⟩ := hkeeps _ hparse
    rw [portText_append hport.colon_notMem] at hdigits hle
    obtain ⟨hspace, hsign⟩ := hport.eq_nil_of_isDigit hdigits
    subst hspace hsign
    exact ⟨rfl, rfl, hle⟩
  · intro hcond
    have hkeeps : ∀ endpoint, parseAddressPort fromString text = some endpoint →
        KeepsPort text endpoint.2 := by
      intro endpoint hparse
      obtain ⟨front, port, rfl, hcolon, hfront, haddress, hport⟩ := parseAddressPort_eq_some hparse
      obtain ⟨space, sign, digits, rfl, hnumeral⟩ := portNumeral_of_parsePort hport
      obtain ⟨rfl, rfl, hle⟩ := hcond front space sign digits rfl hfront haddress hnumeral
      rw [hnumeral.parsePort_eq, if_neg (by decide), Option.some.injEq] at hport
      rw [KeepsPort, portText_append hcolon, ← hport]
      refine ⟨hnumeral.digits_ne_nil, hnumeral.digits_isDigit, hle, ?_⟩
      change decimalValue digits = _
      rw [BitVec.setWidth_ofNat_of_le (by decide), BitVec.toNat_ofNat,
        Nat.mod_eq_of_lt (Nat.lt_succ_of_le hle)]
    exact ⟨hkeeps, hkeeps⟩

/-- A port of 70000 becomes 4464, and the port -1 becomes 65535. Here every text is the text of
an address. -/
theorem large_port_accepted : parseEndpoint some "::1:70000".toList = some ("::1".toList, 4464) ∧
    parseTcpEndpoint some "::1:-1".toList = some ("::1".toList, 65535) := by
  decide +kernel

end RaiBlocks
