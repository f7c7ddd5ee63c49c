import RaiBlocks.Foundation.Loop
import Mathlib.Data.List.Infix

/-!
# Parsers

A parser takes tokens from the front of a text. It yields a value or refuses the
text; what it leaves unread is known either way. Besides, it may fail: a fault is
one of the program and not of the text.

`yields_bind` takes the successful runs of a program apart, and `Safe` is built up
along a program: there is no fault, and all that is read belongs to the text.
-/

namespace RaiBlocks.Foundation

abbrev Parser (ε τ : Type) : Type → Type := OptionT (StateT (List τ) (Except ε))

namespace Parser

variable {ε τ α β : Type} {e : ε} {test : Bool} {x : Parser ε τ α} {f : α → Parser ε τ β}
  {text rest : List τ} {a : α} {r : List τ → Option (α × List τ)}

/-- Run a parser: what it yields, if it does not refuse, and what it leaves unread. -/
def parse (x : Parser ε τ α) (text : List τ) : Except ε (Option α × List τ) :=
  StateT.run (OptionT.run x) text

/-- The next `n` tokens. If there are fewer, these are used up. -/
def take (n : ℕ) : Parser ε τ (List τ) :=
  OptionT.mk fun text =>
    if n ≤ text.length then .ok (some (text.take n), text.drop n) else .ok (none, [])

/-- Refuse the text unless a test is passed. -/
def check (test : Bool) : Parser ε τ Unit :=
  OptionT.mk fun text => .ok (if test then some () else none, text)

/-- Fail unless a test is passed. -/
def require (fault : ε) (test : Bool) : Parser ε τ Unit :=
  OptionT.mk fun text => if test then .ok (some (), text) else .error fault

def fault (e : ε) : Parser ε τ α := OptionT.mk fun _ => .error e

/-- A reader that uses up the text when it refuses it. -/
def ofReader (r : List τ → Option (α × List τ)) : Parser ε τ α :=
  OptionT.mk fun text =>
    match r text with
    | some (a, rest) => .ok (some a, rest)
    | none => .ok (none, [])

/-! ## Running a program -/

theorem parse_pure (a : α) (text : List τ) :
    (pure a : Parser ε τ α).parse text = .ok (some a, text) := rfl

theorem parse_bind (x : Parser ε τ α) (f : α → Parser ε τ β) (text : List τ) :
    (x >>= f).parse text = x.parse text >>= fun r =>
      match r with
      | (some a, rest) => (f a).parse rest
      | (none, rest) => .ok (none, rest) := by
  change (StateT.run (OptionT.run x) text >>= fun r => StateT.run (OptionT.run _) r.2) = _
  congr 1
  funext r
  obtain ⟨a | a, rest⟩ := r
  · rfl
  · rfl

theorem parse_require (h : test = true) (text : List τ) :
    (require e test).parse text = .ok (some (), text) := if_pos h

theorem parse_bind_of_yields (h : x.parse text = .ok (some a, rest)) :
    (x >>= f).parse text = (f a).parse rest := by
  rw [parse_bind, h]
  rfl

theorem parse_bind_of_refuses (h : x.parse text = .ok (none, rest)) :
    (x >>= f).parse text = .ok (none, rest) := by
  rw [parse_bind, h]
  rfl

theorem parse_ofReader_none (h : r text = none) :
    (ofReader r : Parser ε τ α).parse text = .ok (none, []) := by
  change (match r text with | some (a, rest) => _ | none => _) = _
  rw [h]

/-! ## Successful runs -/

theorem yields_pure {b : α} :
    (pure a : Parser ε τ α).parse text = .ok (some b, rest) ↔ b = a ∧ text = rest := by
  rw [parse_pure, Except.ok.injEq, Prod.mk.injEq, Option.some.injEq, eq_comm (a := a)]

theorem yields_bind {b : β} :
    (x >>= f).parse text = .ok (some b, rest) ↔
      ∃ a mid, x.parse text = .ok (some a, mid) ∧ (f a).parse mid = .ok (some b, rest) := by
  rw [parse_bind]
  constructor
  · intro h
    obtain ⟨⟨a, mid⟩, hx, h⟩ := bind_eq_ok h
    cases a with
    | none => cases h
    | some a => exact ⟨a, mid, hx, h⟩
  · rintro ⟨a, mid, hx, h⟩
    rw [hx]
    exact h

theorem yields_take {n : ℕ} {l : List τ} :
    (take n : Parser ε τ (List τ)).parse text = .ok (some l, rest) ↔
      l.length = n ∧ text = l ++ rest := by
  change (if n ≤ text.length then _ else _) = _ ↔ _
  by_cases hn : n ≤ text.length
  · rw [if_pos hn, Except.ok.injEq, Prod.mk.injEq, Option.some.injEq]
    constructor
    · rintro ⟨rfl, rfl⟩
      exact ⟨by simpa using hn, (List.take_append_drop n text).symm⟩
    · rintro ⟨rfl, rfl⟩
      simp
  · rw [if_neg hn]
    refine iff_of_false (by simp) ?_
    rintro ⟨rfl, rfl⟩
    simp at hn

theorem yields_check {u : Unit} :
    (check test : Parser ε τ Unit).parse text = .ok (some u, rest) ↔
      test = true ∧ text = rest := by
  change Except.ok (if test = true then some () else none, text) = _ ↔ _
  cases test <;> simp

theorem yields_require {u : Unit} :
    (require e test : Parser ε τ Unit).parse text = .ok (some u, rest) ↔
      test = true ∧ text = rest := by
  change (if test = true then _ else _) = _ ↔ _
  cases test <;> simp

theorem yields_ofReader :
    (ofReader r : Parser ε τ α).parse text = .ok (some a, rest) ↔ r text = some (a, rest) := by
  change (match r text with | some (a, rest) => _ | none => _) = _ ↔ _
  cases r text with
  | none => simp
  | some x => simp [Prod.ext_iff]

/-! ## Safe runs -/

/-- There is no fault, and nothing but the text has been read. -/
def Safe (x : Parser ε τ α) (text : List τ) : Prop :=
  ∃ a rest, x.parse text = .ok (a, rest) ∧ rest <:+ text

theorem safe_pure (a : α) (text : List τ) : (pure a : Parser ε τ α).Safe text :=
  ⟨some a, text, rfl, List.suffix_refl _⟩

theorem Safe.bind (hx : x.Safe text)
    (hf : ∀ a rest, x.parse text = .ok (some a, rest) → (f a).Safe rest) : (x >>= f).Safe text := by
  obtain ⟨a, mid, hx, hmid⟩ := hx
  unfold Safe
  rw [parse_bind, hx]
  cases a with
  | none => exact ⟨none, mid, rfl, hmid⟩
  | some a =>
    obtain ⟨b, rest, hfa, hrest⟩ := hf a mid hx
    exact ⟨b, rest, hfa, hrest.trans hmid⟩

theorem safe_take (n : ℕ) (text : List τ) : (take n : Parser ε τ (List τ)).Safe text := by
  by_cases hn : n ≤ text.length
  · exact ⟨some (text.take n), text.drop n, if_pos hn, List.drop_suffix n text⟩
  · exact ⟨none, [], if_neg hn, List.nil_suffix⟩

theorem safe_check (test : Bool) (text : List τ) : (check test : Parser ε τ Unit).Safe text :=
  ⟨_, text, rfl, List.suffix_refl _⟩

theorem safe_require (h : test = true) (text : List τ) :
    (require e test : Parser ε τ Unit).Safe text :=
  ⟨some (), text, parse_require h text, List.suffix_refl _⟩

/-- A reader is safe if it gives back a rest of the text. -/
theorem safe_ofReader (h : ∀ a rest, r text = some (a, rest) → rest <:+ text) :
    (ofReader r : Parser ε τ α).Safe text := by
  cases hr : r text with
  | none => exact ⟨none, [], parse_ofReader_none hr, List.nil_suffix⟩
  | some x => exact ⟨some x.1, x.2, yields_ofReader.mpr hr, h _ _ hr⟩

end Parser

end RaiBlocks.Foundation
