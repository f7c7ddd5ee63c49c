import Mathlib.Logic.Function.Iterate
import RaiBlocks.Lib.Text

/-!
# Balances as text

Translation of `format_frac`, `format_dec` and `format_balance` (`rai/lib/numbers.cpp`).
All numbers are natural numbers here: only the next power of ten can be more than a
parameter, and it has 256 bits. What can go wrong is a division by zero, for which the
library throws, and an index that is out of bounds.
-/

namespace RaiBlocks

open Foundation

inductive FormatFault where
  | divisionByZero
  | outOfBounds
  | outOfFuel
deriving DecidableEq

def divide (a b : ℕ) : Except FormatFault ℕ :=
  if b = 0 then .error .divisionByZero else .ok (a / b)

def index {α : Type} (l : List α) (i : ℕ) : Except FormatFault α :=
  match l[i]? with
  | some x => .ok x
  | none => .error .outOfBounds

/-! ## The fraction -/

structure FracState where
  reduce : ℕ
  rem : ℕ
  precision : ℕ
  stream : List Char

def fracDigit (s : FracState) : Except FormatFault FracState := do
  let reduce := s.reduce / 10
  let val ← divide s.rem reduce
  return ⟨reduce, s.rem - val * reduce, s.precision - 1, s.stream ++ decDigits val⟩

def formatFrac (stream : List Char) (value scale precision : ℕ) :
    Except FormatFault (List Char) := do
  let s ← whileLoop .outOfFuel
    (fun s : FracState => 1 < s.reduce && 0 < s.rem && 0 < s.precision)
    fracDigit precision ⟨scale, value, precision, stream⟩
  return s.stream

/-! ## The integer -/

/-- The first loop: the largest power of ten, and how many digits there are. -/
def largestPow10 (value : ℕ) : Except FormatFault (ℕ × ℕ) :=
  whileLoop .outOfFuel (fun s : ℕ × ℕ => s.1 * 10 ≤ value)
    (fun s => .ok (s.1 * 10, s.2 + 1)) 77 (1, 1)

/-- The second loop, with the number of digits that are left. A digit is marked if the group
before it, to its right, is full. The entries that are not assigned have no value. -/
def emitGroups (groupings : List ℕ) : ℕ → ℕ → ℕ → List Bool → Except FormatFault (List Bool)
  | 0, _, _, emitGroup => .ok emitGroup
  | n + 1, groupIndex, groupCount, emitGroup => do
    let size ← index groupings groupIndex
    if emitGroup.length < 39 then
      if size < groupCount + 1 then
        emitGroups groupings n (min (groupIndex + 1) (groupings.length - 1)) 1
          (emitGroup ++ [true])
      else emitGroups groupings n groupIndex (groupCount + 1) (emitGroup ++ [false])
    else .error .outOfBounds

/-- Without a separator the array is not used. -/
def markGroups (groupSep : Char) (groupings : List ℕ) (decCount : ℕ) :
    Except FormatFault (List Bool) :=
  if groupSep ≠ nul then emitGroups groupings decCount 0 0 [] else .ok []

structure DecState where
  reduce : ℕ
  rem : ℕ
  decCount : ℕ
  stream : List Char

/-- `emit_group[dec_count]`, after `dec_count--`. -/
def emitBefore (emitGroup : List Bool) : ℕ → Except FormatFault Bool
  | 0 => .error .outOfBounds
  | decCount + 1 => index emitGroup decCount

/-- The body of the third loop. -/
def decDigit (groupSep : Char) (emitGroup : List Bool) (s : DecState) :
    Except FormatFault DecState := do
  let val ← divide s.rem s.reduce
  let emit ← if groupSep ≠ nul then emitBefore emitGroup s.decCount else .ok false
  return ⟨s.reduce / 10, s.rem - val * s.reduce, s.decCount - 1,
    s.stream ++ decDigits val ++ if emit && 1 < s.reduce then [groupSep] else []⟩

def formatDec (stream : List Char) (value : ℕ) (groupSep : Char) (groupings : List ℕ) :
    Except FormatFault (List Char) := do
  let r ← largestPow10 value
  if 39 < r.2 then return stream
  else
    let emitGroup ← markGroups groupSep groupings r.2
    let s ← whileLoop .outOfFuel (fun s : DecState => 0 < s.reduce)
      (decDigit groupSep emitGroup) 39 ⟨r.1, value, r.2, stream⟩
    return s.stream

/-! ## The balance -/

/-- `prec_scale` after the loop. -/
def precScale (scale precision : ℕ) : ℕ := (· / 10)^[precision] scale

/-- Whether the balance is too small to be shown with this precision. The last condition is
evaluated only if the others hold. -/
def belowPrecision (intPart fracPart precScale : ℕ) : Except FormatFault Bool :=
  if intPart = 0 ∧ 0 < fracPart then do
    let shown ← divide fracPart precScale
    return shown = 0
  else return false

/-- Text like `< 0.01`. -/
def formatLeast (precision : ℕ) (decimalPoint : Char) : List Char :=
  "< ".toList ++ (if 0 < precision then
    ['0', decimalPoint] ++ List.replicate (precision - 1) '0' else []) ++ ['1']

def formatParts (intPart fracPart scale precision : ℕ) (groupSep decimalPoint : Char)
    (grouping : List ℕ) : Except FormatFault (List Char) := do
  let stream ← formatDec [] intPart groupSep grouping
  if 0 < precision ∧ 0 < fracPart then
    formatFrac (stream ++ [decimalPoint]) fracPart scale precision
  else return stream

/-- The argument `group_sep` of `format_dec`. -/
def groupSeparator (groupDigits : Bool) (thousandsSep : Char) (grouping : List ℕ) : Char :=
  if groupDigits && 0 < grouping.length then thousandsSep else nul

/-- `format_balance`. The grouping is a string of group sizes. -/
def formatBalance (balance scale : Uint128) (precision : ℕ) (groupDigits : Bool)
    (thousandsSep decimalPoint : Char) (grouping : List ℕ) :
    Except FormatFault (List Char) := do
  let intPart ← divide balance.toNat scale.toNat
  let fracPart := balance.toNat % scale.toNat
  let below ← belowPrecision intPart fracPart (precScale scale.toNat precision)
  if below then return formatLeast precision decimalPoint
  else
    formatParts intPart fracPart scale.toNat precision
      (groupSeparator groupDigits thousandsSep grouping) decimalPoint grouping

/-- 12345.678 with groups of 3 and then 1 digits. -/
example : (formatBalance 12345678 1000 2 true '-' '+' [3, 1]).toOption =
    some "1-2-345+67".toList := by
  decide +kernel

end RaiBlocks
