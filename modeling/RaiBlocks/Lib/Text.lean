import Mathlib.Data.List.TakeWhile
import RaiBlocks.Foundation.Loop
import RaiBlocks.Foundation.Numeral
import RaiBlocks.Lib.Blocks

/-!
# Numbers as text

Translation of the functions of `rai/lib/numbers.cpp` and `rai/lib/blocks.cpp` that
write a number as text and read it again, and of `xrb_uint128_to_dec` and
`xrb_uint128_from_dec` of the C interface (`rai/lib/interface.cpp`). A text has one
character for each byte.

Reading a number from a stream is left to the libraries, and here it is what they do:
white space is skipped, the characters that may occur in a number are taken up to the
first other one, and these are converted. With the flag `hex` the prefix `0x` is put
before them if it is not there, otherwise a number that starts with 0 is octal.
-/

namespace RaiBlocks

open Foundation

/-! ## Writing -/

/-- The last `n` digits of a number. -/
def hexDigits : ℕ → ℕ → List Char
  | 0, _ => []
  | n + 1, x => hexDigits n (x / 16) ++ [Nat.digitChar (x % 16)]

/-- `encode_hex`: 64 digits with leading zeros. -/
def encodeHex (x : Uint256) : String := String.ofList (hexDigits 64 x.toNat)

def Uint128.encodeHex (x : Uint128) : String := String.ofList (hexDigits 32 x.toNat)

/-- `uint512_union::encode_hex` -/
def Signature.encodeHex (x : Signature) : String := String.ofList (hexDigits 128 x.toNat)

def toStringHex (work : Work) : String := String.ofList (hexDigits 16 work.toNat)

/-- A number in decimal, without leading zeros. -/
def decDigits (x : ℕ) : List Char :=
  (Numeral.digits 10 (Numeral.size 10 x) x).map Nat.digitChar

/-- `uint128_union::encode_dec` -/
def Uint128.encodeDec (x : Uint128) : String := String.ofList (decDigits x.toNat)

/-! ## Reading from a stream -/

/-- What the library throws. -/
inductive Raised where
  /-- An exception that `catch (std::runtime_error &)` catches. -/
  | runtimeError
  /-- `std::out_of_range`, which is none. -/
  | outOfRange
deriving DecidableEq

def catchRuntimeError {α : Type} : Except Raised (Option α) → Except Raised (Option α)
  | .error .runtimeError => .ok none
  | x => x

/-- `isspace` -/
def isSpace (c : Char) : Bool := c = ' ' || ('\t' ≤ c && c ≤ '\r')

def hexCharacters : List Char := "+-xXabcdefABCDEF0123456789".toList

def decCharacters : List Char := "+-0123456789".toList

/-- The characters up to the first that is not permitted, and whether the stream is at
its end. -/
def readStringWhile (permitted : List Char) (text : List Char) : List Char × Bool :=
  let text := text.dropWhile isSpace
  (text.takeWhile (· ∈ permitted), (text.dropWhile (· ∈ permitted)).isEmpty)

def hexValue (c : Char) : Option ℕ :=
  if '0' ≤ c ∧ c ≤ '9' then some (c.toNat - '0'.toNat)
  else if 'a' ≤ c ∧ c ≤ 'f' then some (c.toNat - 'a'.toNat + 10)
  else if 'A' ≤ c ∧ c ≤ 'F' then some (c.toNat - 'A'.toNat + 10)
  else none

/-- None if a character is not a digit to the base. -/
def parseDigits (base : ℕ) (text : List Char) : Option ℕ :=
  (text.mapM fun c => (hexValue c).filter (· < base)).map (Numeral.value base)

/-- Converting a text to an unsigned number of `w` bits. A checked number has to be in
range. -/
def assign (w : ℕ) (checked : Bool) (text : List Char) : Except Raised (BitVec w) :=
  let negative := decide (text.head? = some '-')
  let text := if negative then text.tail else text
  let number :=
    if text.take 2 = ['0', 'x'] ∨ text.take 2 = ['0', 'X'] then parseDigits 16 (text.drop 2)
    else if text.head? = some '0' then parseDigits 8 text.tail
    else parseDigits 10 text
  match number with
  | none => .error .runtimeError
  | some n =>
    if checked && (negative || decide (2 ^ w ≤ n)) then .error .runtimeError
    else .ok (if negative then -BitVec.ofNat w n else BitVec.ofNat w n)

/-- The prefix goes after the signs. There must be something after them. -/
def insertHexPrefix (text : List Char) : Except Raised (List Char) :=
  if text.take 2 = ['0', 'x'] then .ok text
  else
    let sign : Char → Bool := fun c => c = '+' || c = '-'
    if text.dropWhile sign = [] then .error .outOfRange
    else .ok (text.takeWhile sign ++ ['0', 'x'] ++ text.dropWhile sign)

/-- `stream >> number` with the flag `hex`, and whether the stream is at its end. -/
def extractHex (w : ℕ) (text : List Char) : Except Raised (BitVec w × Bool) :=
  let r := readStringWhile hexCharacters text
  if r.1 = [] then .ok (0, r.2)
  else do
    let text ← insertHexPrefix r.1
    let number ← assign w false text
    return (number, r.2)

/-- `stream >> number` with the flag `dec`, for a checked number. -/
def extractDec (w : ℕ) (text : List Char) : Except Raised (BitVec w × Bool) :=
  let r := readStringWhile decCharacters text
  if r.1 = [] then .ok (0, r.2)
  else do
    let number ← assign w true r.1
    return (number, r.2)

/-! ## Numbers from text

All are none on error. -/

/-- The part that all `decode_hex` have in common. -/
def readHex (w : ℕ) (text : String) : Except Raised (Option (BitVec w)) :=
  catchRuntimeError do
    let r ← extractHex w text.toList
    return if r.2 then some r.1 else none

def Uint128.decodeHex (text : String) : Except Raised (Option Uint128) :=
  if 32 < text.length then .ok none else readHex 128 text

/-- Here no text is an error, too. -/
def Uint256.decodeHex (text : String) : Except Raised (Option Uint256) :=
  if text ≠ "" ∧ text.length ≤ 64 then readHex 256 text else .ok none

def Signature.decodeHex (text : String) : Except Raised (Option Signature) :=
  if 128 < text.length then .ok none else readHex 512 text

/-- `uint128_union::decode_dec` -/
def Uint128.decodeDec (text : String) : Except Raised (Option Uint128) :=
  if 39 < text.length ∨ (1 < text.length ∧ text.toList.head? = some '0') ∨
      text.toList.head? = some '-' then .ok none
  else
    catchRuntimeError do
      let r ← extractDec 128 text.toList
      return if r.2 then some r.1 else none

/-- `stream >> number` for a `uint64_t` with the flag `hex`: sign, prefix and digits. There are
at most 16 characters, so the number is in range. -/
def extractWord (text : List Char) : Work × Bool :=
  let text := text.dropWhile isSpace
  let negative := decide (text.head? = some '-')
  let text := if negative ∨ text.head? = some '+' then text.tail else text
  let text := if text.take 2 = ['0', 'x'] ∨ text.take 2 = ['0', 'X'] then text.drop 2 else text
  let digits := text.takeWhile fun c => (hexValue c).isSome
  let number := BitVec.ofNat 64 ((parseDigits 16 digits).getD 0)
  (if negative then -number else number, (text.dropWhile fun c => (hexValue c).isSome).isEmpty)

def fromStringHex (value : String) : Option Work :=
  if value = "" ∨ 16 < value.length then none
  else
    let r := extractWord value.toList
    if r.2 then some r.1 else none

/-! ## The C interface -/

def nul : Char := Char.ofNat 0

/-- A `std::string` made from the characters at an address. -/
def ofBuffer (source : List Char) : List Char := source.takeWhile (· ≠ nul)

/-- `strncpy (destination, source, n)` -/
def strncpy (destination source : List Char) (n : ℕ) : List Char :=
  let copied := (ofBuffer source).take n
  copied ++ List.replicate (n - copied.length) nul ++ destination.drop n

def xrbUint128ToDec (source : Uint128) (destination : List Char) : List Char :=
  strncpy destination source.encodeDec.toList 32

def xrbUint128FromDec (source : List Char) : Except Raised (Option Uint128) :=
  Uint128.decodeDec (String.ofList (ofBuffer source))

/-! ## Property trees -/

/-- The children of the root, each with its name and its data. Deeper nodes are not read:
a name with a separator in it is no number. -/
abbrev PropertyTree : Type := List (String × String)

/-- `get<std::string>` of a name that occurs. The first child of the name is found. -/
def PropertyTree.get (tree : PropertyTree) (name : String) : String :=
  (List.lookup name tree).getD ""

end RaiBlocks
