import RaiBlocks.Store.BlockStore

/-!
# Account numbers as text

Translation of `uint256_union::decode_account` and `uint256_union::encode_account`
(`rai/lib/numbers.cpp`). A text is its bytes. The five bytes of Blake2b that check an account
number are a parameter.
-/

namespace RaiBlocks

open Foundation

def asciiBytes (text : String) : List UInt8 := text.toList.map fun c => UInt8.ofNat c.toNat

def accountReverse : List UInt8 :=
  asciiBytes "~0~1234567~~~~~~~~~~~~~~~~~~~~~~~~~~~~~~~~~~~~~~~89:;<=>?@AB~CDEFGHIJK~LMNO~~~~~"

/-- The value of a character. For one that is no digit this is not `'~'` but `'~' - '0'`. -/
def accountDecode (value : UInt8) : Except Fault UInt8 := do
  assertThat (0x30 ≤ value)
  assertThat (value ≤ 0x7e)
  return accountReverse.getD (value - 0x30).toNat 0 - 0x30

/-- The loop over the characters after the prefix; none on error. -/
def decodeDigits : List UInt8 → BitVec 512 → Except Fault (Option (BitVec 512))
  | [], number => .ok (some number)
  | character :: rest, number =>
    if character < 0x30 ∨ 0x80 ≤ character then .ok none
    else do
      let byte ← accountDecode character
      if byte = 0x7e then return none
      else decodeDigits rest ((number <<< 5) + BitVec.ofNat 512 byte.toNat)

/-- `decode_account`: the account, none on error. -/
def decodeAccount (check : Uint256 → BitVec 40) (source : List UInt8) :
    Except Fault (Option Uint256) := do
  if source.length < 5 then return none
  let xrb : Bool := source.take 3 = asciiBytes "xrb" ∧
    (source.getD 3 0 = 0x5f ∨ source.getD 3 0 = 0x2d)
  let nano : Bool := source.take 4 = asciiBytes "nano" ∧
    (source.getD 4 0 = 0x5f ∨ source.getD 4 0 = 0x2d)
  if xrb && source.length ≠ 64 || nano && source.length ≠ 65 then return none
  if xrb || nano then
    let digits := source.drop (if xrb then 4 else 5)
    if digits.getD 0 0 = 0x31 ∨ digits.getD 0 0 = 0x33 then
      match ← decodeDigits digits 0 with
      | none => return none
      | some number =>
        let account : Uint256 := (number >>> 40).setWidth 256
        if number.setWidth 40 = check account then return some account else return none
    else return none
  else return none

def accountLookup : List UInt8 := asciiBytes "13456789abcdefghijkmnopqrstuwxyz"

def accountEncode (value : UInt8) : Except Fault UInt8 := do
  assertThat (value < 32)
  return accountLookup.getD value.toNat 0

/-- The loop over the digits, the last one first. -/
def encodeDigits : ℕ → BitVec 512 → List UInt8 → Except Fault (List UInt8)
  | 0, _, destination => .ok destination
  | n + 1, number, destination => do
    let character ← accountEncode (UInt8.ofNat (number &&& 0x1f).toNat)
    encodeDigits n (number >>> 5) (destination ++ [character])

/-- `encode_account` with an empty destination. -/
def encodeAccount (check : Uint256 → BitVec 40) (account : Uint256) :
    Except Fault (List UInt8) := do
  let number : BitVec 512 := (account.setWidth 512 <<< 40) ||| (check account).setWidth 512
  let destination ← encodeDigits 60 number []
  return (destination ++ asciiBytes "_brx").reverse

/-- The account 0, which nobody owns. -/
example : decodeAccount (fun _ => 0x7C1AA352D6)
    (asciiBytes "xrb_1111111111111111111111111111111111111111111111111111hifc8npp") =
      .ok (some 0) := by
  decide +kernel

end RaiBlocks
