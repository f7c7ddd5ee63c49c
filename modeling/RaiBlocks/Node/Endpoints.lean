import RaiBlocks.Lib.Text

/-!
# Endpoints as text

Translation of `parse_port`, `parse_address_port`, `parse_endpoint` and
`parse_tcp_endpoint` (`rai/node/node.cpp`). A text is the list of its characters. What
text is an address is left to the library, whose function is a parameter. All functions
are none on error.
-/

namespace RaiBlocks

open Foundation

def isDigit (c : Char) : Bool := '0' ≤ c && c ≤ '9'

/-- The number that digits denote. -/
def decimalValue (digits : List Char) : ℕ :=
  Numeral.value 10 (digits.map fun c => c.toNat - '0'.toNat)

/-- `std::stoul`: the number and how many characters it has used. White space and a sign may
come first; a minus sign negates in `unsigned long`. It throws if there is no digit or the
number is out of range. -/
def stoul (text : List Char) : Option (BitVec 64 × ℕ) :=
  let space := text.takeWhile isSpace
  let rest := text.drop space.length
  let sign := (rest.take 1).filter fun c => c = '+' || c = '-'
  let digits := (rest.drop sign.length).takeWhile isDigit
  let number := decimalValue digits
  if digits = [] ∨ 2 ^ 64 ≤ number then none
  else
    some (if sign = ['-'] then -BitVec.ofNat 64 number else BitVec.ofNat 64 number,
      space.length + sign.length + digits.length)

/-- The number is cut to 16 bits. What is compared with the largest port is the count of
characters. -/
def parsePort (text : List Char) : Option (BitVec 16) :=
  match stoul text with
  | none => none
  | some (number, converted) =>
    if converted ≠ text.length ∨ 65535 < converted then none else some (number.setWidth 16)

/-- `string.rfind (c)` -/
def rfind (text : List Char) (c : Char) : Option ℕ :=
  (List.range text.length).reverse.find? fun i => decide (text[i]? = some c)

section

variable {α : Type} (fromString : List Char → Option α)

def parseAddressPort (text : List Char) : Option (α × BitVec 16) :=
  match rfind text ':' with
  | none => none
  | some position =>
    if 0 < position then
      match parsePort (text.drop (position + 1)) with
      | none => none
      | some port => (fromString (text.take position)).map fun address => (address, port)
    else none

/-- The endpoint is the address and the port. -/
def parseEndpoint (text : List Char) : Option (α × BitVec 16) := parseAddressPort fromString text

def parseTcpEndpoint (text : List Char) : Option (α × BitVec 16) :=
  parseAddressPort fromString text

end

end RaiBlocks
