import RaiBlocks.Lib.Accounts
import RaiBlocks.Lib.Text

/-!
# Blocks as JSON

Translation of `serialize_json` and `deserialize_json` of the five kinds of blocks, of their
constructors that take a tree, and of `deserialize_block_json` (`rai/lib/blocks.cpp`). A JSON
text is a property tree here: writing and reading the tree is left to the library. A block
that is decoded only in part is not used by anyone, so the decoders yield the whole block
or none.
-/

namespace RaiBlocks

open Foundation

/-! ## Texts of accounts -/

/-- The text with the given bytes. -/
def ofBytes (bytes : List UInt8) : String :=
  String.ofList (bytes.map fun b => Char.ofNat b.toNat)

def toAccount (check : Uint256 → BitVec 40) (account : Account) : Except Fault String := do
  let bytes ← encodeAccount check account
  return ofBytes bytes

/-! ## Decoders -/

/-- Why there is no value. -/
inductive DecodeFailure where
  /-- The decoder reports an error. -/
  | reported
  | raised (e : Raised)
  | fault (f : Fault)
deriving DecidableEq

abbrev Decode (α : Type) : Type := Except DecodeFailure α

/-- An error of the decoder of a field is the error of the whole decoder. -/
def orReport {ε α : Type} (failure : ε → DecodeFailure) : Except ε (Option α) → Decode α
  | .error e => .error (failure e)
  | .ok none => .error .reported
  | .ok (some x) => .ok x

/-- `catch (std::runtime_error const &)`, which reports an error. -/
def catchReport {α : Type} : Decode α → Decode α
  | .error (.raised .runtimeError) => .error .reported
  | x => x

/-- `get<std::string>`. What is thrown for a missing name is a `std::runtime_error`. -/
def PropertyTree.getString (tree : PropertyTree) (name : String) : Decode String :=
  match List.lookup name tree with
  | some text => .ok text
  | none => .error (.raised .runtimeError)

/-- The assertion of `deserialize_json` on the type. -/
def assertType (tree : PropertyTree) (kind : String) : Decode Unit := do
  let type ← tree.getString "type"
  if type = kind then return () else .error (.fault .assertion)

namespace Field

variable (check : Uint256 → BitVec 40)

def hash (text : String) : Decode Uint256 := orReport .raised (Uint256.decodeHex text)

def account (text : String) : Decode Account :=
  orReport .fault (decodeAccount check (asciiBytes text))

def balance (text : String) : Decode Uint128 := orReport .raised (Uint128.decodeHex text)

def balanceDec (text : String) : Decode Uint128 := orReport .raised (Uint128.decodeDec text)

/-- `link.decode_account (link_l) && link.decode_hex (link_l)`: the second one if the first
one reports an error. -/
def link (text : String) : Decode Uint256 :=
  match account check text with
  | .error .reported => hash text
  | x => x

def work (text : String) : Decode Work :=
  match fromStringHex text with
  | some work => .ok work
  | none => .error .reported

def signature (text : String) : Decode Signature :=
  orReport .raised (Signature.decodeHex text)

end Field

section Kinds

variable (check : Uint256 → BitVec 40)

/-! ## Send blocks -/

def SendBlock.serializeJson (b : SendBlock) : Except Fault PropertyTree := do
  let destination ← toAccount check b.hashables.destination
  return [("type", "send"), ("previous", encodeHex b.hashables.previous),
    ("destination", destination), ("balance", b.hashables.balance.encodeHex),
    ("work", toStringHex b.work), ("signature", b.signature.encodeHex)]

def SendBlock.deserializeJson (tree : PropertyTree) : Decode SendBlock := catchReport do
  assertType tree "send"
  let previousL ← tree.getString "previous"
  let destinationL ← tree.getString "destination"
  let balanceL ← tree.getString "balance"
  let workL ← tree.getString "work"
  let signatureL ← tree.getString "signature"
  let previous ← Field.hash previousL
  let destination ← Field.account check destinationL
  let balance ← Field.balance balanceL
  let work ← Field.work workL
  let signature ← Field.signature signatureL
  return ⟨⟨previous, destination, balance⟩, signature, work⟩

def SendHashables.ofTree (tree : PropertyTree) : Decode SendHashables := catchReport do
  let previousL ← tree.getString "previous"
  let destinationL ← tree.getString "destination"
  let balanceL ← tree.getString "balance"
  let previous ← Field.hash previousL
  let destination ← Field.account check destinationL
  let balance ← Field.balance balanceL
  return ⟨previous, destination, balance⟩

def SendBlock.ofTree (tree : PropertyTree) : Decode SendBlock := do
  let hashables ← SendHashables.ofTree check tree
  catchReport do
    let signatureL ← tree.getString "signature"
    let workL ← tree.getString "work"
    let signature ← Field.signature signatureL
    let work ← Field.work workL
    return ⟨hashables, signature, work⟩

/-! ## Receive blocks -/

def ReceiveBlock.serializeJson (b : ReceiveBlock) : PropertyTree :=
  [("type", "receive"), ("previous", encodeHex b.hashables.previous),
    ("source", encodeHex b.hashables.source), ("work", toStringHex b.work),
    ("signature", b.signature.encodeHex)]

def ReceiveBlock.deserializeJson (tree : PropertyTree) : Decode ReceiveBlock := catchReport do
  assertType tree "receive"
  let previousL ← tree.getString "previous"
  let sourceL ← tree.getString "source"
  let workL ← tree.getString "work"
  let signatureL ← tree.getString "signature"
  let previous ← Field.hash previousL
  let source ← Field.hash sourceL
  let work ← Field.work workL
  let signature ← Field.signature signatureL
  return ⟨⟨previous, source⟩, signature, work⟩

def ReceiveHashables.ofTree (tree : PropertyTree) : Decode ReceiveHashables := catchReport do
  let previousL ← tree.getString "previous"
  let sourceL ← tree.getString "source"
  let previous ← Field.hash previousL
  let source ← Field.hash sourceL
  return ⟨previous, source⟩

def ReceiveBlock.ofTree (tree : PropertyTree) : Decode ReceiveBlock := do
  let hashables ← ReceiveHashables.ofTree tree
  catchReport do
    let signatureL ← tree.getString "signature"
    let workL ← tree.getString "work"
    let signature ← Field.signature signatureL
    let work ← Field.work workL
    return ⟨hashables, signature, work⟩

/-! ## Open blocks -/

def OpenBlock.serializeJson (b : OpenBlock) : Except Fault PropertyTree := do
  let representative ← toAccount check b.hashables.representative
  let account ← toAccount check b.hashables.account
  return [("type", "open"), ("source", encodeHex b.hashables.source),
    ("representative", representative), ("account", account), ("work", toStringHex b.work),
    ("signature", b.signature.encodeHex)]

/-- The two accounts are decoded as hexadecimal numbers here. -/
def OpenBlock.deserializeJson (tree : PropertyTree) : Decode OpenBlock := catchReport do
  assertType tree "open"
  let sourceL ← tree.getString "source"
  let representativeL ← tree.getString "representative"
  let accountL ← tree.getString "account"
  let workL ← tree.getString "work"
  let signatureL ← tree.getString "signature"
  let source ← Field.hash sourceL
  let representative ← Field.hash representativeL
  let account ← Field.hash accountL
  let work ← Field.work workL
  let signature ← Field.signature signatureL
  return ⟨⟨source, representative, account⟩, signature, work⟩

def OpenHashables.ofTree (tree : PropertyTree) : Decode OpenHashables := catchReport do
  let sourceL ← tree.getString "source"
  let representativeL ← tree.getString "representative"
  let accountL ← tree.getString "account"
  let source ← Field.hash sourceL
  let representative ← Field.account check representativeL
  let account ← Field.account check accountL
  return ⟨source, representative, account⟩

def OpenBlock.ofTree (tree : PropertyTree) : Decode OpenBlock := do
  let hashables ← OpenHashables.ofTree check tree
  catchReport do
    let workL ← tree.getString "work"
    let signatureL ← tree.getString "signature"
    let work ← Field.work workL
    let signature ← Field.signature signatureL
    return ⟨hashables, signature, work⟩

/-! ## Change blocks -/

def ChangeBlock.serializeJson (b : ChangeBlock) : Except Fault PropertyTree := do
  let representative ← toAccount check b.hashables.representative
  return [("type", "change"), ("previous", encodeHex b.hashables.previous),
    ("representative", representative), ("work", toStringHex b.work),
    ("signature", b.signature.encodeHex)]

/-- The representative is decoded as a hexadecimal number here. -/
def ChangeBlock.deserializeJson (tree : PropertyTree) : Decode ChangeBlock := catchReport do
  assertType tree "change"
  let previousL ← tree.getString "previous"
  let representativeL ← tree.getString "representative"
  let workL ← tree.getString "work"
  let signatureL ← tree.getString "signature"
  let previous ← Field.hash previousL
  let representative ← Field.hash representativeL
  let work ← Field.work workL
  let signature ← Field.signature signatureL
  return ⟨⟨previous, representative⟩, signature, work⟩

def ChangeHashables.ofTree (tree : PropertyTree) : Decode ChangeHashables := catchReport do
  let previousL ← tree.getString "previous"
  let representativeL ← tree.getString "representative"
  let previous ← Field.hash previousL
  let representative ← Field.account check representativeL
  return ⟨previous, representative⟩

def ChangeBlock.ofTree (tree : PropertyTree) : Decode ChangeBlock := do
  let hashables ← ChangeHashables.ofTree check tree
  catchReport do
    let workL ← tree.getString "work"
    let signatureL ← tree.getString "signature"
    let work ← Field.work workL
    let signature ← Field.signature signatureL
    return ⟨hashables, signature, work⟩

/-! ## State blocks -/

def StateBlock.serializeJson (b : StateBlock) : Except Fault PropertyTree := do
  let account ← toAccount check b.hashables.account
  let representative ← toAccount check b.hashables.representative
  let linkAsAccount ← toAccount check b.hashables.link
  return [("type", "state"), ("account", account), ("previous", encodeHex b.hashables.previous),
    ("representative", representative), ("balance", b.hashables.balance.encodeDec),
    ("link", encodeHex b.hashables.link), ("link_as_account", linkAsAccount),
    ("signature", b.signature.encodeHex), ("work", toStringHex b.work)]

def StateBlock.deserializeJson (tree : PropertyTree) : Decode StateBlock := catchReport do
  assertType tree "state"
  let accountL ← tree.getString "account"
  let previousL ← tree.getString "previous"
  let representativeL ← tree.getString "representative"
  let balanceL ← tree.getString "balance"
  let linkL ← tree.getString "link"
  let workL ← tree.getString "work"
  let signatureL ← tree.getString "signature"
  let account ← Field.account check accountL
  let previous ← Field.hash previousL
  let representative ← Field.account check representativeL
  let balance ← Field.balanceDec balanceL
  let link ← Field.link check linkL
  let work ← Field.work workL
  let signature ← Field.signature signatureL
  return ⟨⟨account, previous, representative, balance, link⟩, signature, work⟩

def StateHashables.ofTree (tree : PropertyTree) : Decode StateHashables := catchReport do
  let accountL ← tree.getString "account"
  let previousL ← tree.getString "previous"
  let representativeL ← tree.getString "representative"
  let balanceL ← tree.getString "balance"
  let linkL ← tree.getString "link"
  let account ← Field.account check accountL
  let previous ← Field.hash previousL
  let representative ← Field.account check representativeL
  let balance ← Field.balanceDec balanceL
  let link ← Field.link check linkL
  return ⟨account, previous, representative, balance, link⟩

/-- The only constructor that looks at the type. -/
def StateBlock.ofTree (tree : PropertyTree) : Decode StateBlock := do
  let hashables ← StateHashables.ofTree check tree
  catchReport do
    let typeL ← tree.getString "type"
    let signatureL ← tree.getString "signature"
    let workL ← tree.getString "work"
    if typeL = "state" then
      let work ← Field.work workL
      let signature ← Field.signature signatureL
      return ⟨hashables, signature, work⟩
    else .error .reported

/-! ## Blocks of any kind -/

def Block.serializeJson : Block → Except Fault PropertyTree
  | .sendBlock b => b.serializeJson check
  | .receiveBlock b => .ok b.serializeJson
  | .openBlock b => b.serializeJson check
  | .changeBlock b => b.serializeJson check
  | .stateBlock b => b.serializeJson check

/-- `deserialize_json` of a block, which keeps nothing but its kind. -/
def Block.deserializeJson (tree : PropertyTree) : Block → Decode Block
  | .sendBlock _ => (SendBlock.deserializeJson check tree).map .sendBlock
  | .receiveBlock _ => (ReceiveBlock.deserializeJson tree).map .receiveBlock
  | .openBlock _ => (OpenBlock.deserializeJson tree).map .openBlock
  | .changeBlock _ => (ChangeBlock.deserializeJson tree).map .changeBlock
  | .stateBlock _ => (StateBlock.deserializeJson check tree).map .stateBlock

/-- A block is the result of one of the constructors; there is none on error. -/
def deserializeBlockJson (tree : PropertyTree) : Decode Block := catchReport do
  let type ← tree.getString "type"
  if type = "receive" then (ReceiveBlock.ofTree tree).map .receiveBlock
  else if type = "send" then (SendBlock.ofTree check tree).map .sendBlock
  else if type = "open" then (OpenBlock.ofTree check tree).map .openBlock
  else if type = "change" then (ChangeBlock.ofTree check tree).map .changeBlock
  else if type = "state" then (StateBlock.ofTree check tree).map .stateBlock
  else .error .reported

end Kinds

end RaiBlocks
