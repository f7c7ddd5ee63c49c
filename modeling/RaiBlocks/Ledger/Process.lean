import RaiBlocks.Ledger.Ledger

/-!
# Processing a block

Translation of `ledger_processor` in `rai/ledger.cpp`. Each visitor method
first runs its chain of checks; the code in front of the writes and the writes
themselves are separate definitions (`...Commit`), so that the result of the
checks and the effect on the tables can be read apart. Statistics counters
have no effect on the ledger and are left out.
-/

namespace RaiBlocks

open Foundation

inductive ProcessResult where
  | progress | badSignature | old | negativeSpend | fork | unreceivable
  | gapPrevious | gapSource | openedBurnAccount | balanceMismatch | blockPosition
deriving DecidableEq

/-- `process_return`; a field the code has not assigned is `none`. -/
structure ProcessReturn where
  code : ProcessResult
  account : Option Account
  amount : Option Uint128
  pendingAccount : Option Account
  stateIsSend : Option Bool
deriving DecidableEq

def ProcessReturn.of (code : ProcessResult) : ProcessReturn := ⟨code, none, none, none, none⟩

namespace Ledger

/-! ## State blocks -/

/-- The variables of `state_block_impl` after the position of the block has
been checked. -/
structure StateCheck where
  code : ProcessResult
  info : AccountInfo
  isSend : Bool
  amount : Uint128

/-- Where the block stands on the chain of its account. -/
def stateBlockPosition (p : Env) (s : BlockStore) (b : StateBlock) : Except Fault StateCheck :=
  match s.accountGet b.hashables.account with
  | some info =>
    if b.hashables.previous = 0 then .ok ⟨.fork, info, false, b.hashables.balance⟩ else
    if !s.blockExists b.hashables.previous then
      .ok ⟨.gapPrevious, info, false, b.hashables.balance⟩ else do
    let isSend := decide (b.hashables.balance < info.balance)
    let amount ← if isSend then balanceSub p info.balance b.hashables.balance
      else balanceSub p b.hashables.balance info.balance
    return ⟨if b.hashables.previous = info.head then .progress else .fork, info, isSend, amount⟩
  | none =>
    if b.hashables.previous ≠ 0 then
      .ok ⟨.gapPrevious, .zero, false, b.hashables.balance⟩ else
    if b.hashables.link = 0 then
      .ok ⟨.gapSource, .zero, false, b.hashables.balance⟩ else
    .ok ⟨.progress, .zero, false, b.hashables.balance⟩

/-- A block that does not send has a link to an unreceived send of the right
amount, or none and an unchanged balance. -/
def stateBlockSource (s : BlockStore) (b : StateBlock) (c : StateCheck) : ProcessResult :=
  if c.code = .progress ∧ c.isSend = false then
    if b.hashables.link ≠ 0 then
      if !s.blockExists b.hashables.link then .gapSource else
      match s.pendingGet ⟨b.hashables.account, b.hashables.link⟩ with
      | none => .unreceivable
      | some pending => if c.amount = pending.amount then .progress else .balanceMismatch
    else if c.amount = 0 then .progress else .balanceMismatch
  else c.code

/-- Move existing representation, then add in amount delta. -/
def stateBlockRepresentation (s : BlockStore) (hash : BlockHash) (info : AccountInfo)
    (balance : Uint128) : Except Fault BlockStore := do
  let s ← if info.repBlock ≠ 0 then s.representationAdd info.repBlock (0 - info.balance)
    else pure s
  s.representationAdd hash balance

/-- A send gets a pending entry, a receive uses one up. -/
def stateBlockSettle (s : BlockStore) (hash : BlockHash) (b : StateBlock) (isSend : Bool)
    (amount : Uint128) : Except Fault BlockStore :=
  if isSend then
    .ok (s.pendingPut ⟨b.hashables.link, hash⟩ ⟨b.hashables.account, amount⟩)
  else if b.hashables.link ≠ 0 then
    s.pendingDel ⟨b.hashables.account, b.hashables.link⟩
  else .ok s

/-- The frontier of a legacy block goes when a state block follows it. -/
def stateBlockFrontier (s : BlockStore) (info : AccountInfo) : Except Fault BlockStore :=
  if s.frontierGet info.head ≠ 0 then s.frontierDel info.head else .ok s

def stateBlockCommit (p : Env) (now : ℕ) (s : BlockStore) (b : StateBlock)
    (info : AccountInfo) (isSend : Bool) (amount : Uint128) : Except Fault BlockStore := do
  let hash := (Block.stateBlock b).hash p
  let s ← s.blockPut p hash (.stateBlock b) 0
  let s ← stateBlockRepresentation s hash info b.hashables.balance
  let s ← stateBlockSettle s hash b isSend amount
  let s ← changeLatest now s b.hashables.account hash hash b.hashables.balance
    (info.blockCount + 1) true
  stateBlockFrontier s info

/-- The rest of `state_block_impl`, once the position is known. -/
def stateBlockFinish (p : Env) (now : ℕ) (s : BlockStore) (b : StateBlock) (c : StateCheck) :
    Except Fault (BlockStore × ProcessReturn) :=
  let code := stateBlockSource s b c
  if code = .progress then do
    let s ← stateBlockCommit p now s b c.info c.isSend c.amount
    return (s, ⟨.progress, some b.hashables.account, some c.amount, none, some c.isSend⟩)
  else .ok (s, ⟨code, none, some c.amount, none, none⟩)

def stateBlockImpl (p : Env) (now : ℕ) (s : BlockStore) (b : StateBlock) :
    Except Fault (BlockStore × ProcessReturn) :=
  let hash := (Block.stateBlock b).hash p
  if s.blockExists hash then .ok (s, .of .old) else
  if p.validateMessage b.hashables.account hash b.signature then
    .ok (s, .of .badSignature) else
  if b.hashables.account = 0 then .ok (s, .of .openedBurnAccount) else do
  let c ← stateBlockPosition p s b
  stateBlockFinish p now s b c

/-! ## Change blocks -/

def changeBlockCommit (p : Env) (now : ℕ) (s : BlockStore) (b : ChangeBlock)
    (account : Account) (info : AccountInfo) : Except Fault BlockStore := do
  let hash := (Block.changeBlock b).hash p
  let s ← s.blockPut p hash (.changeBlock b) 0
  let balance ← balance p s b.hashables.previous
  let s ← s.representationAdd hash balance
  let s ← s.representationAdd info.repBlock (0 - balance)
  let s ← changeLatest now s account hash hash info.balance (info.blockCount + 1) false
  let s ← s.frontierDel b.hashables.previous
  return s.frontierPut hash account

def changeBlock (p : Env) (now : ℕ) (s : BlockStore) (b : ChangeBlock) :
    Except Fault (BlockStore × ProcessReturn) :=
  let hash := (Block.changeBlock b).hash p
  if s.blockExists hash then .ok (s, .of .old) else
  match s.blockGet b.hashables.previous with
  | none => .ok (s, .of .gapPrevious)
  | some previous =>
  if !(Block.changeBlock b).validPredecessor previous then .ok (s, .of .blockPosition) else
  let account := s.frontierGet b.hashables.previous
  if account = 0 then .ok (s, .of .fork) else
  match s.accountGet account with
  | none => .error .assertion
  | some info => do
  assertThat (info.head = b.hashables.previous)
  if p.validateMessage account hash b.signature then return (s, .of .badSignature) else do
  let s ← changeBlockCommit p now s b account info
  return (s, ⟨.progress, some account, some 0, none, none⟩)

/-! ## Send blocks -/

def sendBlockCommit (p : Env) (now : ℕ) (s : BlockStore) (b : SendBlock)
    (account : Account) (info : AccountInfo) (amount : Uint128) :
    Except Fault BlockStore := do
  let hash := (Block.sendBlock b).hash p
  let s ← s.representationAdd info.repBlock (0 - amount)
  let s ← s.blockPut p hash (.sendBlock b) 0
  let s ← changeLatest now s account hash info.repBlock b.hashables.balance
    (info.blockCount + 1) false
  let s := s.pendingPut ⟨b.hashables.destination, hash⟩ ⟨account, amount⟩
  let s ← s.frontierDel b.hashables.previous
  return s.frontierPut hash account

def sendBlock (p : Env) (now : ℕ) (s : BlockStore) (b : SendBlock) :
    Except Fault (BlockStore × ProcessReturn) :=
  let hash := (Block.sendBlock b).hash p
  if s.blockExists hash then .ok (s, .of .old) else
  match s.blockGet b.hashables.previous with
  | none => .ok (s, .of .gapPrevious)
  | some previous =>
  if !(Block.sendBlock b).validPredecessor previous then .ok (s, .of .blockPosition) else
  let account := s.frontierGet b.hashables.previous
  if account = 0 then .ok (s, .of .fork) else
  if p.validateMessage account hash b.signature then .ok (s, .of .badSignature) else
  match s.accountGet account with
  | none => .error .assertion
  | some info => do
  assertThat (info.head = b.hashables.previous)
  if ¬ b.hashables.balance ≤ info.balance then return (s, .of .negativeSpend) else do
  let amount ← balanceSub p info.balance b.hashables.balance
  let s ← sendBlockCommit p now s b account info amount
  return (s, ⟨.progress, some account, some amount, some b.hashables.destination, none⟩)

/-! ## Receive blocks -/

def receiveBlockCommit (p : Env) (now : ℕ) (s : BlockStore) (b : ReceiveBlock)
    (account : Account) (info : AccountInfo) (pending : PendingInfo) :
    Except Fault BlockStore := do
  let hash := (Block.receiveBlock b).hash p
  let newBalance ← balanceAdd p info.balance pending.amount
  assertThat (s.accountGet pending.source).isSome
  let s ← s.pendingDel ⟨account, b.hashables.source⟩
  let s ← s.blockPut p hash (.receiveBlock b) 0
  let s ← changeLatest now s account hash info.repBlock newBalance (info.blockCount + 1)
    false
  let s ← s.representationAdd info.repBlock pending.amount
  let s ← s.frontierDel b.hashables.previous
  return s.frontierPut hash account

def receiveBlock (p : Env) (now : ℕ) (s : BlockStore) (b : ReceiveBlock) :
    Except Fault (BlockStore × ProcessReturn) :=
  let hash := (Block.receiveBlock b).hash p
  if s.blockExists hash then .ok (s, .of .old) else
  match s.blockGet b.hashables.previous with
  | none => .ok (s, .of .gapPrevious)
  | some previous =>
  if !(Block.receiveBlock b).validPredecessor previous then
    .ok (s, .of .blockPosition) else
  if !s.blockExists b.hashables.source then .ok (s, .of .gapSource) else
  let account := s.frontierGet b.hashables.previous
  -- If we have the block but it's not the latest we have a signed fork
  if account = 0 then
    .ok (s, .of (if s.blockExists b.hashables.previous then .fork else .gapPrevious)) else
  if p.validateMessage account hash b.signature then .ok (s, .of .badSignature) else
  -- The error of this `account_get` is not looked at
  let info := (s.accountGet account).getD .zero
  if info.head ≠ b.hashables.previous then .ok (s, .of .gapPrevious) else
  match s.pendingGet ⟨account, b.hashables.source⟩ with
  | none => .ok (s, .of .unreceivable)
  | some pending => do
  let s ← receiveBlockCommit p now s b account info pending
  return (s, ⟨.progress, some account, some pending.amount, none, none⟩)

/-! ## Open blocks -/

def openBlockCommit (p : Env) (now : ℕ) (s : BlockStore) (b : OpenBlock)
    (pending : PendingInfo) : Except Fault BlockStore := do
  let hash := (Block.openBlock b).hash p
  let account := b.hashables.account
  assertThat (s.accountGet pending.source).isSome
  let s ← s.pendingDel ⟨account, b.hashables.source⟩
  let s ← s.blockPut p hash (.openBlock b) 0
  let s ← changeLatest now s account hash hash pending.amount
    (AccountInfo.zero.blockCount + 1) false
  let s ← s.representationAdd hash pending.amount
  return s.frontierPut hash account

def openBlock (p : Env) (now : ℕ) (s : BlockStore) (b : OpenBlock) :
    Except Fault (BlockStore × ProcessReturn) :=
  let hash := (Block.openBlock b).hash p
  if s.blockExists hash then .ok (s, .of .old) else
  if !s.blockExists b.hashables.source then .ok (s, .of .gapSource) else
  if p.validateMessage b.hashables.account hash b.signature then
    .ok (s, .of .badSignature) else
  match s.accountGet b.hashables.account with
  | some _ => .ok (s, .of .fork)
  | none =>
  match s.pendingGet ⟨b.hashables.account, b.hashables.source⟩ with
  | none => .ok (s, .of .unreceivable)
  | some pending =>
  if b.hashables.account = burnAccount then .ok (s, .of .openedBurnAccount) else do
  let s ← openBlockCommit p now s b pending
  return (s, ⟨.progress, some b.hashables.account, some pending.amount, none, none⟩)

/-- `ledger::process` at time `now`: the block visits the processor. -/
def process (p : Env) (now : ℕ) (s : BlockStore) : Block → Except Fault (BlockStore × ProcessReturn)
  | .sendBlock b => sendBlock p now s b
  | .receiveBlock b => receiveBlock p now s b
  | .openBlock b => openBlock p now s b
  | .changeBlock b => changeBlock p now s b
  | .stateBlock b => stateBlockImpl p now s b

end Ledger

end RaiBlocks
