import RaiBlocks.Ledger.Ledger

/-!
# Rolling blocks back

Translation of `rollback_visitor` and `ledger::rollback`. Undoing a send that
has been received first rolls back the head of the receiving account, again
and again, until the send is pending; that call is the parameter `rb` of the
visitor methods, and `rollbackFuel` ties the knot. The part of a method after
such a loop is a definition of its own (`...Undo`).
-/

namespace RaiBlocks

open Foundation

namespace Ledger

variable (p : Env) (now : ℕ)

/-- The loop of the two visitor methods that undo a send: roll back the
receiving account while the send is not pending. -/
def rollbackReceiver (rb : BlockStore → BlockHash → Except Fault BlockStore) (fuel : ℕ)
    (s : BlockStore) (key : PendingKey) : Except Fault BlockStore :=
  whileLoop .outOfFuel (fun s => !s.pendingExists key)
    (fun s => rb s (latest s key.account)) fuel s

/-- The last writes of the methods for send, receive and change blocks: the
predecessor is the frontier again. -/
def restorePrevious (s : BlockStore) (hash previous : BlockHash) (account : Account)
    (blockCount : ℕ) : Except Fault BlockStore := do
  let s ← s.frontierDel hash
  let s := s.frontierPut previous account
  let s ← s.blockSuccessorClear p previous
  if blockCount % BlockStore.blockInfoMax = 0 then s.blockInfoDel hash else pure s

def sendBlockUndo (s : BlockStore) (b : SendBlock) : Except Fault BlockStore := do
  let hash := (Block.sendBlock b).hash p
  let key : PendingKey := ⟨b.hashables.destination, hash⟩
  match s.pendingGet key with
  | none => .error .assertion
  | some pending =>
  match s.accountGet pending.source with
  | none => .error .assertion
  | some info => do
  let s ← s.pendingDel key
  let s ← s.representationAdd (← representative p s hash) pending.amount
  let s ← changeLatest now s pending.source b.hashables.previous info.repBlock
    (← balance p s b.hashables.previous) (info.blockCount - 1) false
  let s ← s.blockDel hash
  restorePrevious p s hash b.hashables.previous pending.source info.blockCount

def rollbackSend (rb : BlockStore → BlockHash → Except Fault BlockStore) (fuel : ℕ)
    (s : BlockStore) (b : SendBlock) : Except Fault BlockStore := do
  let s ← rollbackReceiver rb fuel s
    ⟨b.hashables.destination, (Block.sendBlock b).hash p⟩
  sendBlockUndo p now s b

def rollbackReceive (s : BlockStore) (b : ReceiveBlock) : Except Fault BlockStore := do
  let hash := (Block.receiveBlock b).hash p
  let rep ← representative p s b.hashables.previous
  let amount ← amount p s b.hashables.source
  let destinationAccount ← account s hash
  let sourceAccount ← account s b.hashables.source
  match s.accountGet destinationAccount with
  | none => .error .assertion
  | some info => do
  let s ← s.representationAdd (← representative p s hash) (0 - amount)
  let s ← changeLatest now s destinationAccount b.hashables.previous rep
    (← balance p s b.hashables.previous) (info.blockCount - 1) false
  let s ← s.blockDel hash
  let s := s.pendingPut ⟨destinationAccount, b.hashables.source⟩ ⟨sourceAccount, amount⟩
  restorePrevious p s hash b.hashables.previous destinationAccount info.blockCount

def rollbackOpen (s : BlockStore) (b : OpenBlock) : Except Fault BlockStore := do
  let hash := (Block.openBlock b).hash p
  let amount ← amount p s b.hashables.source
  let destinationAccount ← account s hash
  let sourceAccount ← account s b.hashables.source
  let s ← s.representationAdd (← representative p s hash) (0 - amount)
  let s ← changeLatest now s destinationAccount 0 0 0 0 false
  let s ← s.blockDel hash
  let s := s.pendingPut ⟨destinationAccount, b.hashables.source⟩ ⟨sourceAccount, amount⟩
  s.frontierDel hash

def rollbackChange (s : BlockStore) (b : ChangeBlock) : Except Fault BlockStore := do
  let hash := (Block.changeBlock b).hash p
  let rep ← representative p s b.hashables.previous
  let account ← account s b.hashables.previous
  match s.accountGet account with
  | none => .error .assertion
  | some info => do
  let balance ← balance p s b.hashables.previous
  let s ← s.representationAdd rep balance
  let s ← s.representationAdd hash (0 - balance)
  let s ← s.blockDel hash
  let s ← changeLatest now s account b.hashables.previous rep info.balance
    (info.blockCount - 1) false
  restorePrevious p s hash b.hashables.previous account info.blockCount

/-- The predecessor of a state block loses its successor, and is the frontier
again if it is a legacy block. -/
def stateBlockRestorePrevious (s : BlockStore) (b : StateBlock) : Except Fault BlockStore :=
  match s.blockGet b.hashables.previous with
  | some previous => do
    let s ← s.blockSuccessorClear p b.hashables.previous
    if previous.isLegacy then
      return s.frontierPut b.hashables.previous b.hashables.account
    else return s
  | none => .ok s

/-- The end of `rollback_visitor::state_block`, from the second `account_get`
on. -/
def stateBlockUndo (s : BlockStore) (b : StateBlock) (rep : BlockHash) (balance : Uint128) :
    Except Fault BlockStore := do
  let hash := (Block.stateBlock b).hash p
  match s.accountGet b.hashables.account with
  | none => .error .assertion
  | some info => do
  let s ← changeLatest now s b.hashables.account b.hashables.previous rep balance
    (info.blockCount - 1) false
  let s ← stateBlockRestorePrevious p s b
  s.blockDel hash

/-- The pending entry of a state block: the one it made is deleted once its
receiver is gone, the one it consumed comes back. -/
def stateBlockPending (rb : BlockStore → BlockHash → Except Fault BlockStore) (fuel : ℕ)
    (s : BlockStore) (b : StateBlock) (balance : Uint128) : Except Fault BlockStore := do
  let hash := (Block.stateBlock b).hash p
  if b.hashables.balance < balance then do
    let key : PendingKey := ⟨b.hashables.link, hash⟩
    let s ← rollbackReceiver rb fuel s key
    s.pendingDel key
  else if b.hashables.link ≠ 0 then do
    let source ← account s b.hashables.link
    let amount ← balanceSub p b.hashables.balance balance
    return s.pendingPut ⟨b.hashables.account, b.hashables.link⟩ ⟨source, amount⟩
  else return s

/-- Take the balance away from the representative of the block and give it
back to the one before. -/
def stateBlockReweigh (s : BlockStore) (hash : BlockHash) (b : StateBlock) (rep : BlockHash)
    (balance : Uint128) : Except Fault BlockStore := do
  -- Add in amount delta
  let s ← s.representationAdd hash (0 - b.hashables.balance)
  -- Move existing representation
  if rep ≠ 0 then s.representationAdd rep balance else .ok s

def rollbackState (rb : BlockStore → BlockHash → Except Fault BlockStore) (fuel : ℕ)
    (s : BlockStore) (b : StateBlock) : Except Fault BlockStore := do
  let hash := (Block.stateBlock b).hash p
  let rep ← if b.hashables.previous ≠ 0 then representative p s b.hashables.previous
    else pure 0
  let balance ← balance p s b.hashables.previous
  let s ← stateBlockReweigh s hash b rep balance
  let s ← stateBlockPending p rb fuel s b balance
  stateBlockUndo p now s b rep balance

/-- A block visits `rollback_visitor`. -/
def rollbackVisit (rb : BlockStore → BlockHash → Except Fault BlockStore) (fuel : ℕ)
    (s : BlockStore) : Block → Except Fault BlockStore
  | .sendBlock b => rollbackSend p now rb fuel s b
  | .receiveBlock b => rollbackReceive p now s b
  | .openBlock b => rollbackOpen p now s b
  | .changeBlock b => rollbackChange p now s b
  | .stateBlock b => rollbackState p now rb fuel s b

/-- The body of the loop in `ledger::rollback`: undo the head of the
account. -/
def rollbackHead (rb : BlockStore → BlockHash → Except Fault BlockStore) (fuel : ℕ)
    (a : Account) (s : BlockStore) : Except Fault BlockStore :=
  match s.accountGet a with
  | none => .error .assertion
  | some info =>
    match s.blockGet info.head with
    | none => .error .nullBlock
    | some block => rollbackVisit p now rb fuel s block

/-- Rollback blocks until `h` doesn't exist. -/
def rollbackFuel : ℕ → BlockStore → BlockHash → Except Fault BlockStore
  | 0, _, _ => .error .outOfFuel
  | fuel + 1, s, h => do
    assertThat (s.blockExists h)
    let a ← account s h
    whileLoop .outOfFuel (fun s => s.blockExists h)
      (rollbackHead p now (rollbackFuel fuel) fuel a) fuel s

/-- `ledger::rollback` at time `now`. -/
def rollback (s : BlockStore) (h : BlockHash) : Except Fault BlockStore :=
  rollbackFuel p now s.fuel s h

end Ledger

end RaiBlocks
