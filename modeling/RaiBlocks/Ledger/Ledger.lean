import RaiBlocks.Ledger.Common

/-!
# Ledger queries and `change_latest`

Translation of the functions of `rai/ledger.cpp` that processing and rollback
share. The loops run with a bound that is computed from the number of stored
blocks.
-/

namespace RaiBlocks

open Foundation

/-- Bound on iterations and nesting of every walk over the stored blocks. -/
def BlockStore.fuel (s : BlockStore) : ℕ := 2 * s.blockCount + 4

namespace Ledger

/-- Balance for account containing hash. -/
def balance (p : Env) (s : BlockStore) (h : BlockHash) : Except Fault Uint128 :=
  balanceCompute p s s.fuel h

/-- Amount decrease or increase for block. -/
def amount (p : Env) (s : BlockStore) (h : BlockHash) : Except Fault Uint128 :=
  amountCompute p s s.fuel h

def representativeCalculated (p : Env) (s : BlockStore) (h : BlockHash) : Except Fault BlockHash :=
  representativeCompute p s s.fuel h

def representative (p : Env) (s : BlockStore) (h : BlockHash) : Except Fault BlockHash := do
  let result ← representativeCalculated p s h
  assertThat (result = 0 || s.blockExists result)
  return result

/-! ## account -/

/-- The variables of the loop in `ledger::account`. -/
structure AccountWalk where
  hash : BlockHash
  successor : BlockHash
  block : Block

def AccountWalk.running (s : BlockStore) (w : AccountWalk) : Bool :=
  w.successor ≠ 0 && w.block.type ≠ .state && (s.blockInfoGet w.successor).isNone

def AccountWalk.step (s : BlockStore) (w : AccountWalk) : Except Fault AccountWalk :=
  let successor := s.blockSuccessor w.hash
  if successor ≠ 0 then
    match s.blockGet successor with
    | none => .error .nullBlock
    | some block => .ok ⟨successor, successor, block⟩
  else .ok { w with successor := successor }

/-- The account found at the end of the loop. -/
def AccountWalk.result (s : BlockStore) (w : AccountWalk) : Account :=
  match w.block with
  | .stateBlock b => b.hashables.account
  | _ =>
    if w.successor = 0 then s.frontierGet w.hash
    else ((s.blockInfoGet w.successor).map fun info => info.account).getD 0

/-- Return account containing hash: follow the successors to a state block, to
a block with block info, or to the frontier. -/
def account (s : BlockStore) (h : BlockHash) : Except Fault Account :=
  match s.blockGet h with
  | none => .error .nullBlock
  | some block => do
    let w ← whileLoop .outOfFuel (AccountWalk.running s) (AccountWalk.step s) s.fuel
      ⟨h, 1, block⟩
    assertThat (w.result s ≠ 0)
    return w.result s

/-- Return latest block for account, zero when there is none. -/
def latest (s : BlockStore) (a : Account) : BlockHash :=
  ((s.accountGet a).map fun info => info.head).getD 0

/-! ## change_latest -/

def checksumUpdate (s : BlockStore) (h : BlockHash) : Except Fault BlockStore :=
  match s.checksumGet with
  | none => .error .assertion
  | some value => .ok (s.checksumPut (value ^^^ h))

def changeLatest (now : ℕ) (s : BlockStore) (a : Account) (hash repBlock : BlockHash)
    (balance : Uint128) (blockCount : ℕ) (isState : Bool) : Except Fault BlockStore := do
  let (info, s) ← match s.accountGet a with
    | some info => do
      let s ← checksumUpdate s info.head
      pure (info, s)
    | none =>
      match s.blockGet hash with
      | none => .error .nullBlock
      | some block => do
        assertThat (block.previous = 0)
        pure ({ AccountInfo.zero with openBlock := hash }, s)
  if hash ≠ 0 then do
    let s := s.accountPut a
      { info with head := hash, repBlock := repBlock, balance := balance, modified := now,
                  blockCount := blockCount }
    let s := if blockCount % BlockStore.blockInfoMax = 0 ∧ isState = false then
      s.blockInfoPut hash ⟨a, balance⟩ else s
    checksumUpdate s hash
  else
    s.accountDel a

/-! ## forked_block -/

def forkedBlock (p : Env) (s : BlockStore) (b : Block) : Except Fault Block := do
  assertThat (!s.blockExists (b.hash p))
  let root := b.root
  assertThat (s.blockExists root || s.accountExists root)
  match s.blockGet (s.blockSuccessor root) with
  | some result => return result
  | none =>
    match s.accountGet root with
    | none => .error .assertion
    | some info =>
      match s.blockGet info.openBlock with
      | none => .error .assertion
      | some result => return result

end Ledger

end RaiBlocks
