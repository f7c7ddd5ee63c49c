import RaiBlocks.Foundation.OrderedMap
import RaiBlocks.Foundation.Rows
import RaiBlocks.Ledger.Ledger
import RaiBlocks.Votes.VoteStore

/-!
# Upgrading a store

Translation of `block_store::do_upgrades` and of `rai/versioning.cpp`. The file of a
store has a version, and each upgrade takes it to the next one: rows change their
format, and what earlier versions did not keep is computed by walking the chains.
Upgrades run when the store is opened, in one transaction and before anything else.

The rows of accounts and pending entries in older formats are kept apart from those
of the current one. In the file they are in one table; a row is read in one format,
and a row of another size is a failed assertion.
-/

namespace RaiBlocks

open Foundation

/-! ## Older formats -/

structure AccountInfoV1 where
  head : BlockHash
  repBlock : BlockHash
  balance : Uint128
  modified : ℕ
deriving DecidableEq

structure AccountInfoV5 where
  head : BlockHash
  repBlock : BlockHash
  openBlock : BlockHash
  balance : Uint128
  modified : ℕ
deriving DecidableEq

/-- Pending entries up to version 3 have the hash of the send as their key. -/
structure PendingInfoV3 where
  source : Account
  amount : Uint128
  destination : Account
deriving DecidableEq

/-- A row of the accounts table before version 6. -/
inductive OldAccountInfo where
  | v1 (info : AccountInfoV1)
  | v5 (info : AccountInfoV5)
deriving DecidableEq

/-- Reading a row as `account_info_v1`. -/
def OldAccountInfo.asV1 : OldAccountInfo → Except Fault AccountInfoV1
  | .v1 info => .ok info
  | .v5 _ => .error .assertion

/-- Reading a row as `account_info_v5`. -/
def OldAccountInfo.asV5 : OldAccountInfo → Except Fault AccountInfoV5
  | .v1 _ => .error .assertion
  | .v5 info => .ok info

/-- The file of a store. -/
structure StoreFile where
  version : ℕ
  /-- The tables, with the rows that are in the current format. -/
  store : BlockStore
  oldAccounts : Table Account OldAccountInfo
  oldPending : Table BlockHash PendingInfoV3
  unchecked : Table BlockHash (List Block)
  vote : VoteTable
  /-- The sequence numbers of votes up to version 8, in the order of the table. -/
  sequence : List (Account × Uint64)
  /-- Blocks to be sent to peers, as long as there is such a table. -/
  unsynced : Option (List BlockHash)

namespace BlockStore

/-- The block of a hash, dereferenced. -/
def blockAt (s : BlockStore) (h : BlockHash) : Except Fault Block :=
  match s.blockGet h with
  | none => .error .nullBlock
  | some block => .ok block

def blockBalance (p : Env) (s : BlockStore) (h : BlockHash) : Except Fault Uint128 :=
  balanceCompute p s s.fuel h

end BlockStore

namespace StoreFile

/-- What an iterator over the accounts meets before version 6. A row in the current
format fails the check of its size. -/
def latestRows (f : StoreFile) : Except Fault (List (Account × OldAccountInfo)) := do
  assertThat (decide (f.store.accounts = ∅))
  return f.oldAccounts.rows (· ≤ ·)

/-! ## Version 2: the open block of an account -/

/-- The first block of the chain with head `head`. -/
def findOpen (p : Env) (s : BlockStore) (head : BlockHash) : Except Fault BlockHash := do
  let block ← s.blockAt head
  let block ← whileLoop .outOfFuel (fun block : Block => block.previous ≠ 0)
    (fun block => s.blockAt block.previous) s.fuel block
  return block.hash p

/-- One iteration: the first row from `account` on gets its open block. At the end of
the table the account is cleared, which ends the loop. -/
def upgradeV1ToV2Step (p : Env) : StoreFile × Account → Except Fault (StoreFile × Account)
  | (f, account) =>
    match f.oldAccounts.firstFrom (· ≤ ·) account with
    | none => .ok (f, 0)
    | some (account, row) => do
      let v1 ← row.asV1
      let openBlock ← findOpen p f.store v1.head
      let v2 := ⟨v1.head, v1.repBlock, openBlock, v1.balance, v1.modified⟩
      return ({ f with oldAccounts := f.oldAccounts.insert account (.v5 v2) }, account + 1)

/-- The loop starts at account 1. An account number that wraps to 0 ends it too. -/
def upgradeV1ToV2 (p : Env) (f : StoreFile) : Except Fault StoreFile := do
  assertThat (decide (f.store.accounts = ∅))
  let (f, _) ← whileLoop .outOfFuel (fun x => x.2 ≠ 0) (upgradeV1ToV2Step p)
    (f.oldAccounts.keys.card + 1) ({ f with version := 2 }, 1)
  return f

/-! ## Version 3: representatives -/

def upgradeV2ToV3Step (p : Env) (f : StoreFile) (row : Account × OldAccountInfo) :
    Except Fault StoreFile := do
  let info ← row.2.asV5
  let result ← representativeCompute p f.store f.store.fuel info.head
  assertThat (result ≠ 0)
  let store ← f.store.representationAdd result info.balance
  return { f with
    oldAccounts := f.oldAccounts.insert row.1 (.v5 { info with repBlock := result })
    store := store }

def upgradeV2ToV3 (p : Env) (f : StoreFile) : Except Fault StoreFile := do
  let rows ← f.latestRows
  rows.foldlM (upgradeV2ToV3Step p)
    { f with version := 3, store := { f.store with representation := ∅ } }

/-! ## Version 4: the key of a pending entry -/

/-- The entry in the format of version 4. -/
def pendingItem (row : BlockHash × PendingInfoV3) : PendingKey × PendingInfo :=
  (⟨row.2.destination, row.1⟩, ⟨row.2.source, row.2.amount⟩)

def upgradeV3ToV4 (f : StoreFile) : Except Fault StoreFile := do
  assertThat (decide (f.store.pending = ∅))
  let items := (f.oldPending.rows (· ≤ ·)).map pendingItem
  return { f with
    version := 4
    oldPending := ∅
    store := items.foldl (fun s item => s.pendingPut item.1 item.2)
      { f.store with pending := ∅ } }

/-! ## Version 5: successors -/

/-- The loop variables of `upgrade_v4_to_v5`: the walk goes from the head to the open
block, with the block above the current one as `successor`. -/
structure SuccessorWalk where
  store : BlockStore
  successor : BlockHash
  block : Option Block

def SuccessorWalk.step (p : Env) (w : SuccessorWalk) : Except Fault SuccessorWalk :=
  match w.block with
  | none => .ok w
  | some block => do
    let hash := block.hash p
    let store ← (if w.store.blockSuccessor hash = 0 ∧ w.successor ≠ 0 then
      w.store.blockPut p hash block w.successor else .ok w.store)
    return ⟨store, hash, store.blockGet block.previous⟩

def upgradeV4ToV5Step (p : Env) (f : StoreFile) (row : Account × OldAccountInfo) :
    Except Fault StoreFile := do
  let info ← row.2.asV5
  let w ← whileLoop .outOfFuel (fun w : SuccessorWalk => w.block.isSome) (SuccessorWalk.step p)
    f.store.fuel ⟨f.store, 0, f.store.blockGet info.head⟩
  return { f with store := w.store }

def upgradeV4ToV5 (p : Env) (f : StoreFile) : Except Fault StoreFile := do
  let rows ← f.latestRows
  rows.foldlM (upgradeV4ToV5Step p) { f with version := 5 }

/-! ## Version 6: block counts -/

structure CountWalk where
  hash : BlockHash
  blockCount : ℕ

def CountWalk.step (s : BlockStore) (w : CountWalk) : Except Fault CountWalk :=
  match s.blockGet w.hash with
  | none => .error .assertion
  | some block => .ok ⟨block.previous, w.blockCount + 1⟩

/-- The number of blocks of the chain with head `head`. -/
def countBlocks (s : BlockStore) (head : BlockHash) : Except Fault ℕ := do
  let w ← whileLoop .outOfFuel (fun w : CountWalk => w.hash ≠ 0) (CountWalk.step s) s.fuel
    ⟨head, 0⟩
  return w.blockCount

def header (s : BlockStore) (row : Account × OldAccountInfo) :
    Except Fault (Account × AccountInfo) := do
  let old ← row.2.asV5
  let blockCount ← countBlocks s old.head
  return (row.1, ⟨old.head, old.repBlock, old.openBlock, old.balance, old.modified, blockCount⟩)

/-- The new row takes the place of the old one. -/
def accountPut (f : StoreFile) (account : Account) (info : AccountInfo) : StoreFile :=
  { f with
    oldAccounts := f.oldAccounts.erase account
    store := f.store.accountPut account info }

def upgradeV5ToV6 (f : StoreFile) : Except Fault StoreFile := do
  let rows ← f.latestRows
  let headers ← rows.mapM (header f.store)
  return headers.foldl (fun f header => f.accountPut header.1 header.2) { f with version := 6 }

/-! ## Versions 7 to 9: unchecked blocks and votes -/

def upgradeV6ToV7 (f : StoreFile) : Except Fault StoreFile :=
  .ok { f with version := 7, unchecked := ∅ }

/-- The table is deleted and created again. -/
def upgradeV7ToV8 (f : StoreFile) : Except Fault StoreFile :=
  .ok { f with version := 8, unchecked := ∅ }

/-- Create a dummy vote with the same sequence number for easy upgrading. `sign` is
`sign_message` with a new key, so this won't have a valid signature. -/
def upgradeV8ToV9 (p : Env) (sign : Uint256 → Signature) (f : StoreFile) : Except Fault StoreFile :=
  .ok { f with
    version := 9
    vote := f.sequence.foldl (fun vote row =>
      vote.put (Vote.make p sign row.1 row.2 p.genesisBlock)) f.vote
    sequence := [] }

/-! ## Version 10: block info -/

/-- The loop variables of `upgrade_v9_to_v10`: the walk goes from the open block to the
head. -/
structure InfoWalk where
  store : BlockStore
  hash : BlockHash
  blockCount : ℕ

def InfoWalk.step (p : Env) (account : Account) (w : InfoWalk) : Except Fault InfoWalk := do
  let store ← (if w.blockCount % BlockStore.blockInfoMax = 0 then do
      let balance ← w.store.blockBalance p w.hash
      return w.store.blockInfoPut w.hash ⟨account, balance⟩
    else .ok w.store)
  return ⟨store, store.blockSuccessor w.hash, w.blockCount + 1⟩

def upgradeV9ToV10Step (p : Env) (f : StoreFile) (row : Account × AccountInfo) :
    Except Fault StoreFile :=
  if BlockStore.blockInfoMax ≤ row.2.blockCount then do
    let w ← whileLoop .outOfFuel (fun w : InfoWalk => w.hash ≠ 0) (InfoWalk.step p row.1)
      f.store.fuel ⟨f.store, row.2.openBlock, 1⟩
    return { f with store := w.store }
  else .ok f

/-- A row in an older format fails the check of its size. -/
def upgradeV9ToV10 (p : Env) (f : StoreFile) : Except Fault StoreFile := do
  assertThat (decide (f.oldAccounts = ∅))
  (f.store.accounts.rows (· ≤ ·)).foldlM (upgradeV9ToV10Step p) { f with version := 10 }

/-- The version is not written. -/
def upgradeV10ToV11 (f : StoreFile) : Except Fault StoreFile := .ok { f with unsynced := none }

/-! ## All of them -/

/-- The cases of the `switch` in `do_upgrades`, each of which falls through to the
next. -/
def upgrades (p : Env) (sign : Uint256 → Signature) : List (StoreFile → Except Fault StoreFile) :=
  [upgradeV1ToV2 p, upgradeV2ToV3 p, upgradeV3ToV4, upgradeV4ToV5 p, upgradeV5ToV6,
    upgradeV6ToV7, upgradeV7ToV8, upgradeV8ToV9 p sign, upgradeV9ToV10 p, upgradeV10ToV11]

/-- The upgrades that run on a file. -/
def steps (p : Env) (sign : Uint256 → Signature) (f : StoreFile) :
    List (StoreFile → Except Fault StoreFile) :=
  (upgrades p sign).drop (f.version - 1)

def doUpgrades (p : Env) (sign : Uint256 → Signature) (f : StoreFile) : Except Fault StoreFile :=
  if 1 ≤ f.version ∧ f.version ≤ 11 then
    (f.steps p sign).foldlM (fun f upgrade => upgrade f) f
  else .error .assertion

/-- The constructor of `block_store` on the file. -/
def openStore (p : Env) (sign : Uint256 → Signature) (f : StoreFile) : Except Fault StoreFile := do
  let f ← f.doUpgrades p sign
  return { f with store := f.store.checksumPut 0 }

end StoreFile

end RaiBlocks
