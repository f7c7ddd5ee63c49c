import RaiBlocks.Node.BlockProcessor
import RaiBlocks.Votes.VoteStore
import RaiBlocks.Wallet.WalletStore

/-!
# Wallet actions

Translation of `wallet::receive_action`, `wallet::change_action`,
`wallet::send_action` and `wallets::foreach_representative`
(`rai/node/wallet.cpp`), with the ledger queries they use (`rai/ledger.cpp`). The
actions read the ledger and the wallet and build a state block, which the node then
processes; they return the block. Precomputing work for the next block and logging are
left out, and so are errors of the database but those for a key of a bad size.
-/

namespace RaiBlocks

open Foundation

/-- The surroundings of a wallet in a node. -/
structure ActionEnv extends WalletEnv, NodeEnv where
  /-- `sign_message`, for a private key, its public key and a message. -/
  sign : Uint256 → Account → Uint256 → Signature
  /-- `work_generate_blocking`, for a root. -/
  workGenerate : BlockHash → Work

/-- The value of an optional result that is asserted to be there. -/
def assertSome {α : Type} : Option α → Except Fault α
  | some a => .ok a
  | none => .error .assertion

theorem assertSome_eq_ok {α : Type} {x : Option α} {a : α} (h : assertSome x = .ok a) :
    x = some a := by
  cases x with
  | none => cases h
  | some b => exact congrArg some (Except.ok.inj h)

/-! ## Ledger queries -/

namespace Ledger

def accountBalance (s : BlockStore) (a : Account) : Uint128 :=
  ((s.accountGet a).map AccountInfo.balance).getD 0

/-- Zero for a block that does not send. -/
def blockDestination (p : Env) (s : BlockStore) : Block → Except Fault Account
  | .sendBlock b => .ok b.hashables.destination
  | .stateBlock b => do
    if ← isSend p s b then return b.hashables.link else return 0
  | _ => .ok 0

/-- The weights in force while the ledger is small. -/
structure BootstrapWeights where
  checked : Bool
  maxBlocks : ℕ
  weights : Table Account Uint128

/-- Vote weight of an account. -/
def weight (bootstrap : BootstrapWeights) (s : BlockStore) (a : Account) : Uint128 :=
  if bootstrap.checked ∧ s.blockCount < bootstrap.maxBlocks then
    (bootstrap.weights.lookup a).getD (s.representationGet a)
  else s.representationGet a

end Ledger

/-! ## Blocks -/

/-- `work_get`; without an entry the value of the caller stays, which is 0. -/
def WalletStore.workGet {e : WalletEnv} (w : WalletStore e) (pub : Uint256) : Work :=
  let entry := w.entryGetRaw pub
  if entry.key ≠ 0 then entry.work else 0

namespace ActionEnv

variable (e : ActionEnv)

/-- The constructor of state blocks that signs. -/
def stateBlock (hashables : StateHashables) (prv pub : Uint256) (work : Work) : StateBlock where
  hashables := hashables
  signature := e.sign prv pub ((Block.stateBlock ⟨hashables, 0, 0⟩).hash e.toEnv)
  work := work

/-- The block with work that is sufficient. -/
def ensureWork (b : StateBlock) : Block :=
  let root := (Block.stateBlock b).root
  if e.workValidate root b.work then .stateBlock { b with work := e.workGenerate root }
  else .stateBlock b

end ActionEnv

/-! ## Actions -/

namespace WalletStore

variable {e : ActionEnv}

/-- `receive_action` -/
def receiveAction (receiveMinimum : Uint128) (s : BlockStore) (w : WalletStore e.toWalletEnv)
    (send : Block) (representative : Account) (amount : Uint128) : Except Fault (Option Block) :=
  let hash := send.hash e.toEnv
  if receiveMinimum ≤ amount ∧ s.blockExists hash = true then do
    let account ← Ledger.blockDestination e.toEnv s send
    match s.pendingGet ⟨account, hash⟩, w.fetch account with
    | some pending, some prv =>
      let work := w.workGet account
      match s.accountGet account with
      | some info => do
        let repBlock ← assertSome (s.blockGet info.repBlock)
        let hashables := ⟨account, info.head, repBlock.representative,
          info.balance + pending.amount, hash⟩
        return some (e.ensureWork (e.stateBlock hashables prv account work))
      | none =>
        let hashables := ⟨account, 0, representative, pending.amount, hash⟩
        return some (e.ensureWork (e.stateBlock hashables prv account work))
    | _, _ => return none
  else .ok none

/-- `change_action` -/
def changeAction (s : BlockStore) (w : WalletStore e.toWalletEnv)
    (source representative : Account) : Except Fault (Option Block) :=
  if w.validPassword = true ∧ w.exists' source = true ∧ Ledger.latest s source ≠ 0 then do
    let info ← assertSome (s.accountGet source)
    let prv ← assertSome (w.fetch source)
    let hashables := ⟨source, info.head, representative, info.balance, 0⟩
    return some (e.ensureWork (e.stateBlock hashables prv source (w.workGet source)))
  else .ok none

/-- What `send_action` returns and leaves behind. -/
structure SendResult where
  block : Option Block
  /-- Is the block new? -/
  created : Bool
  /-- The table `send_action_ids`. -/
  ids : Table String BlockHash

/-- The block of an earlier call with the same id, if the ledger has it. -/
def cachedBlock (s : BlockStore) (ids : Table String BlockHash) (id : Option String) :
    Option Block := do
  let id ← id
  let hash ← ids.lookup id
  s.blockGet hash

def recordId (ids : Table String BlockHash) (id : Option String) (h : BlockHash) :
    Table String BlockHash :=
  match id with
  | some id => ids.insert id h
  | none => ids

/-- The block that `send_action` builds. -/
def sendBlock (s : BlockStore) (w : WalletStore e.toWalletEnv) (source destination : Account)
    (amount : Uint128) : Except Fault Block := do
  let info ← assertSome (s.accountGet source)
  let prv ← assertSome (w.fetch source)
  let repBlock ← assertSome (s.blockGet info.repBlock)
  let hashables := ⟨source, info.head, repBlock.representative,
    Ledger.accountBalance s source - amount, destination⟩
  return e.ensureWork (e.stateBlock hashables prv source (w.workGet source))

/-- The database has no larger keys, in bytes. -/
def maxKeySize : ℕ := 511

/-- `mdb_get` fails for an empty key. A key that is too long is not found. -/
def readableId (id : Option String) : Bool := id.all fun id => decide (0 < id.utf8ByteSize)

/-- `mdb_put` fails for both. -/
def writableId (id : Option String) : Bool :=
  id.all fun id => decide (0 < id.utf8ByteSize) && decide (id.utf8ByteSize ≤ maxKeySize)

/-- The end of `send_action`: the new block is given up if its id cannot be written. -/
def finishSend (ids : Table String BlockHash) (id : Option String) (block : Block) : SendResult :=
  if writableId id then ⟨some block, true, recordId ids id (block.hash e.toEnv)⟩
  else ⟨none, false, ids⟩

/-- `send_action` -/
def sendAction (s : BlockStore) (w : WalletStore e.toWalletEnv) (ids : Table String BlockHash)
    (source destination : Account) (amount : Uint128) (id : Option String) :
    Except Fault SendResult :=
  if readableId id then
    match cachedBlock s ids id with
    | some block => .ok ⟨some block, false, ids⟩
    | none =>
      let balance := Ledger.accountBalance s source
      if w.validPassword = true ∧ w.exists' source = true ∧ balance ≠ 0 ∧ amount ≤ balance then do
        let block ← sendBlock s w source destination amount
        return finishSend (e := e) ids id block
      else .ok ⟨none, false, ids⟩
  else .ok ⟨none, false, ids⟩

section SendAction

variable {s : BlockStore} {w : WalletStore e.toWalletEnv} {ids : Table String BlockHash}
  {source destination : Account} {amount : Uint128} {id : Option String}

/-- What has to hold for `send_action` to build a block. -/
def MaySend (s : BlockStore) (w : WalletStore e.toWalletEnv) (source : Account)
    (amount : Uint128) : Prop :=
  w.validPassword = true ∧ w.exists' source = true ∧ Ledger.accountBalance s source ≠ 0 ∧
    amount ≤ Ledger.accountBalance s source

theorem sendAction_unreadable (hid : readableId id = false) :
    sendAction s w ids source destination amount id = .ok ⟨none, false, ids⟩ := by
  unfold sendAction
  rw [hid]
  rfl

theorem sendAction_cached (hid : readableId id = true) {b : Block}
    (h : cachedBlock s ids id = some b) :
    sendAction s w ids source destination amount id = .ok ⟨some b, false, ids⟩ := by
  unfold sendAction
  rw [if_pos hid, h]

theorem sendAction_new (hid : readableId id = true) (h : cachedBlock s ids id = none)
    (hmay : MaySend s w source amount) :
    sendAction s w ids source destination amount id =
      sendBlock s w source destination amount >>= fun block =>
        .ok (finishSend (e := e) ids id block) := by
  unfold sendAction
  rw [if_pos hid, h]
  exact if_pos hmay

theorem sendAction_idle (h : cachedBlock s ids id = none) (hmay : ¬ MaySend s w source amount) :
    sendAction s w ids source destination amount id = .ok ⟨none, false, ids⟩ := by
  cases hid : readableId id with
  | false => exact sendAction_unreadable hid
  | true =>
    unfold sendAction
    rw [if_pos hid, h]
    exact if_neg hmay

/-- The block is made and its id written, or nothing has happened. -/
theorem finishSend_cases (ids : Table String BlockHash) (id : Option String) (block : Block) :
    writableId id = true ∧ finishSend (e := e) ids id block =
        ⟨some block, true, recordId ids id (block.hash e.toEnv)⟩ ∨
      finishSend (e := e) ids id block = ⟨none, false, ids⟩ := by
  unfold finishSend
  split
  · exact Or.inl ⟨‹_›, rfl⟩
  · exact Or.inr rfl

end SendAction

/-! ## Representatives -/

variable {σ : Type}

/-- One account in the loop of `foreach_representative`. A locked wallet is skipped. -/
def forRepresentative (weight : Account → Uint128) (action : Account → Uint256 → σ → σ)
    (w : WalletStore e.toWalletEnv) (st : σ) (account : Account) : Except Fault σ :=
  if weight account ≠ 0 ∧ w.validPassword = true then do
    let prv ← assertSome (w.fetch account)
    return action account prv st
  else .ok st

/-- `foreach_representative`: the accounts of all wallets. -/
def foreachRepresentative (weight : Account → Uint128) (action : Account → Uint256 → σ → σ)
    (items : List (WalletStore e.toWalletEnv)) (st : σ) : Except Fault σ :=
  items.foldlM (fun st w => w.accounts.foldlM (forRepresentative weight action w) st) st

/-- The votes `compute_rep_votes` generates for a block, with the cache after them. -/
def computeRepVotes (weight : Account → Uint128) (table : VoteTable)
    (items : List (WalletStore e.toWalletEnv)) (winner : Block) (cache : VoteTable) :
    Except Fault (VoteTable × List Vote) :=
  foreachRepresentative weight (fun pub prv st =>
    let (vote, cache) := voteGenerate e.toEnv (e.sign prv pub) st.1 table pub winner
    (cache, st.2 ++ [vote])) items (cache, [])

end WalletStore

end RaiBlocks
