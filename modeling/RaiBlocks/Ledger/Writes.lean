import RaiBlocks.Ledger.Process
import RaiBlocks.Ledger.Rollback

/-!
# What processing and rollback write

`change_latest` is the only function through which the code changes the accounts
table and the checksum. So whatever `ledger::process` and `ledger::rollback` do is
a sequence of calls of it and of writes to other tables. This is said here once,
for any store and any block; a property of accounts and checksum that
`change_latest` preserves is then preserved by both.
-/

namespace RaiBlocks

open Foundation

namespace Ledger

/-- A write to the store, as far as accounts and checksum are concerned. -/
inductive Write (s s' : BlockStore) : Prop
  | other : s'.accounts = s.accounts → s'.checksum = s.checksum → Write s s'
  | latest {now : ℕ} {a : Account} {hash repBlock : BlockHash} {balance : Uint128}
      {blockCount : ℕ} {isState : Bool} :
      changeLatest now s a hash repBlock balance blockCount isState = .ok s' → Write s s'

/-- A sequence of writes. -/
abbrev Writes : BlockStore → BlockStore → Prop := Relation.ReflTransGen Write

/-- What is returned is the store after a sequence of writes. -/
def Wrote (s : BlockStore) (x : Except Fault BlockStore) : Prop := Returns (Writes s) x

section Rules

variable {s t : BlockStore} {x : Except Fault BlockStore} {α : Type}

theorem Writes.other (ha : t.accounts = s.accounts) (hc : t.checksum = s.checksum) : Writes s t :=
  .single (.other ha hc)

namespace Wrote

theorem ok (h : Writes s t) : Wrote s (.ok t) := Returns.ok h

theorem error (e : Fault) : Wrote s (.error e) := Returns.error e

theorem after (h : Writes s t) (hx : Wrote t x) : Wrote s x := fun r hr => h.trans (hx r hr)

theorem bind {f : BlockStore → Except Fault BlockStore} (hx : Wrote s x)
    (hf : ∀ t, Wrote t (f t)) : Wrote s (x >>= f) :=
  Returns.bind fun t ht => Wrote.after (hx t ht) (hf t)

theorem read {y : Except Fault α} {f : α → Except Fault BlockStore}
    (hf : ∀ a, Wrote s (f a)) : Wrote s (y >>= f) :=
  Returns.bind fun a _ => hf a

theorem ite {c : Prop} [Decidable c] {y : Except Fault BlockStore} (hx : Wrote s x)
    (hy : Wrote s y) : Wrote s (if c then x else y) :=
  Returns.ite (fun _ => hx) fun _ => hy

end Wrote

end Rules

/-! ## Tables -/

section Tables

variable (s : BlockStore)

theorem writes_pendingPut (k : PendingKey) (info : PendingInfo) : Writes s (s.pendingPut k info) :=
  .other rfl rfl

theorem writes_frontierPut (h : BlockHash) (a : Account) : Writes s (s.frontierPut h a) :=
  .other rfl rfl

theorem writes_blockPutRaw (type : BlockType) (h : BlockHash) (value : BlockEntry) :
    Writes s (s.blockPutRaw type h value) :=
  .other rfl rfl

theorem wrote_pendingDel (k : PendingKey) : Wrote s (s.pendingDel k) :=
  .read fun _ => .ok (.other rfl rfl)

theorem wrote_frontierDel (h : BlockHash) : Wrote s (s.frontierDel h) :=
  .read fun _ => .ok (.other rfl rfl)

theorem wrote_blockInfoDel (h : BlockHash) : Wrote s (s.blockInfoDel h) :=
  .read fun _ => .ok (.other rfl rfl)

theorem wrote_representationAdd (source : BlockHash) (amount : Uint128) :
    Wrote s (s.representationAdd source amount) := by
  unfold BlockStore.representationAdd
  split
  · exact .error _
  · exact .ok (.other rfl rfl)

theorem wrote_blockDel (h : BlockHash) : Wrote s (s.blockDel h) := by
  unfold BlockStore.blockDel
  split
  · exact .error _
  · exact .ok (.other rfl rfl)

theorem wrote_fillValue (p : Env) (b : Block) : Wrote s (s.fillValue p b) := by
  unfold BlockStore.fillValue
  split
  · exact .error _
  · exact .ok (.other rfl rfl)

theorem wrote_setPredecessor (p : Env) (b : Block) : Wrote s (s.setPredecessor p b) := by
  unfold BlockStore.setPredecessor
  split
  · exact .ok .refl
  · exact .ite (wrote_fillValue s p _) (.ok .refl)
  · exact wrote_fillValue s p _

theorem wrote_blockPut (p : Env) (h : BlockHash) (b : Block) (successor : BlockHash) :
    Wrote s (s.blockPut p h b successor) :=
  .read fun _ => .bind (.after (writes_blockPutRaw s _ _ _) (wrote_setPredecessor _ p b))
    fun _ => .read fun _ => .ok .refl

theorem wrote_blockSuccessorClear (p : Env) (h : BlockHash) :
    Wrote s (s.blockSuccessorClear p h) := by
  unfold BlockStore.blockSuccessorClear
  split
  · exact .error _
  · exact wrote_blockPut s p h _ 0

theorem wrote_changeLatest (now : ℕ) (a : Account) (hash repBlock : BlockHash)
    (balance : Uint128) (blockCount : ℕ) (isState : Bool) :
    Wrote s (changeLatest now s a hash repBlock balance blockCount isState) :=
  fun _ h => .single (.latest h)

end Tables

/-! ## Processing -/

section Process

variable {p : Env} {now : ℕ}

theorem wrote_stateBlockCommit (s : BlockStore) (b : StateBlock) (info : AccountInfo)
    (isSend : Bool) (amount : Uint128) :
    Wrote s (stateBlockCommit p now s b info isSend amount) := by
  have hrep : ∀ t, Wrote t (stateBlockRepresentation t ((Block.stateBlock b).hash p) info
      b.hashables.balance) := by
    intro t
    exact .ite (.bind (wrote_representationAdd t _ _) fun t => wrote_representationAdd t _ _)
      (.bind (.ok .refl) fun t => wrote_representationAdd t _ _)
  have hsettle : ∀ t, Wrote t (stateBlockSettle t ((Block.stateBlock b).hash p) b isSend
      amount) := by
    intro t
    exact .ite (.ok (.other rfl rfl)) (.ite (wrote_pendingDel t _) (.ok .refl))
  refine .bind (wrote_blockPut s p _ _ _) fun t => .bind (hrep t) fun t => .bind (hsettle t)
    fun t => .bind (wrote_changeLatest t _ _ _ _ _ _ _) fun t => ?_
  exact .ite (wrote_frontierDel t _) (.ok .refl)

theorem wrote_changeBlockCommit (s : BlockStore) (b : ChangeBlock) (account : Account)
    (info : AccountInfo) : Wrote s (changeBlockCommit p now s b account info) :=
  .bind (wrote_blockPut s p _ _ _) fun _ => .read fun _ =>
    .bind (wrote_representationAdd _ _ _) fun t => .bind (wrote_representationAdd t _ _)
    fun t => .bind (wrote_changeLatest t _ _ _ _ _ _ _) fun t =>
    .bind (wrote_frontierDel t _) fun t => .ok (writes_frontierPut t _ _)

theorem wrote_sendBlockCommit (s : BlockStore) (b : SendBlock) (account : Account)
    (info : AccountInfo) (amount : Uint128) :
    Wrote s (sendBlockCommit p now s b account info amount) :=
  .bind (wrote_representationAdd s _ _) fun t => .bind (wrote_blockPut t p _ _ _)
    fun t => .bind (wrote_changeLatest t _ _ _ _ _ _ _) fun t =>
    .bind (.after (writes_pendingPut t _ _) (wrote_frontierDel _ _)) fun t =>
    .ok (writes_frontierPut t _ _)

theorem wrote_receiveBlockCommit (s : BlockStore) (b : ReceiveBlock) (account : Account)
    (info : AccountInfo) (pending : PendingInfo) :
    Wrote s (receiveBlockCommit p now s b account info pending) :=
  .read fun _ => .read fun _ => .bind (wrote_pendingDel s _) fun t =>
    .bind (wrote_blockPut t p _ _ _) fun t => .bind (wrote_changeLatest t _ _ _ _ _ _ _)
    fun t => .bind (wrote_representationAdd t _ _) fun t => .bind (wrote_frontierDel t _)
    fun t => .ok (writes_frontierPut t _ _)

theorem wrote_openBlockCommit (s : BlockStore) (b : OpenBlock) (pending : PendingInfo) :
    Wrote s (openBlockCommit p now s b pending) :=
  .read fun _ => .bind (wrote_pendingDel s _) fun t => .bind (wrote_blockPut t p _ _ _)
    fun t => .bind (wrote_changeLatest t _ _ _ _ _ _ _) fun t =>
    .bind (wrote_representationAdd t _ _) fun t => .ok (writes_frontierPut t _ _)

/-- A result with a code, from the store that a commit leaves. -/
theorem wrote_progress {s : BlockStore} {x : Except Fault BlockStore} (hx : Wrote s x)
    (ret : ProcessReturn) :
    Returns (fun r : BlockStore × ProcessReturn => Writes s r.1) (x >>= fun s => .ok (s, ret)) :=
  Returns.bind fun t ht => Returns.ok (hx t ht)

theorem process_writes (s : BlockStore) (b : Block) :
    Returns (fun r : BlockStore × ProcessReturn => Writes s r.1) (process p now s b) := by
  have hrefused : ∀ ret : ProcessReturn, Returns
      (fun r : BlockStore × ProcessReturn => Writes s r.1) (.ok (s, ret) : Except Fault _) :=
    fun ret => Returns.ok .refl
  cases b with
  | sendBlock b =>
    unfold process sendBlock
    refine .ite (fun _ => hrefused _) fun _ => ?_
    split
    · exact hrefused _
    refine .ite (fun _ => hrefused _) fun _ => .ite (fun _ => hrefused _) fun _ =>
      .ite (fun _ => hrefused _) fun _ => ?_
    split
    · exact Returns.error _
    refine Returns.bind fun _ _ => .ite (fun _ => hrefused _) fun _ => Returns.bind fun _ _ => ?_
    exact wrote_progress (wrote_sendBlockCommit s b _ _ _) _
  | receiveBlock b =>
    unfold process receiveBlock
    refine .ite (fun _ => hrefused _) fun _ => ?_
    split
    · exact hrefused _
    refine .ite (fun _ => hrefused _) fun _ => .ite (fun _ => hrefused _) fun _ =>
      .ite (fun _ => hrefused _) fun _ => .ite (fun _ => hrefused _) fun _ =>
      .ite (fun _ => hrefused _) fun _ => ?_
    split
    · exact hrefused _
    · exact wrote_progress (wrote_receiveBlockCommit s b _ _ _) _
  | openBlock b =>
    unfold process openBlock
    refine .ite (fun _ => hrefused _) fun _ => .ite (fun _ => hrefused _) fun _ =>
      .ite (fun _ => hrefused _) fun _ => ?_
    split
    · exact hrefused _
    split
    · exact hrefused _
    exact .ite (fun _ => hrefused _) fun _ => wrote_progress (wrote_openBlockCommit s b _) _
  | changeBlock b =>
    unfold process changeBlock
    refine .ite (fun _ => hrefused _) fun _ => ?_
    split
    · exact hrefused _
    refine .ite (fun _ => hrefused _) fun _ => .ite (fun _ => hrefused _) fun _ => ?_
    split
    · exact Returns.error _
    refine Returns.bind fun _ _ => .ite (fun _ => hrefused _) fun _ => ?_
    exact wrote_progress (wrote_changeBlockCommit s b _ _) _
  | stateBlock b =>
    unfold process stateBlockImpl
    refine .ite (fun _ => hrefused _) fun _ => .ite (fun _ => hrefused _) fun _ =>
      .ite (fun _ => hrefused _) fun _ => Returns.bind fun c _ => ?_
    exact .ite (fun _ => wrote_progress (wrote_stateBlockCommit s b _ _ _) _)
      fun _ => hrefused _

end Process

/-! ## Rollback -/

section Rollback

variable {p : Env} {now fuel : ℕ} {rb : BlockStore → BlockHash → Except Fault BlockStore}

theorem Wrote.whileLoop {cond : BlockStore → Bool} {body : BlockStore → Except Fault BlockStore}
    (hbody : ∀ t, Wrote t (body t)) (n : ℕ) (s : BlockStore) :
    Wrote s (Foundation.whileLoop .outOfFuel cond body n s) := by
  intro t ht
  have hinv := whileLoop_invariant (I := Writes s)
    (fun s₁ s₂ h₁ _ h₂ => h₁.trans (hbody s₁ s₂ h₂)) n s t .refl ht
  exact hinv.1

theorem wrote_restorePrevious (s : BlockStore) (hash previous : BlockHash) (account : Account)
    (blockCount : ℕ) : Wrote s (restorePrevious p s hash previous account blockCount) :=
  .bind (wrote_frontierDel s _) fun t => .bind (.after (writes_frontierPut t _ _)
    (wrote_blockSuccessorClear _ p _)) fun t => .ite (wrote_blockInfoDel t _) (.ok .refl)

theorem wrote_sendBlockUndo (s : BlockStore) (b : SendBlock) :
    Wrote s (sendBlockUndo p now s b) := by
  unfold sendBlockUndo
  dsimp only
  split
  · exact .error _
  split
  · exact .error _
  exact .bind (wrote_pendingDel s _) fun _ => .read fun _ => .bind (wrote_representationAdd _ _ _)
    fun _ => .read fun _ => .bind (wrote_changeLatest _ _ _ _ _ _ _ _) fun t =>
    .bind (wrote_blockDel t _) fun t => wrote_restorePrevious t _ _ _ _

theorem wrote_rollbackReceive (s : BlockStore) (b : ReceiveBlock) :
    Wrote s (rollbackReceive p now s b) := by
  refine .read fun _ => .read fun _ => .read fun _ => .read fun _ => ?_
  split
  · exact .error _
  exact .read fun _ => .bind (wrote_representationAdd s _ _) fun _ => .read fun _ =>
    .bind (wrote_changeLatest _ _ _ _ _ _ _ _) fun t => .bind (wrote_blockDel t _) fun t =>
    .after (writes_pendingPut t _ _) (wrote_restorePrevious _ _ _ _ _)

theorem wrote_rollbackOpen (s : BlockStore) (b : OpenBlock) : Wrote s (rollbackOpen p now s b) :=
  .read fun _ => .read fun _ => .read fun _ => .read fun _ =>
    .bind (wrote_representationAdd s _ _) fun t => .bind (wrote_changeLatest t _ _ _ _ _ _ _)
    fun t => .bind (wrote_blockDel t _) fun t =>
    .after (writes_pendingPut t _ _) (wrote_frontierDel _ _)

theorem wrote_rollbackChange (s : BlockStore) (b : ChangeBlock) :
    Wrote s (rollbackChange p now s b) := by
  refine .read fun _ => .read fun _ => ?_
  split
  · exact .error _
  exact .read fun _ => .bind (wrote_representationAdd s _ _) fun t =>
    .bind (wrote_representationAdd t _ _) fun t => .bind (wrote_blockDel t _) fun t =>
    .bind (wrote_changeLatest t _ _ _ _ _ _ _) fun t => wrote_restorePrevious t _ _ _ _

theorem wrote_stateBlockUndo (s : BlockStore) (b : StateBlock) (rep : BlockHash)
    (balance : Uint128) : Wrote s (stateBlockUndo p now s b rep balance) := by
  have hprevious : ∀ t, Wrote t (stateBlockRestorePrevious p t b) := by
    intro t
    unfold stateBlockRestorePrevious
    split
    · exact .bind (wrote_blockSuccessorClear t p _) fun t =>
        .ite (.ok (writes_frontierPut t _ _)) (.ok .refl)
    · exact .ok .refl
  unfold stateBlockUndo
  dsimp only
  split
  · exact .error _
  exact .bind (wrote_changeLatest s _ _ _ _ _ _ _) fun t => .bind (hprevious t) fun t =>
    wrote_blockDel t _

variable (hrb : ∀ s h, Wrote s (rb s h))

include hrb

theorem wrote_rollbackReceiver (s : BlockStore) (key : PendingKey) :
    Wrote s (rollbackReceiver rb fuel s key) :=
  .whileLoop (fun t => hrb t _) fuel s

theorem wrote_rollbackState (s : BlockStore) (b : StateBlock) :
    Wrote s (rollbackState p now rb fuel s b) := by
  have hreweigh : ∀ t rep balance, Wrote t (stateBlockReweigh t ((Block.stateBlock b).hash p) b
      rep balance) := fun t _ _ => .bind (wrote_representationAdd t _ _) fun t =>
    .ite (wrote_representationAdd t _ _) (.ok .refl)
  have hpending : ∀ t balance, Wrote t (stateBlockPending p rb fuel t b balance) := fun t _ =>
    .ite (.bind (wrote_rollbackReceiver hrb t _) fun t => wrote_pendingDel t _)
      (.ite (.read fun _ => .read fun _ => .ok (writes_pendingPut t _ _)) (.ok .refl))
  have hrest : ∀ rep, Wrote s (balance p s b.hashables.previous >>= fun balance =>
      stateBlockReweigh s ((Block.stateBlock b).hash p) b rep balance >>= fun t =>
      stateBlockPending p rb fuel t b balance >>= fun t =>
      stateBlockUndo p now t b rep balance) := fun _ =>
    .read fun _ => .bind (hreweigh s _ _) fun t => .bind (hpending t _)
    fun t => wrote_stateBlockUndo t b _ _
  exact .ite (.read hrest) (.read hrest)

theorem wrote_rollbackHead (a : Account) (s : BlockStore) :
    Wrote s (rollbackHead p now rb fuel a s) := by
  unfold rollbackHead
  split
  · exact .error _
  split
  · exact .error _
  rename_i block _
  cases block with
  | sendBlock b =>
    exact .bind (wrote_rollbackReceiver hrb s _) fun t => wrote_sendBlockUndo t b
  | receiveBlock b => exact wrote_rollbackReceive s b
  | openBlock b => exact wrote_rollbackOpen s b
  | changeBlock b => exact wrote_rollbackChange s b
  | stateBlock b => exact wrote_rollbackState hrb s b

omit hrb

theorem wrote_rollbackFuel : ∀ fuel s h, Wrote s (rollbackFuel p now fuel s h)
  | 0, _, _ => .error _
  | fuel + 1, s, _ => .read fun _ => .read fun a =>
    .whileLoop (wrote_rollbackHead (wrote_rollbackFuel fuel) a) fuel s

theorem rollback_writes (s : BlockStore) (h : BlockHash) : Wrote s (rollback p now s h) :=
  wrote_rollbackFuel s.fuel s h

end Rollback

end Ledger

end RaiBlocks
