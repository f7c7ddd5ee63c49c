import RaiBlocks.Ledger.Run

/-!
# Checked arithmetic

`p.trapping` is `p` with balance arithmetic that faults where the code would
wrap. Nothing else depends on it, so what a call achieves with checked
arithmetic it achieves, with the same result, without: a call that does not
fault under `p.trapping` is a call in which no addition or subtraction of
balances wraps.
-/

namespace RaiBlocks

open Foundation BalanceVisitor

/-- The same surroundings with checked arithmetic. -/
def Env.trapping (p : Env) : Env := { p with trap := true }

variable {p : Env} {s : BlockStore}

theorem Block.hash_trapping (b : Block) : b.hash p.trapping = b.hash p := rfl

theorem balanceAdd_trapping (a b : Uint128) :
    Below (balanceAdd p.trapping a b) (balanceAdd p a b) := by
  intro r hr
  unfold balanceAdd at hr ⊢
  split at hr
  · cases hr
  · rename_i hc
    rw [if_neg]
    · exact hr
    · intro hc'
      exact hc (by simp_all [Env.trapping])

theorem balanceSub_trapping (a b : Uint128) :
    Below (balanceSub p.trapping a b) (balanceSub p a b) := by
  intro r hr
  unfold balanceSub at hr ⊢
  split at hr
  · cases hr
  · rename_i hc
    rw [if_neg]
    · exact hr
    · intro hc'
      exact hc (by simp_all [Env.trapping])

/-! ## The visitors -/

theorem AmountVisitor.step_trapping {f g : BlockHash → Except Fault Uint128}
    (hf : ∀ h, Below (f h) (g h)) (h : BlockHash) (v : AmountVisitor) :
    Below (AmountVisitor.step p.trapping s f h v) (AmountVisitor.step p s g h v) := by
  refine .ite (fun _ => .refl _) fun _ => .bind (hf _) fun prev => ?_
  dsimp only
  refine .ite (fun _ => ?_) fun _ => ?_
  · exact .bind (balanceSub_trapping _ _) fun _ => .refl _
  · exact .bind (balanceSub_trapping _ _) fun _ => .refl _

theorem BalanceVisitor.visit_trapping (v : BalanceVisitor) (b : Block) :
    Below (visit p.trapping s v b) (visit p s v b) := by
  cases b with
  | sendBlock b => exact .bind (balanceAdd_trapping _ _) fun _ => .refl _
  | receiveBlock b =>
    unfold visit
    dsimp only
    rw [Block.hash_trapping]
    cases s.blockInfoGet ((Block.receiveBlock b).hash p) with
    | none => exact .refl _
    | some info => exact .bind (balanceAdd_trapping _ _) fun _ => .refl _
  | changeBlock b =>
    unfold visit
    dsimp only
    rw [Block.hash_trapping]
    cases s.blockInfoGet ((Block.changeBlock b).hash p) with
    | none => exact .refl _
    | some info => exact .bind (balanceAdd_trapping _ _) fun _ => .refl _
  | _ => exact .refl _

theorem BalanceVisitor.step_trapping {f g : BlockHash → Except Fault Uint128}
    (hf : ∀ h, Below (f h) (g h)) (v : BalanceVisitor) :
    Below (step p.trapping s f v) (step p s g v) := by
  refine .ite (fun _ => ?_) fun _ => ?_
  · exact .bind (hf _) fun amount => .bind (balanceAdd_trapping _ _) fun _ => .refl _
  · cases s.blockGet v.currentBalance with
    | none => exact .refl _
    | some block => exact visit_trapping v block

/-- The two computations at once: each calls the other with less fuel. -/
theorem compute_trapping : ∀ n h,
    Below (amountCompute p.trapping s n h) (amountCompute p s n h) ∧
      Below (balanceCompute p.trapping s n h) (balanceCompute p s n h) := by
  intro n
  induction n with
  | zero => exact fun h => ⟨.refl _, .refl _⟩
  | succ n ih =>
    intro h
    unfold amountCompute balanceCompute
    refine ⟨.bind (.whileLoop (fun v => ?_) n _) fun _ => .refl _,
      .bind (.whileLoop (fun v => ?_) n _) fun _ => .refl _⟩
    · exact AmountVisitor.step_trapping (fun h => (ih h).2) h v
    · exact step_trapping (fun h => (ih h).1) v

namespace Ledger

theorem balance_trapping (s : BlockStore) (h : BlockHash) :
    Below (balance p.trapping s h) (balance p s h) := (compute_trapping _ h).2

theorem amount_trapping (s : BlockStore) (h : BlockHash) :
    Below (amount p.trapping s h) (amount p s h) := (compute_trapping _ h).1

/-! ## process -/

variable (now : ℕ)

theorem stateBlockPosition_trapping (b : StateBlock) :
    Below (stateBlockPosition p.trapping s b) (stateBlockPosition p s b) := by
  unfold stateBlockPosition
  cases s.accountGet b.hashables.account with
  | none => exact .refl _
  | some info =>
    refine .ite (fun _ => .refl _) fun _ => .ite (fun _ => .refl _) fun _ => ?_
    dsimp only
    refine .ite (fun _ => ?_) fun _ => ?_
    · exact .bind (balanceSub_trapping _ _) fun _ => .refl _
    · exact .bind (balanceSub_trapping _ _) fun _ => .refl _

theorem stateBlockImpl_trapping (b : StateBlock) :
    Below (stateBlockImpl p.trapping now s b) (stateBlockImpl p now s b) := by
  refine .ite (fun _ => .refl _) fun _ => .ite (fun _ => .refl _) fun _ => ?_
  exact .ite (fun _ => .refl _) fun _ => .bind (stateBlockPosition_trapping b) fun _ => .refl _

theorem changeBlock_trapping (b : ChangeBlock) :
    Below (changeBlock p.trapping now s b) (changeBlock p now s b) := by
  have hcommit : ∀ a info,
      Below (changeBlockCommit p.trapping now s b a info) (changeBlockCommit p now s b a info) :=
    fun a info => .bind_right _ fun _ => .bind (balance_trapping _ _) fun _ => .refl _
  refine .ite (fun _ => .refl _) fun _ => ?_
  cases s.blockGet b.hashables.previous with
  | none => exact .refl _
  | some previous =>
    refine .ite (fun _ => .refl _) fun _ => .ite (fun _ => .refl _) fun _ => ?_
    cases s.accountGet (s.frontierGet b.hashables.previous) with
    | none => exact .refl _
    | some info =>
      refine .bind_right _ fun _ => .ite (fun _ => .refl _) fun _ => ?_
      exact .bind (hcommit _ _) fun _ => .refl _

theorem sendBlock_trapping (b : SendBlock) :
    Below (sendBlock p.trapping now s b) (sendBlock p now s b) := by
  refine .ite (fun _ => .refl _) fun _ => ?_
  cases s.blockGet b.hashables.previous with
  | none => exact .refl _
  | some previous =>
    refine .ite (fun _ => .refl _) fun _ => .ite (fun _ => .refl _) fun _ =>
      .ite (fun _ => .refl _) fun _ => ?_
    cases s.accountGet (s.frontierGet b.hashables.previous) with
    | none => exact .refl _
    | some info =>
      refine .bind_right _ fun _ => .ite (fun _ => .refl _) fun _ => ?_
      exact .bind (balanceSub_trapping _ _) fun _ => .refl _

theorem receiveBlock_trapping (b : ReceiveBlock) :
    Below (receiveBlock p.trapping now s b) (receiveBlock p now s b) := by
  have hcommit : ∀ a info pending,
      Below (receiveBlockCommit p.trapping now s b a info pending)
        (receiveBlockCommit p now s b a info pending) :=
    fun a info pending => .bind (balanceAdd_trapping _ _) fun _ => .refl _
  refine .ite (fun _ => .refl _) fun _ => ?_
  cases s.blockGet b.hashables.previous with
  | none => exact .refl _
  | some previous =>
    refine .ite (fun _ => .refl _) fun _ => .ite (fun _ => .refl _) fun _ =>
      .ite (fun _ => .refl _) fun _ => .ite (fun _ => .refl _) fun _ =>
      .ite (fun _ => .refl _) fun _ => ?_
    cases s.pendingGet ⟨s.frontierGet b.hashables.previous, b.hashables.source⟩ with
    | none => exact .refl _
    | some pending => exact .bind (hcommit _ _ _) fun _ => .refl _

theorem process_trapping (b : Block) :
    Below (process p.trapping now s b) (process p now s b) := by
  cases b with
  | sendBlock b => exact sendBlock_trapping now b
  | receiveBlock b => exact receiveBlock_trapping now b
  | openBlock b => exact .refl _
  | changeBlock b => exact changeBlock_trapping now b
  | stateBlock b => exact stateBlockImpl_trapping now b

/-! ## rollback -/

theorem sendBlockUndo_trapping (b : SendBlock) (s : BlockStore) :
    Below (sendBlockUndo p.trapping now s b) (sendBlockUndo p now s b) := by
  unfold sendBlockUndo
  dsimp only
  rw [Block.hash_trapping]
  cases s.pendingGet ⟨b.hashables.destination, (Block.sendBlock b).hash p⟩ with
  | none => exact .refl _
  | some pending =>
    dsimp only
    cases s.accountGet pending.source with
    | none => exact .refl _
    | some info =>
      refine .bind_right _ fun _ => .bind_right _ fun _ => .bind_right _ fun _ => ?_
      exact .bind (balance_trapping _ _) fun _ => .refl _

theorem rollbackReceive_trapping (b : ReceiveBlock) :
    Below (rollbackReceive p.trapping now s b) (rollbackReceive p now s b) := by
  refine .bind_right _ fun _ => .bind (amount_trapping _ _) fun _ => .bind_right _ fun a =>
    .bind_right _ fun _ => ?_
  cases s.accountGet a with
  | none => exact .refl _
  | some info =>
    refine .bind_right _ fun _ => .bind_right _ fun _ => ?_
    exact .bind (balance_trapping _ _) fun _ => .refl _

theorem rollbackOpen_trapping (b : OpenBlock) :
    Below (rollbackOpen p.trapping now s b) (rollbackOpen p now s b) :=
  .bind (amount_trapping _ _) fun _ => .refl _

theorem rollbackChange_trapping (b : ChangeBlock) :
    Below (rollbackChange p.trapping now s b) (rollbackChange p now s b) := by
  refine .bind_right _ fun _ => .bind_right _ fun a => ?_
  cases s.accountGet a with
  | none => exact .refl _
  | some info => exact .bind (balance_trapping _ _) fun _ => .refl _

section Cascade

variable {rb rb' : BlockStore → BlockHash → Except Fault BlockStore}
  (hrb : ∀ s h, Below (rb s h) (rb' s h)) (n : ℕ)

include hrb

theorem rollbackReceiver_trapping (key : PendingKey) :
    Below (rollbackReceiver rb n s key) (rollbackReceiver rb' n s key) :=
  .whileLoop (fun s => hrb s _) n s

theorem stateBlockPending_trapping (b : StateBlock) (x : Uint128) :
    Below (stateBlockPending p.trapping rb n s b x) (stateBlockPending p rb' n s b x) := by
  refine .ite (fun _ => ?_) fun _ => .ite (fun _ => ?_) fun _ => .refl _
  · exact .bind (rollbackReceiver_trapping hrb n _) fun _ => .refl _
  · exact .bind_right _ fun _ => .bind (balanceSub_trapping _ _) fun _ => .refl _

theorem rollbackState_trapping (b : StateBlock) :
    Below (rollbackState p.trapping now rb n s b) (rollbackState p now rb' n s b) := by
  have hrest : ∀ rep, Below
      (balance p.trapping s b.hashables.previous >>= fun x =>
        stateBlockReweigh s ((Block.stateBlock b).hash p.trapping) b rep x >>= fun s =>
        stateBlockPending p.trapping rb n s b x >>= fun s =>
        stateBlockUndo p.trapping now s b rep x)
      (balance p s b.hashables.previous >>= fun x =>
        stateBlockReweigh s ((Block.stateBlock b).hash p) b rep x >>= fun s =>
        stateBlockPending p rb' n s b x >>= fun s => stateBlockUndo p now s b rep x) :=
    fun rep => .bind (balance_trapping _ _) fun x => .bind_right _ fun _ =>
      .bind (stateBlockPending_trapping hrb n b x) fun _ => .refl _
  exact .ite (fun _ => .bind_right _ hrest) fun _ => .bind_right _ hrest

theorem rollbackVisit_trapping (b : Block) :
    Below (rollbackVisit p.trapping now rb n s b) (rollbackVisit p now rb' n s b) := by
  cases b with
  | sendBlock b =>
    exact .bind (rollbackReceiver_trapping hrb n _) fun s => sendBlockUndo_trapping now b s
  | receiveBlock b => exact rollbackReceive_trapping now b
  | openBlock b => exact rollbackOpen_trapping now b
  | changeBlock b => exact rollbackChange_trapping now b
  | stateBlock b => exact rollbackState_trapping now hrb n b

theorem rollbackHead_trapping (a : Account) (s : BlockStore) :
    Below (rollbackHead p.trapping now rb n a s) (rollbackHead p now rb' n a s) := by
  unfold rollbackHead
  cases s.accountGet a with
  | none => exact .refl _
  | some info =>
    dsimp only
    cases s.blockGet info.head with
    | none => exact .refl _
    | some block => exact rollbackVisit_trapping now hrb n block

end Cascade

theorem rollbackFuel_trapping : ∀ n s h,
    Below (rollbackFuel p.trapping now n s h) (rollbackFuel p now n s h) := by
  intro n
  induction n with
  | zero => exact fun s h => .refl _
  | succ n ih =>
    intro s h
    refine .bind_right _ fun _ => .bind_right _ fun a => ?_
    exact .whileLoop (fun s => rollbackHead_trapping now ih n a s) n s

theorem rollback_trapping (h : BlockHash) :
    Below (rollback p.trapping now s h) (rollback p now s h) :=
  rollbackFuel_trapping now _ s h

end Ledger

end RaiBlocks
