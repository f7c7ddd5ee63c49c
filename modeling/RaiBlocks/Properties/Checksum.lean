import RaiBlocks.Foundation.Machine
import RaiBlocks.Ledger.Writes
import RaiBlocks.Refinement.Reachable

/-!
# The checksum of the ledger

`change_latest` keeps the checksum up to date by exclusive ors with the heads it
replaces and writes, so the checksum is the exclusive or of all heads as long as
nothing else writes it. The constructor of the store does: it sets the checksum
to zero whenever the file is opened.
-/

namespace RaiBlocks

open Foundation Sample

namespace Ledger

/-- The exclusive or of the heads of all accounts. -/
def headSum (s : BlockStore) : Uint256 :=
  Table.fold (fun x y : Uint256 => x ^^^ y) 0 s.accounts AccountInfo.head

/-- The checksum is the exclusive or of the heads. -/
def Summed (s : BlockStore) : Prop := s.checksumGet = some (headSum s)

/-! ## One write -/

section Write

variable {s s' : BlockStore} {a : Account} {info : AccountInfo} {x : Uint256} {blockCount now : ℕ}
  {isState : Bool}

theorem checksumUpdate_put (hx : s.checksumGet = some x) (h : BlockHash) :
    checksumUpdate s h = .ok (s.checksumPut (x ^^^ h)) := by
  unfold checksumUpdate
  rw [hx]

theorem checksumGet_checksumPut (s : BlockStore) (x : Uint256) :
    (s.checksumPut x).checksumGet = some x :=
  Finmap.lookup_insert _

/-- Without the row of an account, its head is taken out. -/
theorem headSum_erase (ha : s.accountGet a = some info) :
    Table.fold (fun x y : Uint256 => x ^^^ y) 0 (s.accounts.erase a) AccountInfo.head =
      headSum s ^^^ info.head := by
  have hfold := Table.fold_erase_of_lookup_some (fun x y : Uint256 => x ^^^ y) 0 ha AccountInfo.head
  rw [headSum, ← hfold, BitVec.xor_comm info.head, BitVec.xor_assoc, BitVec.xor_self,
    BitVec.xor_zero]

theorem headSum_accountPut_some (ha : s.accountGet a = some info) (info' : AccountInfo) :
    headSum (s.accountPut a info') = headSum s ^^^ info.head ^^^ info'.head := by
  rw [← headSum_erase ha, headSum, BlockStore.accountPut, Table.fold_insert_eq, BitVec.xor_comm]

theorem headSum_accountPut_none (ha : s.accountGet a = none) (info' : AccountInfo) :
    headSum (s.accountPut a info') = headSum s ^^^ info'.head := by
  rw [headSum, BlockStore.accountPut, Table.fold_insert_of_lookup_none _ _ ha, BitVec.xor_comm]
  rfl

/-- The row of the account is written, the checksum is updated last. -/
theorem summed_put {info' : AccountInfo} {block : BlockInfo} (hx : s.checksumGet = some x)
    (hsum : headSum (s.accountPut a info') = x ^^^ info'.head)
    (h : checksumUpdate (if blockCount % BlockStore.blockInfoMax = 0 ∧ isState = false then (s.accountPut a info').blockInfoPut info'.head block else s.accountPut a info') info'.head = .ok s') :
    Summed s' := by
  have hacc : ∀ t : BlockStore, t.accounts = (s.accountPut a info').accounts →
      t.checksumGet = some x → checksumUpdate t info'.head = .ok s' → Summed s' := by
    intro t ht hget hupdate
    rw [checksumUpdate_put hget] at hupdate
    obtain rfl := Except.ok.inj hupdate
    rw [Summed, checksumGet_checksumPut, ← hsum]
    exact congrArg some (congrArg (Table.fold _ _ · _) ht.symm)
  split at h
  · exact hacc ((s.accountPut a info').blockInfoPut info'.head block) rfl hx h
  · exact hacc (s.accountPut a info') rfl hx h

/-- `change_latest` keeps the checksum up to date. -/
theorem Summed.changeLatest (hs : Summed s) {hash repBlock : BlockHash} {balance : Uint128}
    (h : Ledger.changeLatest now s a hash repBlock balance blockCount isState = .ok s') :
    Summed s' := by
  unfold Ledger.changeLatest at h
  cases ha : s.accountGet a with
  | some info =>
    rw [ha] at h
    dsimp only at h
    rw [checksumUpdate_put hs] at h
    simp only [ok_bind, pure_bind] at h
    split at h
    · refine summed_put (x := headSum s ^^^ info.head) (checksumGet_checksumPut _ _) ?_ h
      exact headSum_accountPut_some (s := s.checksumPut _) ha _
    · obtain ⟨_, -, h⟩ := bind_eq_ok h
      obtain rfl := Except.ok.inj h
      exact (checksumGet_checksumPut s _).trans (congrArg some (headSum_erase ha).symm)
  | none =>
    rw [ha] at h
    dsimp only at h
    split at h
    · cases h
    · obtain ⟨_, -, h⟩ := bind_eq_ok h
      simp only [pure_bind] at h
      split at h
      · exact summed_put hs (headSum_accountPut_none ha _) h
      · -- An account without a row cannot be deleted.
        obtain ⟨_, hassert, -⟩ := bind_eq_ok h
        have hsome := of_assertThat hassert
        rw [show s.accounts.lookup a = none from ha] at hsome
        cases hsome

theorem Summed.write (hs : Summed s) (h : Write s s') : Summed s' := by
  cases h with
  | other hacc hsum =>
    rw [Summed, BlockStore.checksumGet, headSum, hacc, hsum]
    exact hs
  | latest h => exact hs.changeLatest h

theorem Summed.writes (hs : Summed s) (h : Writes s s') : Summed s' := by
  induction h with
  | refl => exact hs
  | tail _ hlast ih => exact ih.write hlast

theorem headSum_genesis {p : Env} (h : genesisInitialize p now .empty = .ok s) :
    headSum s = p.genesisHash ∧ Summed s := by
  obtain ⟨d, hinit, -, -⟩ := genesisInitialize_eq p now
  obtain rfl := Except.ok.inj (hinit.symm.trans h)
  have hnone : (∅ : Table Account AccountInfo).lookup p.genesisAccount = none := rfl
  have hsum := Table.fold_insert_of_lookup_none (fun x y : Uint256 => x ^^^ y) 0 hnone
    (genesisInfo p now) AccountInfo.head
  rw [Table.fold_empty, show (0 : Uint256) = 0#256 from rfl, BitVec.xor_zero] at hsum
  exact ⟨hsum, (Finmap.lookup_insert _).trans (congrArg some hsum.symm)⟩

end Write

/-! ## Runs that reopen the store -/

/-- One operation on a store. -/
inductive StoreOp where
  | process (now : ℕ) (b : Block)
  | rollback (now : ℕ) (h : BlockHash)
  | reopen

def StoreOp.apply (p : Env) (s : BlockStore) : StoreOp → Except Fault BlockStore
  | .process now b => return (← Ledger.process p now s b).1
  | .rollback now h => Ledger.rollback p now s h
  | .reopen => return s.reopen

/-- The store is reopened only when the heads add up to nothing. -/
def ReopensAtZero (s : BlockStore) (op : StoreOp) : Prop := op = .reopen → headSum s = 0

theorem summed_apply_iff {p : Env} {s : BlockStore} (hs : Summed s) (op : StoreOp) :
    ReopensAtZero s op ↔ ∀ s', op.apply p s = .ok s' → Summed s' := by
  cases op with
  | process now b =>
    refine iff_of_true (fun h => by cases h) fun s' h => ?_
    obtain ⟨r, hr, h⟩ := bind_eq_ok h
    obtain rfl := Except.ok.inj h
    exact hs.writes (process_writes s b r hr)
  | rollback now h =>
    exact iff_of_true (fun h => by cases h) fun s' hs' => hs.writes (rollback_writes s h s' hs')
  | reopen =>
    have hsum : Summed s.reopen ↔ (0 : Uint256) = headSum s := by
      rw [Summed, show s.reopen.checksumGet = some 0 from Finmap.lookup_insert _, Option.some.injEq]
      rfl
    constructor
    · intro hzero s' h
      obtain rfl := Except.ok.inj h
      exact hsum.mpr (hzero rfl).symm
    · intro h _
      exact (hsum.mp (h _ rfl)).symm

/-- **When the checksum is the exclusive or of the heads.** In a run that starts
with `genesis::initialize` on a new store, this holds at every point exactly if the
store is reopened only at points where the exclusive or of the heads is zero. -/
theorem checksum_heads_iff {p : Env} {now : ℕ} {s : BlockStore}
    (h : genesisInitialize p now .empty = .ok s) (ops : List StoreOp) :
    Machine.Always (fun s op => op.apply p s) Summed s ops ↔
      Machine.Guarded (fun s op => op.apply p s) ReopensAtZero s ops :=
  Machine.always_iff_guarded (I := fun _ => True) (fun _ _ _ hi _ => hi)
    (fun _ op _ hs => summed_apply_iff hs op) trivial (headSum_genesis h).2 ops

end Ledger

/-- A new ledger whose store is closed and opened again. -/
theorem checksum_reset : genesisInitialize env 0 .empty = .ok first ∧
    Ledger.Summed first ∧ ¬ Ledger.Summed first.reopen := by
  have hinit := eq_ok_getD runs_isOk.1 .empty
  obtain ⟨hsum, hsummed⟩ := Ledger.headSum_genesis hinit
  refine ⟨hinit, hsummed, fun hreset => ?_⟩
  have hzero := (Ledger.summed_apply_iff (p := env) hsummed .reopen).mpr
    (fun s' h => Except.ok.inj h ▸ hreset) rfl
  exact assumptions.ne_zero assumptions.genesis_mem (hsum.symm.trans hzero)

/-- The send and the open block are processed and the store stays open. -/
theorem checksum_heads_iff_open :
    Machine.Always (fun s op => Ledger.StoreOp.apply env s op) Ledger.Summed first
      [.process 1 send, .process 2 opens] := by
  refine (Ledger.checksum_heads_iff (eq_ok_getD runs_isOk.1 .empty) _).mpr ?_
  have hprocess : ∀ s now b, Ledger.ReopensAtZero s (.process now b) := by
    intro s now b h
    cases h
  exact ⟨hprocess _ _ _, fun _ _ => ⟨hprocess _ _ _, fun _ _ => trivial⟩⟩

end RaiBlocks
