import RaiBlocks.Refinement.Reachable
import RaiBlocks.Spec.Validity

/-!
# What the blocks determine

The weights of the representatives are those of the accounts, and the tables of a ledger are
a function of its blocks, whatever the history.
-/

namespace RaiBlocks

open Foundation AccountInfo

variable {p : Env} {U : Set Block} {s s' : BlockStore} {Λ Λ' : Lattice p}

/-! ## Weights -/

/-- The weight of `r`: the balances of the accounts whose representative block
is stored and names `r`. -/
def BlockStore.weightOf (s : BlockStore) (r : Account) : ℕ :=
  s.accounts.sum fun _ info =>
    if (s.blockGet info.repBlock).map Block.representative = some r then info.balance.toNat else 0

theorem Refines.weightOf_eq (hr : Refines U s Λ) (r : Account) :
    s.weightOf r = weight s.accounts Λ r := by
  unfold BlockStore.weightOf weight Lattice.repAccount
  simp only [hr.blocks.blockGet, Option.map_map]
  rfl

theorem Valid.totalBalance_lt (hv : Valid U s Λ) : totalBalance s.accounts < 2 ^ 128 :=
  lt_of_le_of_lt (Nat.le_add_right _ (totalPending s.pending))
    (hv.supply.trans_lt (by decide))

theorem Valid.representationGet (hv : Valid U s Λ) (r : Account) :
    (s.representationGet r).toNat = s.weightOf r := by
  have hdrift : s.representationGet r = BitVec.ofNat 128 (weight s.accounts Λ r) :=
    sub_eq_zero.mp (hv.drift r)
  rw [hdrift, ← hv.refines.weightOf_eq, toNat_ofNat_of_lt]
  -- a weight is a part of the balances
  refine lt_of_le_of_lt (Table.sum_le_sum _ fun _ info => ?_) hv.totalBalance_lt
  split
  · exact le_rfl
  · exact Nat.zero_le _

/-! ## Tables -/

/-- The fields of an account row that do not depend on the time. -/
def AccountInfo.timeless (info : AccountInfo) : AccountInfo := { info with modified := 0 }

/-- Two stores agree on accounts up to `modified`, frontiers, pending entries,
successors and weights. -/
structure SameTables (s s' : BlockStore) : Prop where
  accounts : ∀ a, (s.accountGet a).map timeless = (s'.accountGet a).map timeless
  frontiers : ∀ h, s.frontiers.lookup h = s'.frontiers.lookup h
  pending : ∀ k, s.pendingGet k = s'.pendingGet k
  successor : ∀ h, s.blockSuccessor h = s'.blockSuccessor h
  representation : ∀ r, s.representationGet r = s'.representationGet r

theorem Lattice.Describes.timeless_eq {a : Account} {info info' : AccountInfo} {e e' : Entry}
    (hd : Λ.Describes a info e) (hd' : Λ.Describes a info' e') :
    info.timeless = info'.timeless := by
  have hhead : info.head = info'.head :=
    hd.isHead.unique hd'.isHead hd.head hd'.head (hd.owner.trans hd'.owner.symm)
  have hentry := hd'.head
  rw [← hhead] at hentry
  obtain rfl := Option.some.inj (hd.head.symm.trans hentry)
  have hopen : info.openBlock = info'.openBlock := by
    obtain ⟨o, ho, hown, hp⟩ := hd.opened
    obtain ⟨o', ho', hown', hp'⟩ := hd'.opened
    exact Lattice.first_unique ho ho' hp hp' (hown.trans hown'.symm)
  have hbalance : info.balance = info'.balance :=
    BitVec.eq_of_toNat_eq (hd.balance.trans hd'.balance.symm)
  unfold timeless
  rw [hhead, hopen, hbalance, hd.rep, hd'.rep, hd.count, hd'.count]

theorem AccountsOk.timeless_eq {t t' : Table Account AccountInfo} (ha : AccountsOk t Λ)
    (ha' : AccountsOk t' Λ) (a : Account) :
    (t.lookup a).map timeless = (t'.lookup a).map timeless := by
  cases hi : t.lookup a with
  | none => rw [ha'.lookup_none_iff.mpr (ha.lookup_none_iff.mp hi)]
  | some info =>
    cases hi' : t'.lookup a with
    | none =>
      rw [ha.lookup_none_iff.mpr (ha'.lookup_none_iff.mp hi')] at hi
      cases hi
    | some info' =>
      obtain ⟨e, hd⟩ := ha.sound hi
      obtain ⟨e', hd'⟩ := ha'.sound hi'
      exact congrArg some (hd.timeless_eq hd')

/-- Two stores of the same blocks have the same tables. -/
theorem Valid.sameTables (hv : Valid U s Λ) (hv' : Valid U s' Λ')
    (hblocks : s.blockGet = s'.blockGet) : SameTables s s' := by
  have hr := hv.refines
  have hr' := hv'.refines
  obtain rfl : Λ = Λ' :=
    Lattice.eq_of_blocks (hr.blockGet_eq.symm.trans (hblocks.trans hr'.blockGet_eq))
  have haccounts := hr.accounts.timeless_eq hr'.accounts
  refine ⟨haccounts, fun h => ?_, fun k => ?_, fun h => ?_, fun r => ?_⟩
  · exact Option.ext fun a => (hr.frontiers h a).trans (hr'.frontiers h a).symm
  · exact Option.ext fun i => (hr.pending k.account k.hash i).trans
      (hr'.pending k.account k.hash i).symm
  · cases he : Λ.entry h with
    | none => rw [hr.blocks.blockSuccessor_none he, hr'.blocks.blockSuccessor_none he]
    | some e => exact (hr.blocks.blockSuccessor he).unique he (hr'.blocks.blockSuccessor he)
  · refine BitVec.eq_of_toNat_eq ?_
    rw [hv.representationGet, hv'.representationGet]
    unfold BlockStore.weightOf
    rw [hblocks]
    refine Table.sum_congr_map timeless haccounts fun a info info' heq => ?_
    have hrep : info.timeless.repBlock = info'.timeless.repBlock := by rw [heq]
    have hbalance : info.timeless.balance = info'.timeless.balance := by rw [heq]
    rw [show info.repBlock = info'.repBlock from hrep,
      show info.balance = info'.balance from hbalance]

end RaiBlocks
