import RaiBlocks.Bootstrap.Frontiers
import RaiBlocks.Foundation.Lists

/-!
# The age filter of frontier requests

A request asks for the frontiers of accounts that have changed within some time. The
server looks at the age only until it meets the first young account. From there on it
sends every account.
-/

namespace RaiBlocks

open Foundation Frontiers

/-- The frontiers of the young accounts from a given one on. -/
def FrontierReqServer.youngFrontiers (s : BlockStore) (age : BitVec 32) (now : BitVec 64)
    (account : Account) : List (Account × BlockHash) :=
  ((s.accounts.rowsFrom (· ≤ ·) account).filter fun row => decide (IsYoung age now row.2)).map
    fun row => (row.1, row.2.head)

/-- Among rows in order, a condition on pairs is one on pairs of keys. -/
theorem BlockStore.pairwise_rowsFrom_iff {s : BlockStore} {account : Account}
    {R : AccountInfo → AccountInfo → Prop} :
    (s.accounts.rowsFrom (· ≤ ·) account).Pairwise (fun x y => R x.2 y.2) ↔
      ∀ a b infoA infoB, account ≤ a → a < b → s.accountGet a = some infoA →
        s.accountGet b = some infoB → R infoA infoB := by
  have hmem : ∀ row, row ∈ s.accounts.rowsFrom (· ≤ ·) account ↔
      s.accountGet row.1 = some row.2 ∧ account ≤ row.1 := by
    intro row
    unfold Table.rowsFrom
    rw [List.mem_filter, Table.mem_rows, decide_eq_true_eq]
    rfl
  have hsorted : (s.accounts.rowsFrom (· ≤ ·) account).Pairwise fun x y => x.1 < y.1 :=
    ((Table.pairwise_rows s.accounts).imp fun h => BitVec.lt_of_le_ne h.1 h.2).filter _
  constructor
  · intro hpairs a b infoA infoB ha hab hinfoA hinfoB
    -- a relation that does not depend on which of the two comes first
    have hsymm : Std.Symm fun x y : Account × AccountInfo =>
        (x.1 < y.1 → R x.2 y.2) ∧ (y.1 < x.1 → R y.2 x.2) := ⟨fun x y h => ⟨h.2, h.1⟩⟩
    have hboth : (s.accounts.rowsFrom (· ≤ ·) account).Pairwise fun x y =>
        (x.1 < y.1 → R x.2 y.2) ∧ (y.1 < x.1 → R y.2 x.2) :=
      (hpairs.and hsorted).imp fun h =>
        ⟨fun _ => h.1, fun hlt => absurd hlt (Nat.lt_asymm h.2)⟩
    refine ((hboth.forall_of_forall ?_) ((hmem (a, infoA)).mpr ⟨hinfoA, ha⟩)
      ((hmem (b, infoB)).mpr ⟨hinfoB, Nat.le_of_lt (Nat.lt_of_le_of_lt ha hab)⟩)).1 hab
    exact fun x _ => ⟨fun h => absurd h (Nat.lt_irrefl _), fun h => absurd h (Nat.lt_irrefl _)⟩
  · intro hall
    refine hsorted.imp_of_mem ?_
    intro x y hx hy hlt
    obtain ⟨hx, hle⟩ := (hmem x).mp hx
    exact hall x.1 y.1 x.2 y.2 hle hlt hx ((hmem y).mp hy).1

open FrontierReqServer

/-- **The age filter ends with the first young account.** The server always finishes.
What it sends are the frontiers of exactly the young accounts from the given one on, in
order, followed by the zero pair, if and only if no young account is followed by an old
one, and a request from account 0 on does not meet an account 0 while there are young
accounts. -/
theorem frontier_age_filter_iff {s : BlockStore} (hmax : s.accountGet (BitVec.allOnes 256) = none)
    (age : BitVec 32) (now : BitVec 64) (account : Account) :
    ∃ sent, run s age now account = .ok sent ∧
      (sent = youngFrontiers s age now account ++ [(0, 0)] ↔
        (∀ a b infoA infoB, account ≤ a → a < b → s.accountGet a = some infoA →
          s.accountGet b = some infoB → IsYoung age now infoA → IsYoung age now infoB) ∧
        (account = 0 → (s.accountGet 0).isSome → ∀ a info, s.accountGet a = some info →
          ¬ IsYoung age now info)) := by
  by_cases hzero : account = 0 ∧ (s.accountGet 0).isSome
  · obtain ⟨rfl, hzero⟩ := hzero
    refine ⟨_, run_zero hzero, ?_⟩
    have hnone : [(0, 0)] = youngFrontiers s age now 0 ++ [(0, 0)] ↔
        ∀ a info, s.accountGet a = some info → ¬ IsYoung age now info := by
      rw [List.self_eq_append_left, youngFrontiers, List.map_eq_nil_iff, List.filter_eq_nil_iff]
      constructor
      · intro hall a info hinfo hyoung
        have hrow : (a, info) ∈ s.accounts.rowsFrom (· ≤ ·) (0 : Account) :=
          List.mem_filter.mpr ⟨Table.mem_rows.mpr hinfo, decide_eq_true (Nat.zero_le _)⟩
        exact hall _ hrow (decide_eq_true hyoung)
      · intro hall row hrow hyoung
        exact hall row.1 row.2 (Table.mem_rows.mp (List.mem_filter.mp hrow).1)
          (of_decide_eq_true hyoung)
    rw [hnone]
    constructor
    · intro hall
      exact ⟨fun a b infoA infoB _ _ hinfoA _ hyoung => absurd hyoung (hall a infoA hinfoA),
        fun _ _ => hall⟩
    · exact fun h => h.2 rfl hzero
  · refine ⟨_, run_eq hmax hzero, ?_⟩
    rw [List.append_left_inj, youngFrontiers, map_dropWhile_eq_map_filter_iff]
    simp only [decide_eq_true_eq]
    rw [BlockStore.pairwise_rowsFrom_iff (R := fun x y => IsYoung age now x → IsYoung age now y)]
    exact (and_iff_left fun h0 hsome => absurd ⟨h0, hsome⟩ hzero).symm

namespace FrontierSample

/-- The accounts 1 and 2; the first has changed at time 100 and the second at time 5. -/
def store : BlockStore :=
  (BlockStore.empty.accountPut 1 ⟨11, 11, 11, 0, 100, 1⟩).accountPut 2 ⟨12, 12, 12, 0, 5, 1⟩

end FrontierSample

/-- At time 101 a request for changes within ten seconds is answered with both
accounts. -/
theorem old_frontier_sent : run FrontierSample.store 10 101 0 = .ok [(1, 11), (2, 12), (0, 0)] ∧
    youngFrontiers FrontierSample.store 10 101 0 = [(1, 11)] := by
  decide +kernel

/-- From the second account on the answer is right. -/
theorem frontier_age_filter_iff_second :
    ∃ sent, run FrontierSample.store 10 101 2 = .ok sent ∧
      sent = youngFrontiers FrontierSample.store 10 101 2 ++ [(0, 0)] := by
  obtain ⟨sent, hrun, hiff⟩ := frontier_age_filter_iff (s := FrontierSample.store)
    (by decide) 10 101 2
  refine ⟨sent, hrun, hiff.mpr ⟨fun a b infoA infoB ha hab _ hinfoB _ => ?_,
    fun h => absurd h (by decide)⟩⟩
  -- there is no account after the second
  have hb : 2 < b.toNat := Nat.lt_of_le_of_lt ha hab
  have hnone : FrontierSample.store.accountGet b = none := by
    show ((∅ : Table Account AccountInfo).insert 1 _ |>.insert 2 _).lookup b = none
    rw [Finmap.lookup_insert_of_ne, Finmap.lookup_insert_of_ne, Finmap.lookup_empty]
    · rintro rfl
      exact absurd hb (by decide)
    · rintro rfl
      exact absurd hb (by decide)
  rw [hnone] at hinfoB
  cases hinfoB

end RaiBlocks
