import RaiBlocks.Bootstrap.Frontiers

/-!
# What a frontier request finds

The client and the peer go through their accounts in ascending order, so one pass
over both classifies every account. The loops end because each of them moves on in
the local accounts.
-/

namespace RaiBlocks

open Foundation Bootstrap

namespace FrontierReqClient

open Frontiers

variable {s : BlockStore}

/-- **A frontier request classifies every account.** For every local account table
without the last account number and every stream of frontiers of ascending, nonzero
accounts that a zero account ends, the exchange ends. The pulls are those of the
frontiers in their order; the push targets are those of the local accounts other
than zero in their order, each added if the cost so far is below the limit. -/
theorem frontiers_classified (hmax : s.accountGet (BitVec.allOnes 256) = none)
    (remote : List (Account × BlockHash)) (last : BlockHash)
    (hsorted : remote.Pairwise fun x y => x.1 < y.1) (hne : ∀ frontier ∈ remote, frontier.1 ≠ 0) :
    ∃ c, run s (remote ++ [(0, last)]) = .ok c ∧ c.promise = some false ∧
      c.pulls = remote.filterMap (pullFor s) ∧
      (⟨c.bulkPushCost, c.bulkPushTargets⟩ : Pushes) = pushes s remote := by
  have hpos : ∀ frontier ∈ remote, 0 < frontier.1 := by
    intro frontier hmem
    exact BitVec.lt_of_le_ne (Nat.zero_le _) (hne frontier hmem).symm
  obtain ⟨hpushed, hpulls⟩ := next_pushed (s := s) (c := {})
  obtain ⟨c, hrun, hpromise, hc, hc'⟩ := receive_spec hmax last remote (at_start s) hpos hsorted
  refine ⟨c, hrun, hpromise, ?_, ?_⟩
  · rw [hc, start, hpulls]
    rfl
  · refine hc'.trans ?_
    rw [start, hpushed]
    rfl

/-! ## Sample tables -/

/-- A store with the given accounts and heads, and no blocks. -/
def sample (heads : List (Account × BlockHash)) : BlockStore :=
  heads.foldl (fun s x => s.accountPut x.1 { AccountInfo.zero with head := x.2 }) .empty

/-- Three local accounts; of the peer's two frontiers the first is for the second
of them and the other for an unknown account. -/
theorem frontiers_classified_sample :
    ∃ c, run (sample [(1, 11), (2, 12), (3, 13)]) [(2, 22), (4, 24), (0, 0)] = .ok c ∧
      c.promise = some false ∧ c.pulls = [⟨2, 22, 12, 0⟩, ⟨4, 24, 0, 0⟩] ∧
      c.bulkPushTargets = [(11, 0), (13, 0)] ∧ c.bulkPushCost = 9 := by
  obtain ⟨c, hrun, hpromise, hpulls, hpushes⟩ := frontiers_classified
    (s := sample [(1, 11), (2, 12), (3, 13)]) (by decide +kernel) [(2, 22), (4, 24)] 0
    (by simp) (by simp)
  have heval : pushes (sample [(1, 11), (2, 12), (3, 13)]) [(2, 22), (4, 24)] =
      ⟨9, [(11, 0), (13, 0)]⟩ := by
    decide +kernel
  obtain ⟨hcost, htargets⟩ := Pushes.mk.inj (hpushes.trans heval)
  exact ⟨c, hrun, hpromise, hpulls.trans (by decide +kernel), htargets, hcost⟩

/-- Account zero is local and the peer does not send it, but it is no push target;
and a frontier equal to the local head is no pull even if no such block is stored. -/
theorem frontiers_exceptions :
    (sample [(0, 5)]).accountGet 0 = some { AccountInfo.zero with head := 5 } ∧
    (run (sample [(0, 5)]) [(0, 0)]).toOption.map (fun c => c.bulkPushTargets) = some [] ∧
    (sample [(1, 5)]).blockExists 5 = false ∧
    (run (sample [(1, 5)]) [(1, 5), (0, 0)]).toOption.map (fun c => c.pulls) = some [] := by
  decide +kernel

end FrontierReqClient

end RaiBlocks
