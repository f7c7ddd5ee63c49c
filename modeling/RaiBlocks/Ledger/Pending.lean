import RaiBlocks.Foundation.OrderedMap
import RaiBlocks.Foundation.Rows
import RaiBlocks.Store.BlockStore

/-!
# The pending amount of an account

Translation of `ledger::account_pending` (`rai/ledger.cpp`), which adds up the pending
table from the first key of the account to the first key of the next one. An iterator is
the list of the rows before it; two iterators are equal if they stand at the same row or
both at the end.
-/

namespace RaiBlocks

open Foundation PendingKey

/-- Keys are compared as bytes: first the account, then the hash. -/
def PendingKey.le (k k' : PendingKey) : Prop :=
  toLex (k.account, k.hash) ≤ toLex (k'.account, k'.hash)

namespace PendingKey

instance decidableLe : DecidableRel le :=
  fun k k' => inferInstanceAs (Decidable (toLex (k.account, k.hash) ≤ toLex (k'.account, k'.hash)))

instance isTrans_le : IsTrans PendingKey le := ⟨fun _ _ _ h h' => le_trans h h'⟩

instance total_le : Std.Total le := ⟨fun _ _ => le_total _ _⟩

instance antisymm_le : Std.Antisymm le := by
  refine ⟨fun k k' h h' => ?_⟩
  have heq := Prod.mk.inj (toLex.injective (le_antisymm h h'))
  cases k
  cases k'
  exact congrArg₂ mk heq.1 heq.2

/-- The keys from `(a, 0)` on are those of the accounts from `a` on. -/
theorem le_zero_iff {a : Account} {k : PendingKey} : le ⟨a, 0⟩ k ↔ a ≤ k.account := by
  unfold le
  rw [Prod.Lex.toLex_le_toLex]
  constructor
  · rintro (h | ⟨h, -⟩)
    · exact le_of_lt h
    · exact le_of_eq h
  · intro h
    rcases lt_or_eq_of_le h with hlt | heq
    · exact Or.inl hlt
    · exact Or.inr ⟨heq, Nat.zero_le _⟩

end PendingKey

/-- `pending_begin` at a key. -/
def BlockStore.pendingBegin (s : BlockStore) (k : PendingKey) : List (PendingKey × PendingInfo) :=
  s.pending.rowsFrom le k

namespace Ledger

/-- The loop, to the iterator that stands at `n`. At the end there is no row to read. -/
def sumTo (n : Option (PendingKey × PendingInfo)) :
    List (PendingKey × PendingInfo) → Uint128 → Except Fault Uint128
  | [], result => if n = none then .ok result else .error .assertion
  | row :: rest, result =>
    if n = some row then .ok result else sumTo n rest (result + row.2.amount)

def accountPending (s : BlockStore) (account : Account) : Except Fault Uint128 :=
  sumTo (s.pendingBegin ⟨account + 1, 0⟩).head? (s.pendingBegin ⟨account, 0⟩) 0

end Ledger

/-! ## The entries of an account -/

section Rows

variable {s : BlockStore} {a : Account}

/-- The entries of an account, in order. -/
def pendingOf (s : BlockStore) (a : Account) : List (PendingKey × PendingInfo) :=
  (s.pending.rows le).filter fun row => row.1.account = a

theorem pendingBegin_eq (s : BlockStore) (a : Account) : s.pendingBegin ⟨a, 0⟩ =
    (s.pending.rows le).filter fun row => decide (a ≤ row.1.account) := by
  unfold BlockStore.pendingBegin Table.rowsFrom
  refine List.filter_congr fun row _ => ?_
  exact decide_eq_decide.mpr le_zero_iff

theorem pairwise_account (s : BlockStore) :
    (s.pending.rows le).Pairwise fun x y => x.1.account ≤ y.1.account := by
  refine (Table.pairwise_rows s.pending).imp fun {x y} h => ?_
  rcases Prod.Lex.toLex_le_toLex.mp h.1 with hlt | ⟨heq, -⟩
  · exact le_of_lt hlt
  · exact le_of_eq heq

theorem filter_le_split {l : List (PendingKey × PendingInfo)}
    (h : l.Pairwise fun x y => x.1.account ≤ y.1.account) :
    l.filter (fun row => decide (a ≤ row.1.account)) =
      l.filter (fun row => decide (row.1.account = a)) ++
        l.filter fun row => decide (a < row.1.account) := by
  induction l with
  | nil => rfl
  | cons row l ih =>
    obtain ⟨hrow, hl⟩ := List.pairwise_cons.mp h
    by_cases hlt : a < row.1.account
    · -- all that follow are greater too
      have hall : ∀ row' ∈ l, a < row'.1.account := fun row' h' => lt_of_lt_of_le hlt (hrow row' h')
      have hnone : (row :: l).filter (fun row => decide (row.1.account = a)) = [] := by
        refine List.filter_eq_nil_iff.mpr fun row' h' => ?_
        rw [decide_eq_true_eq]
        rcases List.mem_cons.mp h' with rfl | h'
        · exact hlt.ne'
        · exact (hall row' h').ne'
      rw [hnone, List.nil_append]
      refine List.filter_congr fun row' h' => decide_eq_decide.mpr ⟨fun _ => ?_, le_of_lt⟩
      rcases List.mem_cons.mp h' with rfl | h'
      · exact hlt
      · exact hall row' h'
    · have hgreater : (row :: l).filter (fun row => decide (a < row.1.account)) =
          l.filter fun row => decide (a < row.1.account) :=
        List.filter_cons_of_neg (by simpa using hlt)
      rw [hgreater]
      by_cases heq : row.1.account = a
      · rw [List.filter_cons_of_pos (by simpa using heq.ge),
          List.filter_cons_of_pos (by simpa using heq), List.cons_append, ih hl]
      · have hnot : ¬ a ≤ row.1.account := fun hle => hlt (lt_of_le_of_ne hle (Ne.symm heq))
        rw [List.filter_cons_of_neg (by simpa using hnot),
          List.filter_cons_of_neg (by simpa using heq), ih hl]

theorem pendingBegin_next (ha : a ≠ BitVec.allOnes 256) : s.pendingBegin ⟨a + 1, 0⟩ =
    (s.pending.rows le).filter fun row => decide (a < row.1.account) := by
  rw [pendingBegin_eq]
  exact List.filter_congr fun row _ => decide_eq_decide.mpr (add_one_le_iff ha)

/-- Below the last number the entries of an account come before the next account. -/
theorem pendingBegin_split (ha : a ≠ BitVec.allOnes 256) :
    s.pendingBegin ⟨a, 0⟩ = pendingOf s a ++ s.pendingBegin ⟨a + 1, 0⟩ := by
  rw [pendingBegin_next ha, pendingBegin_eq]
  exact filter_le_split (pairwise_account s)

theorem head?_pendingBegin_next (ha : a ≠ BitVec.allOnes 256) {row : PendingKey × PendingInfo}
    (hrow : row ∈ pendingOf s a) : (s.pendingBegin ⟨a + 1, 0⟩).head? ≠ some row := by
  intro hhead
  have hgreater := List.mem_of_mem_head? (Option.mem_def.mpr hhead)
  rw [pendingBegin_next ha, List.mem_filter, decide_eq_true_eq] at hgreater
  have hequal := (List.mem_filter.mp hrow).2
  rw [decide_eq_true_eq] at hequal
  exact absurd hgreater.2 (hequal ▸ lt_irrefl a)

end Rows

end RaiBlocks
