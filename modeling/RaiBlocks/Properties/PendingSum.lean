import RaiBlocks.Ledger.Pending

/-!
# The pending amount of an account is the sum of its entries

The loop of `account_pending` ends at the first key of the next account number. Behind the
last number 2^256-1 there is no next one: the sum wraps to 0, so the loop is to end at the
first row of the table, which lies behind it, and reads past the end instead.
-/

namespace RaiBlocks

open Foundation Ledger PendingKey

variable {s : BlockStore} {a : Account}

/-- The sum of the amounts of the entries of an account. -/
def pendingSum (s : BlockStore) (a : Account) : ℕ :=
  s.pending.sum fun k info => if k.account = a then info.amount.toNat else 0

/-! ## The loop -/

namespace Ledger

variable {l l' : List (PendingKey × PendingInfo)}

/-- From the rows `l` to the beginning of `l'`. -/
theorem sumTo_append (h : ∀ row ∈ l, l'.head? ≠ some row) (x : Uint128) :
    sumTo l'.head? (l ++ l') x = .ok (l.foldl (fun x row => x + row.2.amount) x) := by
  induction l generalizing x with
  | nil =>
    cases l' with
    | nil => rfl
    | cons row l' => exact if_pos rfl
  | cons row l ih =>
    rw [List.cons_append, sumTo, if_neg (h row List.mem_cons_self), List.foldl_cons]
    exact ih (fun row' h' => h row' (List.mem_cons_of_mem _ h')) _

/-- A row that does not come any more is never reached. -/
theorem sumTo_missing {row : PendingKey × PendingInfo} (h : row ∉ l) (x : Uint128) :
    sumTo (some row) l x = .error .assertion := by
  induction l generalizing x with
  | nil => exact if_neg (Option.some_ne_none row)
  | cons row' l ih =>
    obtain ⟨hne, hl⟩ := List.ne_and_not_mem_of_not_mem_cons h
    rw [sumTo, if_neg (fun heq => hne (Option.some.inj heq))]
    exact ih hl _

theorem toNat_foldl (x : Uint128) :
    (l.foldl (fun x row => x + row.2.amount) x).toNat =
      (x.toNat + (l.map fun row => row.2.amount.toNat).sum) % 2 ^ 128 := by
  induction l generalizing x with
  | nil => exact (Nat.mod_eq_of_lt x.isLt).symm
  | cons row l ih =>
    rw [List.foldl_cons, ih, BitVec.toNat_add, List.map_cons, List.sum_cons, Nat.mod_add_mod,
      Nat.add_assoc]

end Ledger

theorem sum_pendingOf (s : BlockStore) (a : Account) :
    ((pendingOf s a).map fun row => row.2.amount.toNat).sum = pendingSum s a := by
  have hlist : ∀ l : List (PendingKey × PendingInfo),
      ((l.filter fun row => decide (row.1.account = a)).map fun row => row.2.amount.toNat).sum =
        (l.map fun row => if row.1.account = a then row.2.amount.toNat else 0).sum := by
    intro l
    induction l with
    | nil => rfl
    | cons row l ih =>
      rw [List.map_cons, List.sum_cons, ← ih]
      by_cases h : row.1.account = a
      · rw [List.filter_cons_of_pos (by simpa using h), List.map_cons, List.sum_cons, if_pos h]
      · rw [List.filter_cons_of_neg (by simpa using h), if_neg h, Nat.zero_add]
  unfold pendingOf pendingSum
  rw [hlist, ← Table.sum_rows (r := le)]

/-! ## The result -/

/-- Below the last number the loop ends where the next account begins. -/
theorem accountPending_eq (ha : a ≠ BitVec.allOnes 256) :
    accountPending s a =
      .ok ((pendingOf s a).foldl (fun x row => x + row.2.amount) 0) := by
  unfold accountPending
  rw [pendingBegin_split ha]
  exact sumTo_append (fun row hrow => head?_pendingBegin_next ha hrow) 0

theorem le_allOnes (a : Account) : a ≤ BitVec.allOnes 256 := by
  rw [BitVec.le_def, BitVec.toNat_allOnes]
  exact Nat.le_sub_one_of_lt a.isLt

/-- At the last number it is to end at the first row of the table. -/
theorem accountPending_last : accountPending s (BitVec.allOnes 256) =
    sumTo (s.pending.rows le).head?
      (pendingOf s (BitVec.allOnes 256)) 0 := by
  unfold accountPending
  rw [show BitVec.allOnes 256 + 1 = (0 : Account) by decide, pendingBegin_eq, pendingBegin_eq]
  congr 1
  · refine congrArg List.head? (List.filter_eq_self.mpr fun row _ => decide_eq_true ?_)
    exact Nat.zero_le _
  · refine List.filter_congr fun row _ => decide_eq_decide.mpr ?_
    exact ⟨fun h => le_antisymm (le_allOnes _) h, fun h => h ▸ le_refl _⟩

theorem pendingSum_eq_zero_iff : pendingSum s a = 0 ↔
    ∀ k info, s.pending.lookup k = some info → k.account = a → info.amount = 0 := by
  rw [← sum_pendingOf, List.sum_eq_zero_iff]
  constructor
  · intro h k info hk hka
    have hmem : (k, info) ∈ pendingOf s a :=
      List.mem_filter.mpr ⟨Table.mem_rows.mpr hk, decide_eq_true hka⟩
    exact BitVec.eq_of_toNat_eq (h _ (List.mem_map_of_mem hmem))
  · intro h x hx
    obtain ⟨row, hrow, rfl⟩ := List.mem_map.mp hx
    obtain ⟨hmem, heq⟩ := List.mem_filter.mp hrow
    rw [h row.1 row.2 (Table.mem_rows.mp hmem) (of_decide_eq_true heq)]
    rfl

/-- What the loop returns at the last number, for a table with a first row. -/
theorem accountPending_last_cons {row : PendingKey × PendingInfo}
    {rest : List (PendingKey × PendingInfo)}
    (hrows : s.pending.rows le = row :: rest) :
    accountPending s (BitVec.allOnes 256) =
      if row.1.account = BitVec.allOnes 256 then .ok 0 else .error .assertion := by
  rw [accountPending_last, hrows, List.head?_cons]
  unfold pendingOf
  rw [hrows]
  split_ifs with hrow
  · rw [List.filter_cons_of_pos (by simpa using hrow)]
    exact if_pos rfl
  · refine sumTo_missing (fun hmem => ?_) 0
    exact hrow (of_decide_eq_true (List.mem_filter.mp hmem).2)

/-- **When the pending amount is right.** For every table whose amounts add up to less than
2^128 and every account: the loop ends, reads no row past the end and returns the sum of
the amounts of exactly the entries of the account, if and only if the account is not the
last number, or the table holds nothing but zero amounts for it. -/
theorem account_pending_iff
    (hsum : s.pending.sum (fun _ info => info.amount.toNat) ≤ 2 ^ 128 - 1) (a : Account) :
    (∃ r, accountPending s a = .ok r ∧ r.toNat = pendingSum s a) ↔ a ≠ BitVec.allOnes 256 ∨
      ∀ k info, s.pending.lookup k = some info → k.account = a ∧ info.amount = 0 := by
  have hbound : pendingSum s a ≤ 2 ^ 128 - 1 := by
    refine le_trans (Table.sum_le_sum _ fun k info => ?_) hsum
    split_ifs
    · exact le_rfl
    · exact Nat.zero_le _
  by_cases ha : a = BitVec.allOnes 256
  · subst ha
    cases hrows : s.pending.rows le with
    | nil =>
      have hempty : ∀ k info, s.pending.lookup k ≠ some info := fun k info hk => by
        have hmem := Table.mem_rows (r := le).mpr hk
        rw [hrows] at hmem
        cases hmem
      refine iff_of_true ⟨0, ?_, ?_⟩ (Or.inr fun k info hk => absurd hk (hempty k info))
      · rw [accountPending_last]
        unfold pendingOf
        rw [hrows]
        rfl
      · exact (pendingSum_eq_zero_iff.mpr fun k info hk => absurd hk (hempty k info)).symm
    | cons row rest =>
      have hstored : s.pending.lookup row.1 = some row.2 :=
        Table.mem_rows.mp (hrows ▸ List.mem_cons_self)
      rw [accountPending_last_cons hrows]
      by_cases hrow : row.1.account = BitVec.allOnes 256
      · -- the first row belongs to the last number, so all rows do
        have hall : ∀ k info, s.pending.lookup k = some info →
            k.account = BitVec.allOnes 256 := by
          intro k info hk
          have hmem := Table.mem_rows (r := le).mpr hk
          have hsorted := pairwise_account s
          rw [hrows] at hmem hsorted
          rcases List.mem_cons.mp hmem with heq | hmem
          · rw [← heq] at hrow
            exact hrow
          · have hge := (List.pairwise_cons.mp hsorted).1 _ hmem
            rw [hrow] at hge
            exact le_antisymm (le_allOnes k.account) hge
        rw [if_pos hrow]
        constructor
        · rintro ⟨r, hr, hzero⟩
          obtain rfl := Except.ok.inj hr
          refine Or.inr fun k info hk => ⟨hall k info hk, ?_⟩
          exact pendingSum_eq_zero_iff.mp hzero.symm k info hk (hall k info hk)
        · rintro (hne | hzero)
          · exact absurd rfl hne
          · exact ⟨0, rfl, (pendingSum_eq_zero_iff.mpr fun k info hk _ =>
              (hzero k info hk).2).symm⟩
      · rw [if_neg hrow]
        constructor
        · rintro ⟨r, hr, -⟩
          cases hr
        · rintro (hne | hzero)
          · exact absurd rfl hne
          · exact absurd (hzero _ _ hstored).1 hrow
  · refine iff_of_true ⟨_, accountPending_eq ha, ?_⟩ (Or.inl ha)
    rw [toNat_foldl, sum_pendingOf]
    exact (congrArg (· % 2 ^ 128) (Nat.zero_add _)).trans (Nat.mod_eq_of_lt (by omega))

/-- One amount for the account 5 and one for 7. -/
def pendingSample : BlockStore :=
  (BlockStore.empty.pendingPut ⟨5, 1⟩ ⟨1, 100⟩).pendingPut ⟨7, 2⟩ ⟨1, 50⟩

/-- The pending amount of the last account number reads past the end of the table. -/
theorem pending_past_end : accountPending pendingSample (BitVec.allOnes 256) = .error .assertion ∧
    pendingSample.pending.sum (fun _ info => info.amount.toNat) ≤ 2 ^ 128 - 1 := by
  decide +kernel

theorem account_pending_iff_five :
    ∃ r, accountPending pendingSample 5 = .ok r ∧ r.toNat = pendingSum pendingSample 5 :=
  (account_pending_iff (by decide +kernel) 5).mpr (Or.inl (by decide))

end RaiBlocks
