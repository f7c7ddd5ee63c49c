import RaiBlocks.Foundation.Lists
import RaiBlocks.Foundation.OrderedMap
import RaiBlocks.Store.BlockStore
import RaiBlocks.Votes.Vote

/-!
# Votes of an election and their tally

Translation of `rai::votes` (`rai/common.cpp`) and of `ledger::tally`
(`rai/ledger.cpp`). The code keeps votes and totals in hash maps, whose order of
iteration is not specified. Here they are lists of entries and every function
that runs through one is given the order, an `Iteration`.

Candidates are told apart by `block::operator==`, which looks at signature and
work too.
-/

namespace RaiBlocks

open Foundation Descending

/-- The orders in which the hash maps of one call are run through. -/
structure Iteration where
  repVotes : List (Account × Block) → List (Account × Block)
  totals : List (Block × Uint128) → List (Block × Uint128)
  repVotes_perm : ∀ l, (repVotes l).Perm l
  totals_perm : ∀ l, (totals l).Perm l

/-- In the order of the lists. -/
def Iteration.plain : Iteration := ⟨id, id, fun _ => .refl _, fun _ => .refl _⟩

/-! ## Votes -/

/-- All votes received by account, for the blocks of one root. There is always
one: the constructor enters the first block under `not_an_account`. -/
structure Votes where
  /-- Root block of fork -/
  id : BlockHash
  repVotes : List (Account × Block)
  nodup : (repVotes.map Prod.fst).Nodup
  ne_nil : repVotes ≠ []

inductive TallyResult where
  | vote | changed | confirm
deriving DecidableEq

namespace Votes

/-- The constructor. `not_an_account` is drawn at random when a node starts. -/
def start (notAnAccount : Account) (b : Block) : Votes :=
  ⟨b.root, [(notAnAccount, b)], by simp, by simp⟩

/-- Rep changed their vote. -/
def replace (votes : Votes) (a : Account) (b : Block) : Votes where
  id := votes.id
  repVotes := votes.repVotes.map fun i => if i.1 = a then (a, b) else i
  nodup := by
    have hkeys : (votes.repVotes.map fun i => if i.1 = a then (a, b) else i).map Prod.fst =
        votes.repVotes.map Prod.fst := by
      rw [List.map_map]
      apply List.map_congr_left
      intro i _
      simp only [Function.comp]
      split <;> simp_all
    rw [hkeys]
    exact votes.nodup
  ne_nil := by simpa using votes.ne_nil

/-- The block the account votes for. -/
def find (votes : Votes) (a : Account) : Option Block :=
  (votes.repVotes.find? fun i => i.1 = a).map Prod.snd

/-- Vote on this block hasn't been seen from rep before. -/
def insert (votes : Votes) (a : Account) (b : Block) (h : votes.find a = none) : Votes where
  id := votes.id
  repVotes := (a, b) :: votes.repVotes
  nodup := by
    simp only [find, Option.map_eq_none_iff, List.find?_eq_none, decide_eq_true_eq] at h
    rw [List.map_cons, List.nodup_cons]
    refine ⟨fun hmem => ?_, votes.nodup⟩
    obtain ⟨i, hi, heq⟩ := List.mem_map.mp hmem
    exact h i hi heq
  ne_nil := by simp

/-- `votes::vote`. -/
def vote (votes : Votes) (v : Vote) : Votes × TallyResult :=
  match h : votes.find v.account with
  | none => (votes.insert v.account v.block h, .vote)
  | some b => if b ≠ v.block then (votes.replace v.account v.block, .changed) else (votes, .confirm)

/-- Somebody votes for the block. -/
def Candidate (votes : Votes) (b : Block) : Prop := ∃ a, (a, b) ∈ votes.repVotes

end Votes

/-! ## The tally -/

/-- The loop body that builds the map of totals: find or insert, then add. -/
def addTotal (weight : Account → Uint128) :
    List (Block × Uint128) → Account × Block → List (Block × Uint128)
  | [], i => [(i.2, 0 + weight i.1)]
  | (b, w) :: totals, i =>
    if b = i.2 then (b, w + weight i.1) :: totals else (b, w) :: addTotal weight totals i

namespace Ledger

/-- A map of blocks -> vote total. -/
def totals (weight : Account → Uint128) (order : Iteration) (votes : Votes) :
    List (Block × Uint128) :=
  (order.repVotes votes.repVotes).foldl (addTotal weight) []

/-- A map of vote total -> block in decreasing order. Blocks with the same total
overwrite one another. -/
def tally (weight : Account → Uint128) (order : Iteration) (votes : Votes) :
    List (Uint128 × Block) :=
  ofList (order.totals (totals weight order votes))

end Ledger

/-! ## What the totals are -/

section Totals

variable (weight : Account → Uint128) {l : List (Account × Block)}

/-- The weight of the entries that vote for `b`, as an exact number. -/
def totalOf (l : List (Account × Block)) (b : Block) : ℕ :=
  (l.map fun i => if i.2 = b then (weight i.1).toNat else 0).sum

namespace Votes

/-- The total weight of the representatives voting for `b`. -/
def total (votes : Votes) (b : Block) : ℕ := totalOf weight votes.repVotes b

/-- The total weight of all that vote. -/
def voted (votes : Votes) : ℕ := (votes.repVotes.map fun i => (weight i.1).toNat).sum

theorem total_le_voted (votes : Votes) (b : Block) : votes.total weight b ≤ votes.voted weight := by
  apply List.sum_le_sum
  intro i _
  split <;> simp

end Votes

/-- An assignment of representative weights, which add up to at most 2^128 - 1. -/
structure Weights where
  of : Account → Uint128
  bounded : ∀ s : Finset Account, ∑ a ∈ s, (of a).toNat < 2 ^ 128

namespace Votes

/-- Somebody votes for the block, and no other block has more. -/
def Leads (w : Weights) (votes : Votes) (b : Block) : Prop :=
  votes.Candidate b ∧ ∀ c, votes.Candidate c → votes.total w.of c ≤ votes.total w.of b

theorem voted_lt (w : Weights) (votes : Votes) : votes.voted w.of < 2 ^ 128 := by
  have hsum := List.sum_toFinset (fun a => (w.of a).toNat) votes.nodup
  rw [List.map_map] at hsum
  have hlt := w.bounded (votes.repVotes.map Prod.fst).toFinset
  rwa [hsum] at hlt

theorem total_lt (w : Weights) (votes : Votes) (b : Block) : votes.total w.of b < 2 ^ 128 :=
  (votes.total_le_voted w.of b).trans_lt (votes.voted_lt w)

/-- The blocks somebody votes for, each once. -/
def candidates (votes : Votes) : List Block := (votes.repVotes.map Prod.snd).dedup

/-- The different totals of the candidates, added up. -/
def weighed (weight : Account → Uint128) (votes : Votes) : ℕ :=
  (votes.candidates.map (votes.total weight)).dedup.sum

theorem mem_candidates {votes : Votes} {b : Block} : b ∈ votes.candidates ↔ votes.Candidate b := by
  simp [candidates, Candidate]

end Votes

/-- Over blocks that include all voted ones, the totals add up to all that vote. -/
theorem sum_totalOf {s : List Block} (hs : s.Nodup) (hl : ∀ i ∈ l, i.2 ∈ s) :
    (s.map (totalOf weight l)).sum = (l.map fun i => (weight i.1).toNat).sum :=
  sum_fiberwise Prod.snd (fun i => (weight i.1).toNat) hs hl

theorem Votes.weighed_le_voted (votes : Votes) : votes.weighed weight ≤ votes.voted weight := by
  have hmem : ∀ i ∈ votes.repVotes, i.2 ∈ votes.candidates :=
    fun i hi => Votes.mem_candidates.mpr ⟨i.1, hi⟩
  calc votes.weighed weight
      ≤ (votes.candidates.map (votes.total weight)).sum :=
        (List.dedup_sublist _).sum_le_sum fun _ _ => Nat.zero_le _
    _ = votes.voted weight := sum_totalOf weight (List.nodup_dedup _) hmem

/-- `totals` lists the voted blocks of `l` once each, with their totals. -/
structure TotalsOf (l : List (Account × Block)) (totals : List (Block × Uint128)) : Prop where
  nodup : (totals.map Prod.fst).Nodup
  exact : ∀ b w, (b, w) ∈ totals → w = BitVec.ofNat 128 (totalOf weight l b)
  voted : ∀ b, b ∈ totals.map Prod.fst ↔ ∃ a, (a, b) ∈ l

variable {weight}

theorem keys_addTotal (totals : List (Block × Uint128)) (i : Account × Block) :
    (addTotal weight totals i).map Prod.fst =
      if i.2 ∈ totals.map Prod.fst then totals.map Prod.fst else totals.map Prod.fst ++ [i.2] := by
  induction totals with
  | nil => simp [addTotal]
  | cons x totals ih =>
    rw [addTotal]
    by_cases hx : x.1 = i.2
    · simp [hx]
    · have hx' : i.2 ≠ x.1 := fun h => hx h.symm
      rw [if_neg hx, List.map_cons, ih]
      by_cases hmem : i.2 ∈ totals.map Prod.fst
      · simp only [List.map_cons, List.mem_cons, hx', false_or, hmem, if_true]
      · simp only [List.map_cons, List.mem_cons, hx', false_or, hmem, if_false, List.cons_append]

/-- An entry after one step: it was there, or it is the one of the step. -/
theorem mem_addTotal {totals : List (Block × Uint128)} {i : Account × Block} {b : Block}
    {w : Uint128} (h : (b, w) ∈ addTotal weight totals i) (hnodup : (totals.map Prod.fst).Nodup) :
    (b ≠ i.2 ∧ (b, w) ∈ totals) ∨ (b = i.2 ∧ ∃ w', (b, w') ∈ totals ∧ w = w' + weight i.1) ∨
    (b = i.2 ∧ b ∉ totals.map Prod.fst ∧ w = 0 + weight i.1) := by
  induction totals with
  | nil =>
    obtain ⟨rfl, rfl⟩ : b = i.2 ∧ w = 0 + weight i.1 := by simpa [addTotal] using h
    exact Or.inr (Or.inr ⟨rfl, by simp, rfl⟩)
  | cons x totals ih =>
    obtain ⟨c, wc⟩ := x
    rw [List.map_cons, List.nodup_cons] at hnodup
    rw [addTotal] at h
    split_ifs at h with hc
    · rcases List.mem_cons.mp h with heq | hmem
      · obtain ⟨rfl, rfl⟩ := Prod.mk.inj heq
        exact Or.inr (Or.inl ⟨hc, wc, List.mem_cons_self, rfl⟩)
      · refine Or.inl ⟨?_, List.mem_cons_of_mem _ hmem⟩
        rintro rfl
        exact hnodup.1 (List.mem_map.mpr ⟨_, hmem, hc.symm⟩)
    · rcases List.mem_cons.mp h with heq | hmem
      · obtain ⟨rfl, rfl⟩ := Prod.mk.inj heq
        exact Or.inl ⟨hc, List.mem_cons_self⟩
      · rcases ih hmem hnodup.2 with ⟨hne, hold⟩ | ⟨heq, w', hold, hw⟩ | ⟨heq, hnew, hw⟩
        · exact Or.inl ⟨hne, List.mem_cons_of_mem _ hold⟩
        · exact Or.inr (Or.inl ⟨heq, w', List.mem_cons_of_mem _ hold, hw⟩)
        · refine Or.inr (Or.inr ⟨heq, ?_, hw⟩)
          rw [List.map_cons, List.mem_cons, not_or]
          exact ⟨fun h => hc (h.symm.trans heq), hnew⟩

theorem totalOf_append (l : List (Account × Block)) (i : Account × Block) (b : Block) :
    totalOf weight (l ++ [i]) b =
      totalOf weight l b + if i.2 = b then (weight i.1).toNat else 0 := by
  simp [totalOf]

theorem totalOf_eq_zero {b : Block} (h : ¬ ∃ a, (a, b) ∈ l) : totalOf weight l b = 0 := by
  apply List.sum_eq_zero
  intro n hn
  obtain ⟨i, hi, rfl⟩ := List.mem_map.mp hn
  rw [if_neg]
  rintro rfl
  exact h ⟨i.1, hi⟩

theorem TotalsOf.step {totals : List (Block × Uint128)} (ht : TotalsOf weight l totals)
    (i : Account × Block) : TotalsOf weight (l ++ [i]) (addTotal weight totals i) := by
  refine ⟨?_, fun b w hb => ?_, fun b => ?_⟩
  · rw [keys_addTotal]
    split_ifs with hmem
    · exact ht.nodup
    · rw [List.nodup_append]
      refine ⟨ht.nodup, by simp, fun x hx y hy heq => hmem ?_⟩
      rwa [← List.mem_singleton.mp hy, ← heq]
  · rw [totalOf_append]
    rcases mem_addTotal hb ht.nodup with ⟨hne, hold⟩ | ⟨rfl, w', hold, rfl⟩ | ⟨rfl, hnew, rfl⟩
    · rw [if_neg (Ne.symm hne), Nat.add_zero]
      exact ht.exact b w hold
    · rw [if_pos rfl, BitVec.ofNat_add, ← ht.exact _ _ hold]
      simp
    · rw [if_pos rfl, totalOf_eq_zero fun h => hnew ((ht.voted _).mpr h)]
      simp
  · have hl : (∃ a, (a, b) ∈ l ++ [i]) ↔ (∃ a, (a, b) ∈ l) ∨ b = i.2 := by
      obtain ⟨a, c⟩ := i
      simp [exists_or]
    rw [keys_addTotal, hl]
    split_ifs with hmem
    · rw [ht.voted]
      refine ⟨Or.inl, ?_⟩
      rintro (h | rfl)
      · exact h
      · exact (ht.voted _).mp hmem
    · rw [List.mem_append, List.mem_singleton, ht.voted]

theorem totalsOf_foldl (l : List (Account × Block)) :
    TotalsOf weight l (l.foldl (addTotal weight) []) := by
  induction l using List.reverseRecOn with
  | nil => exact ⟨by simp, by simp, by simp⟩
  | append_singleton l i ih =>
    rw [List.foldl_append]
    exact ih.step i

end Totals

/-! ## What the tally is -/

section Tally

variable {weight : Account → Uint128} {order : Iteration} {votes : Votes} {k : Uint128} {b : Block}

theorem totals_spec : TotalsOf weight votes.repVotes (Ledger.totals weight order votes) := by
  have hperm := order.repVotes_perm votes.repVotes
  have ht : TotalsOf weight _ _ := totalsOf_foldl (order.repVotes votes.repVotes)
  refine ⟨ht.nodup, fun b w hb => ?_, fun b => ?_⟩
  · rw [ht.exact b w hb]
    exact congrArg _ (hperm.map _).sum_eq
  · rw [Ledger.totals, ht.voted]
    simp only [hperm.mem_iff]

/-- Every entry of the tally is a candidate with its total. -/
theorem mem_tally (h : (k, b) ∈ Ledger.tally weight order votes) :
    votes.Candidate b ∧ k = BitVec.ofNat 128 (votes.total weight b) := by
  have hmem := (order.totals_perm _).mem_iff.mp (mem_of_mem_ofList h)
  have ht : TotalsOf weight _ (Ledger.totals weight order votes) := totals_spec
  exact ⟨(ht.voted b).mp (List.mem_map_of_mem hmem), ht.exact b k hmem⟩

theorem mem_totals (hb : votes.Candidate b) :
    (b, BitVec.ofNat 128 (votes.total weight b)) ∈
      order.totals (Ledger.totals weight order votes) := by
  rw [(order.totals_perm _).mem_iff]
  have ht : TotalsOf weight _ (Ledger.totals weight order votes) := totals_spec
  obtain ⟨x, hx, rfl⟩ := List.mem_map.mp ((ht.voted b).mpr hb)
  have hw := ht.exact x.1 x.2 hx
  rwa [show votes.total weight x.1 = totalOf weight votes.repVotes x.1 from rfl, ← hw]

theorem tally_ne_nil : Ledger.tally weight order votes ≠ [] := by
  apply ofList_ne_nil
  obtain ⟨i, l, hl⟩ := List.exists_cons_of_ne_nil votes.ne_nil
  have hcand : votes.Candidate i.2 := ⟨i.1, by rw [hl]; exact List.mem_cons_self⟩
  exact List.ne_nil_of_mem (mem_totals hcand)

theorem keys_nodup : ((Ledger.tally weight order votes).map fun i => i.1.toNat).Nodup := by
  have hsorted : Sorted (Ledger.tally weight order votes) := ofList_sorted
  rw [List.Nodup, List.pairwise_map]
  exact hsorted.imp fun h => (BitVec.lt_def.mp h).ne'

variable {w : Weights}

theorem foldl_add_keys (m : List (Uint128 × Block)) : ∀ n : ℕ,
    m.foldl (fun sum i => sum + i.1) (BitVec.ofNat 128 n) =
      BitVec.ofNat 128 (n + (m.map fun i => i.1.toNat).sum) := by
  induction m with
  | nil => simp
  | cons i m ih =>
    intro n
    have hi : BitVec.ofNat 128 n + i.1 = BitVec.ofNat 128 (n + i.1.toNat) := by
      rw [BitVec.ofNat_add, BitVec.ofNat_toNat, BitVec.setWidth_eq]
    rw [List.foldl_cons, hi, ih, List.map_cons, List.sum_cons, Nat.add_assoc]

theorem toNat_key (h : (k, b) ∈ Ledger.tally w.of order votes) : k.toNat = votes.total w.of b := by
  rw [(mem_tally h).2, BitVec.toNat_ofNat, Nat.mod_eq_of_lt (votes.total_lt w b)]

theorem keys_perm : ((Ledger.tally w.of order votes).map fun i => i.1.toNat).Perm
    (votes.candidates.map (votes.total w.of)).dedup := by
  rw [List.perm_ext_iff_of_nodup keys_nodup (List.nodup_dedup _)]
  intro n
  rw [List.mem_dedup, List.mem_map, List.mem_map]
  constructor
  · rintro ⟨⟨k, b⟩, hb, rfl⟩
    exact ⟨b, Votes.mem_candidates.mpr (mem_tally hb).1, (toNat_key hb).symm⟩
  · rintro ⟨b, hb, rfl⟩
    obtain ⟨c, hc⟩ := key_ofList.mpr ⟨b, mem_totals (Votes.mem_candidates.mp hb)⟩
    refine ⟨_, hc, ?_⟩
    rw [BitVec.toNat_ofNat, Nat.mod_eq_of_lt (votes.total_lt w b)]

/-- What the loop over the tally adds up to does not wrap. -/
theorem sum_tally :
    ((Ledger.tally w.of order votes).foldl (fun sum i => sum + i.1) (0 : Uint128)).toNat =
      votes.weighed w.of := by
  have hlt := (votes.weighed_le_voted w.of).trans_lt (votes.voted_lt w)
  rw [show (0 : Uint128) = BitVec.ofNat 128 0 from rfl, foldl_add_keys, keys_perm.sum_eq,
    BitVec.toNat_ofNat, Nat.zero_add]
  exact Nat.mod_eq_of_lt hlt

theorem tally_head {m : List (Uint128 × Block)}
    (h : Ledger.tally w.of order votes = (k, b) :: m) : votes.Leads w b := by
  have hb : (k, b) ∈ Ledger.tally w.of order votes := by rw [h]; exact List.mem_cons_self
  refine ⟨(mem_tally hb).1, fun c hc => ?_⟩
  have hle := BitVec.le_def.mp (le_head h (mem_totals hc))
  rwa [toNat_key hb, BitVec.toNat_ofNat, Nat.mod_eq_of_lt (votes.total_lt w c)] at hle

theorem tally_single (h : Ledger.tally w.of order votes = [(k, b)]) {c : Block}
    (hc : votes.Candidate c) : votes.Leads w c := by
  obtain ⟨a, ha⟩ : ∃ a,
      (BitVec.ofNat 128 (votes.total w.of c), a) ∈ Ledger.tally w.of order votes :=
    key_ofList.mpr ⟨c, mem_totals hc⟩
  have hb : (k, b) ∈ Ledger.tally w.of order votes := by rw [h]; exact List.mem_cons_self
  have heq : votes.total w.of c = votes.total w.of b := by
    have ha' : (BitVec.ofNat 128 (votes.total w.of c), a) ∈ [(k, b)] := h ▸ ha
    have hk := congrArg BitVec.toNat (Prod.mk.inj (List.mem_singleton.mp ha')).1
    rwa [toNat_key hb, BitVec.toNat_ofNat, Nat.mod_eq_of_lt (votes.total_lt w c)] at hk
  exact ⟨hc, fun d hd => heq ▸ (tally_head h).2 d hd⟩

/-- The second entry does not lead, and of those that do not lead none has more. -/
theorem tally_second {k' : Uint128} {c : Block} {m : List (Uint128 × Block)}
    (h : Ledger.tally w.of order votes = (k, b) :: (k', c) :: m) :
    votes.Candidate c ∧ ¬ votes.Leads w c ∧
      ∀ d, votes.Candidate d → ¬ votes.Leads w d → votes.total w.of d ≤ votes.total w.of c := by
  have hb : (k, b) ∈ Ledger.tally w.of order votes := by rw [h]; exact List.mem_cons_self
  have hc : (k', c) ∈ Ledger.tally w.of order votes := by rw [h]; simp
  have hlt : k' < k := by
    have hsorted : Sorted (Ledger.tally w.of order votes) := ofList_sorted
    rw [h] at hsorted
    exact (List.pairwise_cons.mp hsorted).1 _ List.mem_cons_self
  refine ⟨(mem_tally hc).1, fun hlead => ?_, fun d hd hnot => ?_⟩
  · have hle := hlead.2 b (mem_tally hb).1
    rw [← toNat_key hb, ← toNat_key hc] at hle
    exact absurd hlt (BitVec.not_lt.mpr (BitVec.le_def.mpr hle))
  · have hd' : votes.total w.of d < votes.total w.of b := by
      refine lt_of_le_of_ne ((tally_head h).2 d hd) fun heq => hnot ⟨hd, fun e he => ?_⟩
      exact heq ▸ (tally_head h).2 e he
    rw [← toNat_key hb] at hd'
    have hmod := Nat.mod_eq_of_lt (votes.total_lt w d)
    have hle := BitVec.le_def.mp (le_second h (mem_totals hd)
      (by rwa [BitVec.lt_def, BitVec.toNat_ofNat, hmod]))
    rwa [toNat_key hc, BitVec.toNat_ofNat, hmod] at hle

end Tally

/-! ## Two representatives -/

/-- Two representatives with weights `m` and `n`. -/
def Weights.pair (a b : Account) (m n : Uint128) (h : m.toNat + n.toNat < 2 ^ 128) : Weights where
  of x := if x = a then m else if x = b then n else 0
  bounded s := by
    calc ∑ x ∈ s, (if x = a then m else if x = b then n else 0).toNat
        ≤ ∑ x ∈ s, ((if x = a then m.toNat else 0) + if x = b then n.toNat else 0) := by
          apply Finset.sum_le_sum
          intro x _
          split_ifs <;> simp
      _ ≤ m.toNat + n.toNat := by
          rw [Finset.sum_add_distrib, Finset.sum_ite_eq', Finset.sum_ite_eq']
          apply Nat.add_le_add
          · split_ifs <;> simp
          · split_ifs <;> simp
      _ < 2 ^ 128 := h

namespace Tied

def block (representative : Account) : Block := .changeBlock ⟨⟨5, representative⟩, 0, 0⟩

/-- Representatives 7 and 8 have 600 each, of a stake of 1000. -/
def weights : Weights := .pair 7 8 600 600 (by decide)

/-- One votes for the first block and one for the second. -/
def votes : Votes :=
  ((((Votes.start 1 (block 7)).vote ⟨1, block 7, 7, 0⟩).1).vote ⟨1, block 8, 8, 0⟩).1

end Tied

end RaiBlocks
