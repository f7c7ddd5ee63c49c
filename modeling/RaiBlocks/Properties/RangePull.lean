import RaiBlocks.Bootstrap.BulkPullBlocks
import RaiBlocks.Foundation.Lists
import RaiBlocks.Refinement.Tower

/-!
# Pulling a range of blocks

A range pull is to return the stored blocks of a range in the order of their hashes.
The server walks the block info table instead, which has a row for every 32nd block of
a chain at most. It ends at the first row whose block is not stored, and rolled back
state blocks leave such rows.
-/

namespace RaiBlocks

open Foundation BlockStore

/-! ## What is to be returned -/

/-- The elements that a count allows. A count of 0 is no limit. -/
def upTo {α : Type} (maxCount : BitVec 32) (l : List α) : List α :=
  if maxCount = 0 then l else l.take maxCount.toNat

theorem mem_of_mem_upTo {α : Type} {maxCount : BitVec 32} {l : List α} {a : α}
    (h : a ∈ upTo maxCount l) : a ∈ l := by
  unfold upTo at h
  split at h
  · exact h
  · exact List.mem_of_mem_take h

namespace BlockStore

/-- The hashes of all stored blocks in ascending order. -/
def storedHashes (s : BlockStore) : List BlockHash :=
  Table.sortKeys (· ≤ ·)
    (getOrder.foldr (fun type hashes => (s.blockDatabase type).keys ∪ hashes) ∅)

/-- The hashes of the blocks that a request asks for. -/
def rangeHashes (s : BlockStore) (minHash maxHash : BlockHash) (maxCount : BitVec 32) :
    List BlockHash :=
  upTo maxCount (s.storedHashes.filter fun h => decide (minHash ≤ h) && decide (h < maxHash))

theorem mem_storedHashes {s : BlockStore} {h : BlockHash} :
    h ∈ s.storedHashes ↔ s.blockExists h = true := by
  unfold storedHashes blockExists getOrder
  rw [Table.sortKeys_eq_sort, Finset.mem_sort]
  simp only [List.foldr_cons, List.foldr_nil, Finset.mem_union, Finset.notMem_empty, or_false,
    Finmap.mem_keys, ← Finmap.lookup_isSome, List.any_cons, List.any_nil, Bool.or_eq_true,
    Bool.or_false]

theorem pairwise_storedHashes (s : BlockStore) : s.storedHashes.Pairwise (· < ·) := by
  unfold storedHashes
  rw [Table.sortKeys_eq_sort]
  exact ((Finset.pairwise_sort _ _).and (Finset.sort_nodup _ _)).imp
    fun h => BitVec.lt_of_le_ne h.1 h.2

theorem rangeHashes_single (s : BlockStore) (h h' : BlockHash) (hnext : h'.toNat = h.toNat + 1)
    (hstored : s.blockExists h = true) : s.rangeHashes h h' 0 = [h] := by
  have hmem : ∀ x, x ∈ s.rangeHashes h h' 0 ↔ x = h := by
    intro x
    show x ∈ List.filter _ _ ↔ x = h
    rw [List.mem_filter, mem_storedHashes, Bool.and_eq_true, decide_eq_true_eq, decide_eq_true_eq]
    constructor
    · rintro ⟨-, hle, hlt⟩
      have hle : h.toNat ≤ x.toNat := hle
      have hlt : x.toNat < h'.toNat := hlt
      exact BitVec.eq_of_toNat_eq (by omega)
    · rintro rfl
      exact ⟨hstored, le_refl _, show x.toNat < h'.toNat by omega⟩
  have hnodup : (s.rangeHashes h h' 0).Nodup :=
    (s.pairwise_storedHashes.imp fun hlt => hlt.ne).filter _
  exact List.perm_singleton.mp ((List.perm_ext_iff_of_nodup hnodup (List.nodup_singleton h)).mpr
    fun x => (hmem x).trans List.mem_singleton.symm)

end BlockStore

/-! ## What the server returns -/

namespace BulkPullBlocksServer

variable {p : Env} {s : BlockStore} {v : BulkPullBlocksServer}

/-- The part of a list that the count of the request still allows. -/
def allowed {α : Type} (v : BulkPullBlocksServer) (l : List α) : List α :=
  if v.maxCount = 0 then l else l.take (v.maxCount.toNat - v.sentCount.toNat)

theorem allowed_nil {α : Type} (v : BulkPullBlocksServer) : v.allowed ([] : List α) = [] := by
  unfold allowed
  rw [List.take_nil]
  exact ite_self []

/-- The hashes that the iterator comes to before the walk ends. -/
def walk (s : BlockStore) (maxHash : BlockHash) (rows : List (BlockHash × BlockInfo)) :
    List BlockHash :=
  (rows.map Prod.fst).takeWhile fun h => decide (h < maxHash) && s.blockExists h

/-- What is written for a list of blocks, after what has been written. -/
def finish (p : Env) (v : BulkPullBlocksServer) (blocks : List Block) : List UInt8 :=
  match v.mode with
  | .listBlocks => v.written ++ (blocks.map serializeBlock).flatten ++ [1]
  | .checksumBlocks => v.written ++ 1 :: bigEndian 32
      (blocks.foldl (fun checksum b => checksum ^^^ b.hash p) v.checksum).toNat ++ [1]
  | .unknown => v.written ++ [1]

theorem written_sendEnd (v : BulkPullBlocksServer) : v.sendEnd.written = finish p v [] := by
  unfold sendEnd finish
  cases v.mode with
  | listBlocks => simp
  | checksumBlocks => rfl
  | unknown => rfl

theorem finish_sendBlock (v : BulkPullBlocksServer) (b : Block) (blocks : List Block) :
    finish p (v.sendBlock p b) blocks = finish p v (b :: blocks) := by
  obtain ⟨maxHash, maxCount, mode, stream, sentCount, checksum, written, finished⟩ := v
  cases mode with
  | listBlocks => simp [finish, sendBlock]
  | checksumBlocks => rfl
  | unknown => rfl

/-- The server with one more call counted. -/
def counted (v : BulkPullBlocksServer) : BulkPullBlocksServer :=
  if v.maxCount ≠ 0 then { v with sentCount := v.sentCount + 1 } else v

theorem counted_eq (v : BulkPullBlocksServer) :
    v.counted = { v with sentCount := v.counted.sentCount } := by
  unfold counted
  split <;> rfl

/-- The count of the request is used up. -/
def Spent (v : BulkPullBlocksServer) : Prop := v.maxCount ≠ 0 ∧ v.maxCount ≤ v.sentCount

theorem getNext_spent (h : v.Spent) : getNext s v = .ok (none, v.counted) := if_pos h

theorem getNext_nil (h : ¬ v.Spent) (hstream : v.stream = []) :
    getNext s v = .ok (none, v.counted) := by
  have hcounted : v.counted.stream = [] := by rw [counted_eq, hstream]
  refine (if_neg h).trans (if_pos ?_)
  show v.counted.stream.isEmpty = true
  rw [hcounted]
  rfl

theorem getNext_cons (h : ¬ v.Spent) {row : BlockHash × BlockInfo}
    {rest : List (BlockHash × BlockInfo)} (hstream : v.stream = row :: rest) :
    getNext s v = .ok (if row.1 < v.maxHash then
      (s.blockGet row.1, { v.counted with stream := rest }) else (none, v.counted)) := by
  obtain ⟨n, hcounted⟩ : ∃ n, v.counted = { v with sentCount := n } := ⟨_, counted_eq v⟩
  refine (if_neg h).trans ?_
  show (if v.counted.stream.isEmpty = true then .ok (none, v.counted) else
    v.counted.currentHash >>= fun current => if current < v.counted.maxHash then
      .ok (s.blockGet current, { v.counted with stream := v.counted.stream.tail })
    else .ok (none, v.counted)) = _
  rw [hcounted, currentHash, hstream]
  show (if row.1 < v.maxHash then Except.ok _ else Except.ok _) = _
  split <;> rfl

/-- Sending a block changes nothing but what has been sent. -/
theorem sendBlock_eq (v : BulkPullBlocksServer) (b : Block) :
    ∃ written checksum, v.sendBlock p b = { v with written := written, checksum := checksum } := by
  unfold sendBlock
  split
  · exact ⟨_, _, rfl⟩
  · exact ⟨_, _, rfl⟩
  · exact ⟨_, _, rfl⟩

/-- While the count is not used up, one more call does not wrap it. -/
theorem sentCount_counted (h : ¬ v.Spent) (hmax : v.maxCount ≠ 0) :
    v.counted.sentCount.toNat = v.sentCount.toNat + 1 ∧
      v.sentCount.toNat < v.maxCount.toNat := by
  have hlt : v.sentCount.toNat < v.maxCount.toNat := by
    by_contra hle
    exact h ⟨hmax, Nat.le_of_not_lt hle⟩
  refine ⟨?_, hlt⟩
  have := v.maxCount.isLt
  rw [counted, if_pos hmax, BitVec.toNat_add, Nat.mod_eq_of_lt]
  · rfl
  · show v.sentCount.toNat + 1 < 2 ^ 32
    omega

/-- The server is done as soon as `get_next` has no block. -/
theorem loop_end {v' : BulkPullBlocksServer} (hgo : v.finished = false)
    (hget : getNext s v = .ok (none, v')) (hsame : finish p v' [] = finish p v []) (n : ℕ) :
    ∃ w, whileLoop .outOfFuel (fun v : BulkPullBlocksServer => !v.finished) (sendNext p s) (n + 1)
      v = .ok w ∧ w.written = finish p v [] := by
  have hsend : sendNext p s v = .ok v'.sendEnd := by
    unfold sendNext
    rw [hget]
    rfl
  have hdone : v'.sendEnd.finished = true := by
    unfold sendEnd
    split <;> rfl
  refine ⟨v'.sendEnd, ?_, (written_sendEnd v').trans hsame⟩
  rw [whileLoop_step (by rw [hgo]; rfl) hsend]
  exact whileLoop_done (by rw [hdone]; rfl) n

/-- **All that the server sends.** The induction is on the rows before the iterator. -/
theorem loop_eq (rows : List (BlockHash × BlockInfo)) :
    ∀ {v : BulkPullBlocksServer} {n : ℕ}, v.stream = rows → v.finished = false → rows.length < n →
      ∃ w, whileLoop .outOfFuel (fun v : BulkPullBlocksServer => !v.finished) (sendNext p s) n v =
          .ok w ∧
        w.written = finish p v ((v.allowed (walk s v.maxHash rows)).filterMap s.blockGet) := by
  induction rows with
  | nil =>
    intro v n hstream hgo hn
    obtain ⟨n, rfl⟩ : ∃ m, n = m + 1 := ⟨n - 1, by omega⟩
    rw [show walk s v.maxHash [] = [] from rfl, allowed_nil]
    have hget : getNext s v = .ok (none, v.counted) := by
      by_cases hspent : v.Spent
      · exact getNext_spent hspent
      · exact getNext_nil hspent hstream
    refine loop_end hgo hget ?_ n
    rw [counted_eq]
    rfl
  | cons row rest ih =>
    intro v n hstream hgo hn
    obtain ⟨n, rfl⟩ : ∃ m, n = m + 1 := ⟨n - 1, by omega⟩
    have hcounted : finish p v.counted [] = finish p v [] := by
      rw [counted_eq]
      rfl
    by_cases hspent : v.Spent
    · have hnone : ∀ l : List BlockHash, v.allowed l = [] := by
        intro l
        have hle : v.maxCount.toNat ≤ v.sentCount.toNat := hspent.2
        rw [allowed, if_neg hspent.1, Nat.sub_eq_zero_of_le hle, List.take_zero]
      rw [hnone]
      exact loop_end hgo (getNext_spent hspent) hcounted n
    have hget := getNext_cons (s := s) hspent hstream
    by_cases hlt : row.1 < v.maxHash
    · rw [if_pos hlt] at hget
      cases hb : s.blockGet row.1 with
      | none =>
        have hwalk : walk s v.maxHash (row :: rest) = [] := by
          unfold walk
          rw [List.map_cons, List.takeWhile_cons_of_neg]
          rw [blockExists_eq_false.mpr hb, Bool.and_false]
          exact Bool.false_ne_true
        rw [hb] at hget
        rw [hwalk, allowed_nil]
        exact loop_end hgo hget (by rw [counted_eq]; rfl) n
      | some b =>
        rw [hb] at hget
        have hsend : sendNext p s v = .ok (sendBlock p { v.counted with stream := rest } b) := by
          unfold sendNext
          rw [hget]
          rfl
        obtain ⟨written, checksum, hblock⟩ :=
          sendBlock_eq (p := p) { v.counted with stream := rest } b
        have hmaxCount :
            (sendBlock p { v.counted with stream := rest } b).maxCount = v.maxCount := by
          rw [hblock, counted_eq]
        have hsentCount : (sendBlock p { v.counted with stream := rest } b).sentCount =
            v.counted.sentCount := by
          rw [hblock]
        have hsame : ∀ (x : BlockHash) (l : List BlockHash), v.allowed (x :: l) =
            x :: (sendBlock p { v.counted with stream := rest } b).allowed l := by
          intro x l
          unfold allowed
          rw [hmaxCount, hsentCount]
          split
          · rfl
          · rename_i hmax
            obtain ⟨hsent, hlt⟩ := sentCount_counted hspent hmax
            obtain ⟨m, hm⟩ : ∃ m, v.maxCount.toNat - v.sentCount.toNat = m + 1 :=
              ⟨v.maxCount.toNat - v.sentCount.toNat - 1, by omega⟩
            rw [hm, List.take_succ_cons, hsent, Nat.sub_add_eq, hm, Nat.add_sub_cancel]
        obtain ⟨w, hrun, hwritten⟩ := ih
          (v := sendBlock p { v.counted with stream := rest } b) (n := n)
          (by rw [hblock]) (by rw [hblock, counted_eq]; exact hgo)
          (Nat.lt_of_succ_lt_succ hn)
        refine ⟨w, ?_, ?_⟩
        · rw [whileLoop_step (by rw [hgo]; rfl) hsend]
          exact hrun
        · have hwalk : walk s v.maxHash (row :: rest) = row.1 :: walk s v.maxHash rest := by
            unfold walk
            rw [List.map_cons, List.takeWhile_cons_of_pos]
            rw [decide_eq_true hlt, blockExists_iff.mpr ⟨b, hb⟩]
            rfl
          have hmax : (sendBlock p { v.counted with stream := rest } b).maxHash = v.maxHash := by
            rw [hblock, counted_eq]
          rw [hwritten, finish_sendBlock, hmax, hwalk, hsame, List.filterMap_cons_some hb]
          rw [counted_eq]
          rfl
    · rw [if_neg hlt] at hget
      have hwalk : walk s v.maxHash (row :: rest) = [] := by
        unfold walk
        rw [List.map_cons, List.takeWhile_cons_of_neg]
        rw [decide_eq_false hlt, Bool.false_and]
        exact Bool.false_ne_true
      rw [hwalk, allowed_nil]
      exact loop_end hgo hget hcounted n

/-- The hashes of the blocks that a request is answered with. -/
def walkHashes (s : BlockStore) (minHash maxHash : BlockHash) (maxCount : BitVec 32) :
    List BlockHash :=
  upTo maxCount (walk s (if maxHash < minHash then minHash else maxHash)
    (s.blocksInfo.rowsFrom (· ≤ ·) minHash))

theorem respond_eq (mode : BulkPullBlocksMode) (minHash maxHash : BlockHash)
    (maxCount : BitVec 32) :
    respond p s mode minHash maxHash maxCount =
      .ok (finish p (setParams s mode minHash maxHash maxCount)
        ((walkHashes s minHash maxHash maxCount).filterMap s.blockGet)) := by
  have hfuel : (s.blocksInfo.rowsFrom (· ≤ ·) minHash).length < fuel s :=
    Nat.lt_succ_of_le (List.length_filter_le _ _)
  obtain ⟨w, hrun, hwritten⟩ := loop_eq (p := p) (s := s) _
    (v := setParams s mode minHash maxHash maxCount) rfl rfl hfuel
  unfold respond
  rw [hrun, ok_bind]
  exact congrArg Except.ok hwritten

theorem respond_list (minHash maxHash : BlockHash) (maxCount : BitVec 32) :
    respond p s .listBlocks minHash maxHash maxCount =
      .ok ((((walkHashes s minHash maxHash maxCount).filterMap s.blockGet).map
        serializeBlock).flatten ++ [1]) :=
  respond_eq .listBlocks minHash maxHash maxCount

theorem respond_checksum (minHash maxHash : BlockHash) (maxCount : BitVec 32) :
    respond p s .checksumBlocks minHash maxHash maxCount =
      .ok (1 :: bigEndian 32 ((((walkHashes s minHash maxHash maxCount).filterMap s.blockGet).map
        fun b : Block => b.hash p).foldl (· ^^^ ·) 0).toNat ++ [1]) := by
  rw [respond_eq, List.foldl_map]
  rfl

theorem pairwise_rowsFrom (s : BlockStore) (minHash : BlockHash) :
    ((s.blocksInfo.rowsFrom (· ≤ ·) minHash).map Prod.fst).Pairwise (· < ·) := by
  refine List.pairwise_map.mpr ((Table.pairwise_rowsFrom s.blocksInfo minHash).imp ?_)
  exact fun h => BitVec.lt_of_le_ne h.1 h.2

theorem mem_rowsFrom {minHash h : BlockHash} :
    h ∈ (s.blocksInfo.rowsFrom (· ≤ ·) minHash).map Prod.fst ↔
      (s.blockInfoGet h).isSome = true ∧ minHash ≤ h := by
  rw [List.mem_map, Option.isSome_iff_exists]
  constructor
  · rintro ⟨row, hrow, rfl⟩
    obtain ⟨hrow, hmin⟩ := Table.mem_rowsFrom.mp hrow
    exact ⟨⟨row.2, hrow⟩, hmin⟩
  · rintro ⟨⟨info, hinfo⟩, hmin⟩
    exact ⟨(h, info), Table.mem_rowsFrom.mpr ⟨hinfo, hmin⟩, rfl⟩

/-- Every block of the answer has a row, and no row below it is without its block. -/
def Covered (s : BlockStore) (minHash maxHash : BlockHash) (maxCount : BitVec 32) : Prop :=
  ∀ h ∈ s.rangeHashes minHash maxHash maxCount, (s.blockInfoGet h).isSome = true ∧
    ∀ h', minHash ≤ h' → h' < h → (s.blockInfoGet h').isSome = true → s.blockExists h' = true

/-- When the walk over the rows gives the blocks of the range. -/
theorem walkHashes_eq_iff (minHash maxHash : BlockHash) (maxCount : BitVec 32) :
    walkHashes s minHash maxHash maxCount = s.rangeHashes minHash maxHash maxCount ↔
      Covered s minHash maxHash maxCount := by
  obtain ⟨bound, hbound⟩ : ∃ bound, (if maxHash < minHash then minHash else maxHash) = bound :=
    ⟨_, rfl⟩
  have hmax : ∀ h, minHash ≤ h → (h < bound ↔ h < maxHash) := by
    intro h hmin
    rw [← hbound]
    split
    · rename_i hlt
      exact iff_of_false (not_lt.mpr hmin) (not_lt.mpr (hlt.le.trans hmin))
    · rfl
  obtain ⟨walked, hwalked⟩ : ∃ walked,
    walk s bound (s.blocksInfo.rowsFrom (· ≤ ·) minHash) = walked := ⟨_, rfl⟩
  obtain ⟨range, hrange⟩ : ∃ range, (s.storedHashes.filter fun h =>
    decide (minHash ≤ h) && decide (h < maxHash)) = range := ⟨_, rfl⟩
  have hmemRange : ∀ h, h ∈ range ↔ s.blockExists h = true ∧ minHash ≤ h ∧ h < maxHash := by
    intro h
    rw [← hrange, List.mem_filter, mem_storedHashes, Bool.and_eq_true,
      decide_eq_true_eq, decide_eq_true_eq]
  have hmemWalked : ∀ h, h ∈ walked ↔ ((s.blockInfoGet h).isSome = true ∧ minHash ≤ h) ∧
      ∀ h', (s.blockInfoGet h').isSome = true ∧ minHash ≤ h' → h' ≤ h →
        h' < maxHash ∧ s.blockExists h' = true := by
    intro h
    rw [← hwalked, walk, mem_takeWhile_iff (pairwise_rowsFrom s minHash), mem_rowsFrom]
    simp only [mem_rowsFrom, Bool.and_eq_true, decide_eq_true_eq]
    refine and_congr_right fun _ => forall_congr' fun h' => ?_
    exact forall_congr' fun hrow => by rw [hmax h' hrow.2]
  have hsortedRange : range.Pairwise (· < ·) := by
    rw [← hrange]
    exact s.pairwise_storedHashes.filter _
  have hsortedWalked : walked.Pairwise (· < ·) := by
    rw [← hwalked]
    exact (pairwise_rowsFrom s minHash).sublist (List.takeWhile_sublist _)
  -- with or without a limit, the first elements of both are compared
  obtain ⟨n, hwalkTake, hrangeTake⟩ : ∃ n, walkHashes s minHash maxHash maxCount = walked.take n ∧
      s.rangeHashes minHash maxHash maxCount = range.take n := by
    unfold walkHashes rangeHashes upTo
    rw [hbound, hwalked, hrange]
    by_cases hcount : maxCount = 0
    · refine ⟨walked.length + range.length, ?_, ?_⟩
      · rw [if_pos hcount, List.take_of_length_le (by omega)]
      · rw [if_pos hcount, List.take_of_length_le (by omega)]
    · exact ⟨maxCount.toNat, if_neg hcount, if_neg hcount⟩
  unfold Covered
  rw [hwalkTake, hrangeTake]
  constructor
  · intro heq h hh
    rw [← heq] at hh
    obtain ⟨⟨hrow, hmin⟩, hall⟩ := (hmemWalked h).mp (List.mem_of_mem_take hh)
    exact ⟨hrow, fun h' hmin' hlt hrow' => (hall h' ⟨hrow', hmin'⟩ hlt.le).2⟩
  · intro hcovered
    refine take_eq_take_of_subset n hsortedWalked hsortedRange ?_ ?_
    · intro h hh
      obtain ⟨hrow, hall⟩ := (hmemWalked h).mp hh
      obtain ⟨hlt, hexists⟩ := hall h hrow (le_refl h)
      exact (hmemRange h).mpr ⟨hexists, hrow.2, hlt⟩
    · intro h hh
      obtain ⟨hexists, hmin, hlt⟩ := (hmemRange h).mp (List.mem_of_mem_take hh)
      obtain ⟨hrow, hall⟩ := hcovered h hh
      refine (hmemWalked h).mpr ⟨⟨hrow, hmin⟩, fun h' hrow' hle => ⟨hle.trans_lt hlt, ?_⟩⟩
      rcases hle.eq_or_lt with rfl | hlt'
      · exact hexists
      · exact hall h' hrow'.2 hlt' hrow'.1

end BulkPullBlocksServer

/-! ## Reading what is written -/

theorem serializeBlock_append_inj {b b' : Block} {rest rest' : List UInt8}
    (h : serializeBlock b ++ rest = serializeBlock b' ++ rest') : b = b' ∧ rest = rest' := by
  unfold serializeBlock at h
  rw [List.cons_append, List.cons_append, List.cons.injEq] at h
  have htype : b.type = b'.type := by
    have hcode := h.1
    cases hb : b.type <;> cases hb' : b'.type <;> rw [hb, hb'] at hcode <;>
      first | rfl | exact absurd hcode (by decide)
  have hread := deserializeBlock_serialize b rest
  rw [h.2, htype, deserializeBlock_serialize] at hread
  obtain ⟨rfl, rfl⟩ := Prod.mk.inj (Option.some.inj hread)
  exact ⟨rfl, rfl⟩

/-- A list of blocks with `not_a_block` at its end can be told from its bytes. -/
theorem flatten_serializeBlock_inj : ∀ {l l' : List Block},
    (l.map serializeBlock).flatten ++ [1] = (l'.map serializeBlock).flatten ++ [1] → l = l' := by
  have hend : ∀ (b : Block) (rest : List UInt8), [1] ≠ serializeBlock b ++ rest := by
    intro b rest h
    have hcode := (List.cons.inj h).1
    cases hb : b.type <;> rw [hb] at hcode <;> exact absurd hcode (by decide)
  intro l
  induction l with
  | nil =>
    intro l' h
    cases l' with
    | nil => rfl
    | cons b l' =>
      rw [List.map_cons, List.flatten_cons, List.append_assoc] at h
      exact absurd h (hend b _)
  | cons b l ih =>
    intro l' h
    rw [List.map_cons, List.flatten_cons, List.append_assoc] at h
    cases l' with
    | nil => exact absurd h.symm (hend b _)
    | cons b' l' =>
      rw [List.map_cons, List.flatten_cons, List.append_assoc] at h
      obtain ⟨rfl, hrest⟩ := serializeBlock_append_inj h
      rw [ih hrest]

theorem Refines.map_hash_filterMap {p : Env} {U : Set Block} {s : BlockStore} {Λ : Lattice p}
    (hr : Refines U s Λ) {hashes : List BlockHash}
    (hstored : ∀ h ∈ hashes, s.blockExists h = true) :
    (hashes.filterMap s.blockGet).map (fun b => b.hash p) = hashes := by
  induction hashes with
  | nil => rfl
  | cons h hashes ih =>
    obtain ⟨b, hb⟩ := blockExists_iff.mp (hstored h List.mem_cons_self)
    have hhash : b.hash p = h := by
      rw [hr.blockGet_eq] at hb
      obtain ⟨e, he, rfl⟩ := Lattice.of_blocks hb
      exact Λ.hash_eq he
    rw [List.filterMap_cons_some hb, List.map_cons, hhash,
      ih fun x hx => hstored x (List.mem_cons_of_mem _ hx)]

open BulkPullBlocksServer

/-- **A range pull gives the blocks that have a row.** The server always ends and never
reads past the end of the table. Its list is that of the stored blocks of the range, up
to the count, and its checksum that of their hashes, if and only if every one of these
blocks has a row in the block info table and no row of the range below it is without
its block. -/
theorem range_pull_iff {p : Env} {U : Set Block} {s : BlockStore} (hass : HashAssumptions p U)
    (hs : Ledger.Reachable p U s) (minHash maxHash : BlockHash) (maxCount : BitVec 32) :
    ∃ listed checksum, respond p s .listBlocks minHash maxHash maxCount = .ok listed ∧
      respond p s .checksumBlocks minHash maxHash maxCount = .ok checksum ∧
      ((listed = (((s.rangeHashes minHash maxHash maxCount).filterMap s.blockGet).map
            serializeBlock).flatten ++ [1] ∧
          checksum = 1 :: bigEndian 32
            ((s.rangeHashes minHash maxHash maxCount).foldl (· ^^^ ·) 0).toNat ++ [1]) ↔
        Covered s minHash maxHash maxCount) := by
  obtain ⟨Λ, hv⟩ := Ledger.Reachable.valid hass s hs
  have hstored : ∀ h ∈ s.rangeHashes minHash maxHash maxCount, s.blockExists h = true := by
    intro h hh
    exact mem_storedHashes.mp (List.mem_filter.mp (mem_of_mem_upTo hh)).1
  have hwalked : ∀ h ∈ walkHashes s minHash maxHash maxCount, s.blockExists h = true := by
    intro h hh
    obtain ⟨hrow, hall⟩ := (mem_takeWhile_iff (pairwise_rowsFrom s minHash)).mp (mem_of_mem_upTo hh)
    exact (Bool.and_eq_true_iff.mp (hall h hrow (le_refl h))).2
  refine ⟨_, _, respond_list minHash maxHash maxCount, respond_checksum minHash maxHash maxCount,
    ?_⟩
  rw [← walkHashes_eq_iff]
  constructor
  · rintro ⟨hlist, -⟩
    have hblocks := flatten_serializeBlock_inj hlist
    rw [← hv.refines.map_hash_filterMap hwalked, hblocks, hv.refines.map_hash_filterMap hstored]
  · intro heq
    rw [heq]
    refine ⟨rfl, ?_⟩
    rw [hv.refines.map_hash_filterMap hstored]

/-- The answer to a request for all blocks of the ledger with the genesis block alone:
there is no block in it. -/
theorem range_pull_genesis_missing :
    respond Sample.env Sample.first .listBlocks 0 (BitVec.allOnes 256) 0 = .ok [1] ∧
    Sample.first.rangeHashes 0 (BitVec.allOnes 256) 0 = [Sample.genesisHash] := by
  decide +kernel

/-- A tower of 33 blocks is built and its last block is rolled back. The state block at position
32 is stored and has a row, and a range pull returns it. -/
theorem range_pull_iff_row : ∃ s s', Ledger.Reachable Tower.env (Tower.blocks .still) s ∧
    Ledger.rollback Tower.env 0 s (Tower.hash 32) = .ok s' ∧
    s'.rangeHashes (Tower.hash 31) (Tower.hash 32) 0 = [Tower.hash 31] ∧
    respond Tower.env s' .listBlocks (Tower.hash 31) (Tower.hash 32) 0 =
      .ok (serializeBlock (Tower.block .still 31) ++ [1]) ∧
    respond Tower.env s' .checksumBlocks (Tower.hash 31) (Tower.hash 32) 0 =
      .ok (1 :: bigEndian 32 (Tower.hash 31).toNat ++ [1]) := by
  obtain ⟨s₀, Λ₀, hinit, h₀⟩ := Tower.first_built .still
  obtain ⟨s, Λ, -, hb⟩ := Tower.run_build h₀ 32 (by decide)
  obtain ⟨s', hrollback, hs', hblock, hrow⟩ := hb.rollback (by decide)
  have hrange := s'.rangeHashes_single (Tower.hash 31) (Tower.hash 32) (by decide)
    (blockExists_iff.mpr ⟨_, hblock⟩)
  obtain ⟨listed, checksum, hlist, hchecksum, hiff⟩ :=
    range_pull_iff (Tower.assumptions .still) hs' (Tower.hash 31) (Tower.hash 32) 0
  obtain ⟨rfl, rfl⟩ := hiff.mpr fun h hh => by
    rw [hrange] at hh
    obtain rfl := List.mem_singleton.mp hh
    exact ⟨hrow (by decide), fun h' hmin hlt => absurd hlt (not_lt.mpr hmin)⟩
  refine ⟨s, s', hb.reachable, hrollback, hrange, ?_, ?_⟩
  · rw [hlist, hrange]
    simp [hblock]
  · rw [hchecksum, hrange]
    simp

end RaiBlocks
