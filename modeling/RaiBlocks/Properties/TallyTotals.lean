import RaiBlocks.Lib.HashInput
import RaiBlocks.Votes.Election

/-!
# What the tally counts

`ledger::tally` adds up the weights in a map from blocks to totals and turns that
into a map from totals to blocks. The keys of the first map are compared with
`block::operator==`, so copies of a block with different signatures are counted
apart. The keys of the second are the totals, so of several blocks with one total
only the last is kept, and which one that is depends on the order of iteration.

Counting is by hash, in every order of iteration and for every choice of copies,
only for votes in which neither can happen. The theorem says which ones these are.
-/

namespace RaiBlocks

open Foundation Ledger Tied Votes

namespace Votes

/-- Who votes for which hash. -/
def ballots (p : Env) (votes : Votes) : List (Account × BlockHash) :=
  votes.repVotes.map fun i => (i.1, i.2.hash p)

/-- The total weight of the accounts that vote for a block with the hash. -/
def totalAt (p : Env) (weight : Account → Uint128) (votes : Votes) (h : BlockHash) : ℕ :=
  ((votes.ballots p).map fun i => if i.2 = h then (weight i.1).toNat else 0).sum

/-- Somebody votes for a block with the hash. -/
def Voted (p : Env) (votes : Votes) (h : BlockHash) : Prop := ∃ a, (a, h) ∈ votes.ballots p

/-- A hash with weight has one voter only, and no two hashes have the same total. -/
structure Separate (p : Env) (w : Weights) (votes : Votes) : Prop where
  sole : ∀ {a a' h}, (a, h) ∈ votes.ballots p → (a', h) ∈ votes.ballots p →
    votes.totalAt p w.of h ≠ 0 → a = a'
  apart : ∀ {h h'}, votes.Voted p h → votes.Voted p h' →
    votes.totalAt p w.of h = votes.totalAt p w.of h' → h = h'

end Votes

/-- The keys under which a tally has a block with the hash. -/
def keysAt (p : Env) (tally : List (Uint128 × Block)) (h : BlockHash) : List ℕ :=
  (tally.filter fun i => i.2.hash p = h).map fun i => i.1.toNat

/-! ## Ballots -/

section Ballots

variable {p : Env} {w : Weights} {votes : Votes} {a a' : Account} {b c : Block} {h : BlockHash}

theorem Votes.mem_ballots (hb : (a, b) ∈ votes.repVotes) : (a, b.hash p) ∈ votes.ballots p :=
  List.mem_map_of_mem hb

theorem Votes.vote_unique (hb : (a, b) ∈ votes.repVotes) (hc : (a, c) ∈ votes.repVotes) : b = c :=
  congrArg Prod.snd (List.inj_on_of_nodup_map votes.nodup hb hc rfl)

/-- Replacing a vote by a copy changes nobody's ballot. -/
theorem Votes.ballots_replace (hb : (a, b) ∈ votes.repVotes) (hhash : c.hash p = b.hash p) :
    (votes.replace a c).ballots p = votes.ballots p := by
  unfold ballots replace
  rw [List.map_map]
  apply List.map_congr_left
  rintro ⟨a', b'⟩ hb'
  simp only [Function.comp]
  split_ifs with ha
  · subst ha
    rw [votes.vote_unique hb' hb, hhash]
  · rfl

theorem Votes.total_le_totalAt (weight : Account → Uint128) (votes : Votes) (b : Block) :
    votes.total weight b ≤ votes.totalAt p weight (b.hash p) := by
  unfold total totalOf totalAt ballots
  rw [List.map_map]
  apply List.sum_le_sum
  intro i _
  simp only [Function.comp]
  split_ifs with hb hhash
  · exact le_rfl
  · exact absurd (congrArg (Block.hash p) hb) hhash
  · exact Nat.zero_le _
  · exact le_rfl

/-- Two voters of a hash do not both have all of its weight. -/
theorem Votes.exists_lighter (ha : (a, h) ∈ votes.ballots p) (ha' : (a', h) ∈ votes.ballots p)
    (hne : a ≠ a') (h0 : votes.totalAt p w.of h ≠ 0) :
    ∃ x, (x, h) ∈ votes.ballots p ∧ (w.of x).toNat < votes.totalAt p w.of h := by
  by_contra hall
  push Not at hall
  have hsum : (w.of a).toNat + (w.of a').toNat ≤ votes.totalAt p w.of h := by
    obtain ⟨l, hl⟩ := List.mem_iff_append.mp ha
    obtain ⟨r, hsplit⟩ := hl
    have hrest : (a', h) ∈ l ++ r := by
      rw [hsplit] at ha'
      simp only [List.mem_append, List.mem_cons, Prod.mk.injEq, hne.symm, false_and,
        false_or] at ha' ⊢
      exact ha'
    have hle := List.le_sum_of_mem (List.mem_map_of_mem (f := fun i : Account × BlockHash =>
      if i.2 = h then (w.of i.1).toNat else 0) hrest)
    unfold totalAt
    rw [hsplit]
    simp only [if_pos, List.map_append, List.sum_append, List.map_cons, List.sum_cons] at hle ⊢
    omega
  have h1 := hall a ha
  have h2 := hall a' ha'
  omega

/-- The blocks of a hash with weight, when it has one voter. -/
theorem Votes.Separate.total_eq (hs : votes.Separate p w) (hb : votes.Candidate b) :
    votes.total w.of b = votes.totalAt p w.of (b.hash p) := by
  obtain ⟨a, ha⟩ := hb
  by_cases h0 : votes.totalAt p w.of (b.hash p) = 0
  · have hle := votes.total_le_totalAt (p := p) w.of b
    omega
  · unfold total totalOf totalAt ballots
    rw [List.map_map]
    congr 1
    apply List.map_congr_left
    rintro ⟨x, c⟩ hc
    simp only [Function.comp]
    have hiff : c = b ↔ c.hash p = b.hash p := by
      constructor
      · exact congrArg _
      · intro hhash
        have hx : (x, b.hash p) ∈ votes.ballots p := hhash ▸ mem_ballots hc
        obtain rfl := hs.sole hx (mem_ballots ha) h0
        exact votes.vote_unique hc ha
    simp only [hiff]

end Ballots

/-! ## Counting by hash -/

section Counting

variable {p : Env} {w : Weights} {votes : Votes} {order : Iteration} {h : BlockHash}

theorem Votes.Separate.keysAt_eq (hs : votes.Separate p w) (hh : votes.Voted p h) :
    keysAt p (tally w.of order votes) h = [votes.totalAt p w.of h] := by
  have hentry : ∀ k c, (k, c) ∈ tally w.of order votes →
      k.toNat = votes.totalAt p w.of (c.hash p) := by
    intro k c hc
    rw [toNat_key hc, hs.total_eq (mem_tally hc).1]
  -- All keys are the total of the hash, and keys do not repeat.
  have hall : ∀ n ∈ keysAt p (tally w.of order votes) h, n = votes.totalAt p w.of h := by
    intro n hn
    obtain ⟨⟨k, c⟩, hc, rfl⟩ := List.mem_map.mp hn
    obtain ⟨hc, hhash⟩ := List.mem_filter.mp hc
    rw [← of_decide_eq_true hhash]
    exact hentry k c hc
  have hnodup : (keysAt p (tally w.of order votes) h).Nodup :=
    keys_nodup.sublist (List.filter_sublist.map _)
  -- The total is a key, and the block under it has the hash.
  have hmem : votes.totalAt p w.of h ∈ keysAt p (tally w.of order votes) h := by
    obtain ⟨a, ha⟩ := hh
    obtain ⟨⟨a', b⟩, hb, heq⟩ := List.mem_map.mp ha
    obtain ⟨rfl, rfl⟩ := Prod.mk.inj heq
    obtain ⟨c, hc⟩ : ∃ c, (BitVec.ofNat 128 (votes.total w.of b), c) ∈ tally w.of order votes :=
      Descending.key_ofList.mpr ⟨b, mem_totals ⟨a', hb⟩⟩
    have hkey := hentry _ c hc
    rw [BitVec.toNat_ofNat, Nat.mod_eq_of_lt (votes.total_lt w b), hs.total_eq ⟨a', hb⟩] at hkey
    obtain ⟨x, hx⟩ := (mem_tally hc).1
    have hhash : b.hash p = c.hash p := hs.apart ⟨a', ha⟩ ⟨x, mem_ballots hx⟩ hkey
    refine List.mem_map.mpr ⟨_, List.mem_filter.mpr ⟨hc, decide_eq_true hhash.symm⟩, ?_⟩
    rw [hentry _ c hc, hhash]
  rw [List.eq_replicate_iff.mpr ⟨rfl, hall⟩] at hnodup hmem ⊢
  have hone : (keysAt p (tally w.of order votes) h).length = 1 := by
    have hle := List.nodup_replicate.mp hnodup
    have hpos : (keysAt p (tally w.of order votes) h).length ≠ 0 := by
      intro h0
      rw [h0] at hmem
      cases hmem
    omega
  rw [hone]
  rfl

theorem not_voted_keysAt (hh : ¬ votes.Voted p h) :
    keysAt p (tally w.of order votes) h = [] := by
  unfold keysAt
  rw [List.map_eq_nil_iff, List.filter_eq_nil_iff]
  rintro ⟨k, c⟩ hc hhash
  obtain ⟨a, ha⟩ := (mem_tally hc).1
  exact hh ⟨a, of_decide_eq_true hhash ▸ mem_ballots ha⟩

theorem Votes.sum_totalAt (p : Env) (weight : Account → Uint128) (votes : Votes) :
    (((votes.ballots p).map Prod.snd).dedup.map (votes.totalAt p weight)).sum =
      votes.voted weight := by
  have hl : ∀ i ∈ votes.ballots p, i.2 ∈ ((votes.ballots p).map Prod.snd).dedup :=
    fun i hi => List.mem_dedup.mpr (List.mem_map_of_mem hi)
  have hsum := sum_fiberwise Prod.snd (fun i => (weight i.1).toNat) (List.nodup_dedup _) hl
  refine hsum.trans ?_
  unfold ballots voted
  rw [List.map_map]
  rfl

theorem Votes.Separate.sum_keys (hs : votes.Separate p w) :
    ((tally w.of order votes).map fun i => i.1.toNat).sum = votes.voted w.of := by
  have hl : ∀ i ∈ tally w.of order votes,
      i.2.hash p ∈ ((votes.ballots p).map Prod.snd).dedup := by
    rintro ⟨k, c⟩ hc
    obtain ⟨a, ha⟩ := (mem_tally hc).1
    exact List.mem_dedup.mpr (List.mem_map_of_mem (mem_ballots ha))
  rw [← votes.sum_totalAt p w.of, ← sum_fiberwise (fun i => i.2.hash p) _ (List.nodup_dedup _) hl]
  congr 1
  apply List.map_congr_left
  intro h hh
  obtain ⟨⟨a, h'⟩, ha, rfl⟩ := List.mem_map.mp (List.mem_dedup.mp hh)
  have hkeys : keysAt p (tally w.of order votes) h' = _ := hs.keysAt_eq ⟨a, ha⟩
  rw [← List.sum_singleton (x := votes.totalAt p w.of h'), ← hkeys]
  unfold keysAt
  generalize tally w.of order votes = m
  clear hl hs hkeys
  induction m with
  | nil => rfl
  | cons i m ih =>
    rw [List.map_cons, List.sum_cons, ih, List.filter_cons]
    split_ifs with h1 h2 h2
    · simp
    · exact absurd (decide_eq_true h1) h2
    · exact absurd (of_decide_eq_true h2) h1
    · simp

end Counting

/-! ## A copy that is counted apart -/

/-- The block with another signature. -/
def Block.resigned (b : Block) (signature : Signature) : Block :=
  match b with
  | .sendBlock b => .sendBlock { b with signature }
  | .receiveBlock b => .receiveBlock { b with signature }
  | .openBlock b => .openBlock { b with signature }
  | .changeBlock b => .changeBlock { b with signature }
  | .stateBlock b => .stateBlock { b with signature }

theorem Block.blockSignature_resigned (b : Block) (signature : Signature) :
    (b.resigned signature).blockSignature = signature := by
  cases b <;> rfl

theorem Block.sameOperation_resigned (b : Block) (signature : Signature) :
    SameOperation b (b.resigned signature) := by
  cases b <;> rfl

theorem SameOperation.hash_eq {p : Env} {b c : Block} (h : SameOperation b c) :
    c.hash p = b.hash p :=
  congrArg p.blake2b (hashInput_eq_iff.mpr (Or.inl h)).symm

section Copies

variable {p : Env} {w : Weights} {votes : Votes} {a : Account} {b c : Block}

theorem Votes.length_le (votes : Votes) : votes.repVotes.length ≤ 2 ^ 256 := by
  have hnodup : ((votes.repVotes.map Prod.fst).map BitVec.toNat).Nodup :=
    votes.nodup.map fun _ _ => BitVec.eq_of_toNat_eq
  have hsub : (votes.repVotes.map Prod.fst).map BitVec.toNat ⊆ List.range (2 ^ 256) := by
    intro n hn
    obtain ⟨x, -, rfl⟩ := List.mem_map.mp hn
    exact List.mem_range.mpr x.isLt
  have hle := (hnodup.subperm hsub).length_le
  rwa [List.length_range, List.length_map, List.length_map] at hle

/-- There are more signatures than accounts, so some copy has no vote. -/
theorem Votes.exists_copy (votes : Votes) (b : Block) :
    ∃ c, SameOperation b c ∧ ¬ votes.Candidate c := by
  by_contra hall
  push Not at hall
  have hcand : ∀ signature, votes.Candidate (b.resigned signature) :=
    fun signature => hall _ (b.sameOperation_resigned signature)
  let copies := (List.range (votes.repVotes.length + 1)).map fun n =>
    b.resigned (BitVec.ofNat 512 n)
  have hnodup : copies.Nodup := by
    apply List.Nodup.map_on _ List.nodup_range
    intro m hm n hn heq
    have hlt := votes.length_le
    have hsig := congrArg (fun c => c.blockSignature.toNat) heq
    simp only [Block.blockSignature_resigned, BitVec.toNat_ofNat] at hsig
    have hm' := List.mem_range.mp hm
    have hn' := List.mem_range.mp hn
    rwa [Nat.mod_eq_of_lt (by omega), Nat.mod_eq_of_lt (by omega)] at hsig
  have hsub : copies ⊆ votes.repVotes.map Prod.snd := by
    intro c hc
    obtain ⟨n, -, rfl⟩ := List.mem_map.mp hc
    obtain ⟨x, hx⟩ := hcand (BitVec.ofNat 512 n)
    exact List.mem_map_of_mem hx
  have hle := (hnodup.subperm hsub).length_le
  simp only [copies, List.length_map, List.length_range] at hle
  omega

/-- An order of iteration in which the total of `c` comes last. -/
def Iteration.last (c : Block) : Iteration where
  repVotes := id
  totals l := l.filter (fun i => i.1 ≠ c) ++ l.filter fun i => ¬ i.1 ≠ c
  repVotes_perm := Iteration.plain.repVotes_perm
  totals_perm l := by
    have hperm := List.filter_append_perm (fun i : Block × Uint128 => decide (i.1 ≠ c)) l
    simpa only [Bool.not_eq_true, decide_not, Bool.decide_eq_true] using hperm

theorem mem_tally_last (hc : votes.Candidate c) :
    (BitVec.ofNat 128 (votes.total w.of c), c) ∈ tally w.of (.last c) votes := by
  have ht : TotalsOf w.of _ (totals w.of (.last c) votes) := totals_spec
  have hmem : _ ∈ (Iteration.last c).totals (totals w.of (.last c) votes) := mem_totals hc
  rw [(Iteration.totals_perm _ _).mem_iff] at hmem
  have hone : (totals w.of (.last c) votes).filter (fun i => ¬ i.1 ≠ c) =
      [(c, BitVec.ofNat 128 (votes.total w.of c))] := by
    apply List.perm_singleton.mp
    rw [List.perm_ext_iff_of_nodup (ht.nodup.of_map _ |>.filter _) (List.nodup_singleton _)]
    rintro ⟨d, k⟩
    rw [List.mem_filter, List.mem_singleton]
    constructor
    · rintro ⟨hd, heq⟩
      obtain rfl : d = c := by simpa using heq
      rw [ht.exact d k hd]
      rfl
    · intro heq
      obtain ⟨rfl, rfl⟩ := Prod.mk.inj heq
      exact ⟨hmem, by simp⟩
  unfold tally
  rw [show (Iteration.last c).totals (totals w.of (.last c) votes) = _ ++ _ from rfl, hone]
  exact Descending.mem_ofList_append

/-- After the replacement the copy has the votes of one account. -/
theorem Votes.total_replace (hb : (a, b) ∈ votes.repVotes) (hc : ¬ votes.Candidate c) :
    (votes.replace a c).Candidate c ∧
      (votes.replace a c).total w.of c = (w.of a).toNat := by
  have hmem : (a, c) ∈ (votes.replace a c).repVotes :=
    List.mem_map.mpr ⟨_, hb, if_pos rfl⟩
  refine ⟨⟨a, hmem⟩, ?_⟩
  have hterm : ∀ i ∈ votes.repVotes,
      (if (if i.1 = a then (a, c) else i).2 = c then
        (w.of (if i.1 = a then (a, c) else i).1).toNat else 0) =
      if i.1 = a then (w.of a).toNat else 0 := by
    intro i hi
    split_ifs with h1 h2
    · rfl
    · exact absurd rfl h2
    · exact absurd ⟨i.1, by rw [← ‹i.2 = c›]; exact hi⟩ hc
    · rfl
  unfold total totalOf replace
  rw [List.map_map, Function.comp_def, List.map_congr_left hterm]
  have hkeys : (votes.repVotes.map fun i => if i.1 = a then (w.of a).toNat else 0) =
      (votes.repVotes.map Prod.fst).map fun x => if x = a then (w.of a).toNat else 0 := by
    rw [List.map_map]
    rfl
  rw [hkeys, ← List.sum_toFinset _ votes.nodup, Finset.sum_ite_eq', if_pos]
  exact List.mem_toFinset.mpr (List.mem_map_of_mem hb)

end Copies

/-! ## When the tally counts by hash -/

/-- The tally has each voted hash once, under the weight of all that vote for it. -/
def CountsByHash (p : Env) (w : Weights) (order : Iteration) (votes : Votes) : Prop :=
  ∀ h, votes.Voted p h → keysAt p (tally w.of order votes) h = [votes.totalAt p w.of h]

section Main

variable {p : Env} {w : Weights} {votes : Votes}

theorem CountsByHash.apart {order : Iteration} (hc : CountsByHash p w order votes)
    {h h' : BlockHash} (hh : votes.Voted p h) (hh' : votes.Voted p h')
    (heq : votes.totalAt p w.of h = votes.totalAt p w.of h') : h = h' := by
  have hmem : ∀ x, votes.Voted p x → ∃ k b, (k, b) ∈ tally w.of order votes ∧
      b.hash p = x ∧ k.toNat = votes.totalAt p w.of x := by
    intro x hx
    have hx' : votes.totalAt p w.of x ∈ keysAt p (tally w.of order votes) x := by
      rw [hc x hx]
      exact List.mem_singleton_self _
    obtain ⟨⟨k, b⟩, hkb, hk⟩ := List.mem_map.mp hx'
    obtain ⟨hkb, hb⟩ := List.mem_filter.mp hkb
    exact ⟨k, b, hkb, of_decide_eq_true hb, hk⟩
  obtain ⟨k, b, hkb, rfl, hk⟩ := hmem h hh
  obtain ⟨k', b', hkb', rfl, hk'⟩ := hmem h' hh'
  have hkk : k = k' := BitVec.eq_of_toNat_eq (by rw [hk, hk', heq])
  subst hkk
  have hentry := List.inj_on_of_nodup_map keys_nodup hkb hkb' rfl
  rw [(Prod.mk.inj hentry).2]

/-- **When the tally counts by hash.** In every order of iteration each voted
hash has exactly one entry, under the weight of all that vote for it, the keys
add up to all that vote, and a copy of a block with another signature or work in
place of a vote's block changes no total: this holds exactly if every hash with
weight has a single voter and no two voted hashes have the same weight. -/
theorem tally_by_hash_iff (p : Env) (w : Weights) (votes : Votes) :
    (∀ order, CountsByHash p w order votes ∧
      ((tally w.of order votes).map fun i => i.1.toNat).sum = votes.voted w.of ∧
      ∀ order' a b c, (a, b) ∈ votes.repVotes → SameOperation b c → ∀ h,
        keysAt p (tally w.of order' (votes.replace a c)) h = keysAt p (tally w.of order votes) h) ↔
    votes.Separate p w := by
  constructor
  · intro hall
    refine ⟨fun {a a' h} ha ha' h0 => ?_, fun hh hh' => (hall .plain).1.apart hh hh'⟩
    by_contra hne
    -- The lighter of the voters is given a copy of its own, which comes last.
    obtain ⟨x, hx, hlt⟩ := exists_lighter ha ha' hne h0
    obtain ⟨⟨x', b⟩, hb, heq⟩ := List.mem_map.mp hx
    obtain ⟨rfl, rfl⟩ := Prod.mk.inj heq
    obtain ⟨c, hsame, hcopy⟩ := votes.exists_copy b
    obtain ⟨hcand, htotal⟩ := total_replace (w := w) hb hcopy
    have hlast := mem_tally_last (w := w) hcand
    have hkey : (w.of x').toNat ∈
        keysAt p (tally w.of (.last c) (votes.replace x' c)) (b.hash p) := by
      refine List.mem_map.mpr ⟨_, List.mem_filter.mpr ⟨hlast, decide_eq_true hsame.hash_eq⟩, ?_⟩
      rw [toNat_key hlast, htotal]
    rw [(hall .plain).2.2 (.last c) x' b c hb hsame, (hall .plain).1 _ ⟨x', hx⟩,
      List.mem_singleton] at hkey
    exact hlt.ne hkey
  · intro hs order
    refine ⟨fun h hh => hs.keysAt_eq hh, hs.sum_keys, ?_⟩
    intro order' a b c hb hsame h
    have hballots := ballots_replace hb (hsame.hash_eq (p := p))
    have hs' : (votes.replace a c).Separate p w := by
      constructor
      · unfold totalAt
        rw [hballots]
        exact hs.sole
      · unfold totalAt Voted
        rw [hballots]
        exact hs.apart
    have hvoted : (votes.replace a c).Voted p h ↔ votes.Voted p h := by
      unfold Voted
      rw [hballots]
    by_cases hh : votes.Voted p h
    · rw [hs'.keysAt_eq (hvoted.mpr hh), hs.keysAt_eq hh]
      unfold totalAt
      rw [hballots]
    · rw [not_voted_keysAt hh, not_voted_keysAt fun h' => hh (hvoted.mp h')]

end Main

namespace Tied

/-- A hash that tells the two blocks apart by their representatives. -/
def env : Env :=
  ⟨fun bytes => BitVec.ofNat 256 (bytes.foldl (fun n byte => n * 256 + byte.toNat) 0),
    fun _ _ _ => false, .raiLiveNetwork, false⟩

/-- Both representatives vote for the first block, one with 600 and one with 400. -/
def together : Votes :=
  ((((start 1 (block 7)).vote ⟨1, block 7, 7, 0⟩).1).vote ⟨1, block 7, 8, 0⟩).1

def uneven : Weights := .pair 7 8 600 400 (by decide)

end Tied

/-- Two hashes with 600 each have one entry between them, and one hash with 1000
has entries of 600 and 400 once the second representative votes for a copy with
another signature. -/
theorem tally_not_by_hash :
    keysAt env (tally weights.of .plain votes)
      ((block 8).hash env) = [] ∧ votes.totalAt env weights.of ((block 8).hash env) = 600 ∧
    ((tally weights.of .plain votes).map fun i => i.1.toNat).sum = 600 ∧
    votes.voted weights.of = 1200 ∧
    keysAt env (tally uneven.of .plain together)
      ((block 7).hash env) = [1000] ∧
    keysAt env (tally uneven.of .plain
      (together.replace 8 ((block 7).resigned 1)))
      ((block 7).hash env) = [600, 400] := by
  decide +kernel

end RaiBlocks
