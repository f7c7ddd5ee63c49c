import RaiBlocks.Store.BlockStore
import RaiBlocks.Votes.Vote

/-!
# The highest vote of each account

Translation of `vote_current`, `vote_generate`, `vote_max` and of the votes'
part of `flush` (`rai/blockstore.cpp`). The highest votes live partly in
`vote_cache`, partly in the database table `vote`. A call reads the table
through a transaction, which sees the table as it was when the transaction
began; `flush` writes into a transaction, and what it writes is seen by
transactions that begin after that one has committed.

The calls run one after the other, since each holds `cache_mutex`. `VoteStore`
is what they share, together with the transactions that are open.
-/

namespace RaiBlocks

open Foundation

variable {v u : Vote}

/-! ## Tables of votes -/

/-- Votes, each under the account that cast it. -/
structure VoteTable where
  rows : Table Account Vote
  own : ∀ a v, rows.lookup a = some v → v.account = a

namespace VoteTable

def empty : VoteTable := ⟨∅, by simp⟩

def get (t : VoteTable) (a : Account) : Option Vote := t.rows.lookup a

def put (t : VoteTable) (v : Vote) : VoteTable where
  rows := t.rows.insert v.account v
  own a u h := by
    rw [Table.lookup_insert_ite] at h
    split_ifs at h with ha
    · rw [ha, Option.some.inj h]
    · exact t.own a u h

/-- The rows of `t` written over those of `u`. -/
def above (t u : VoteTable) : VoteTable where
  rows := t.rows ∪ u.rows
  own a v h := by
    by_cases ha : a ∈ t.rows
    · exact t.own a v (Finmap.lookup_union_left ha ▸ h)
    · exact u.own a v (Finmap.lookup_union_right ha ▸ h)

@[simp] theorem get_empty (a : Account) : empty.get a = none := rfl

theorem get_put (t : VoteTable) (v : Vote) (a : Account) :
    (t.put v).get a = if a = v.account then some v else t.get a :=
  Table.lookup_insert_ite _ _ _ _

@[simp] theorem get_above (t u : VoteTable) (a : Account) :
    (t.above u).get a = (t.get a).or (u.get a) := by
  by_cases ha : a ∈ t.rows
  · obtain ⟨v, hv⟩ := Finmap.mem_iff.mp ha
    simp only [get, above, Finmap.lookup_union_left ha, hv, Option.some_or]
  · have hnone : t.rows.lookup a = none := Finmap.lookup_eq_none.mpr ha
    simp only [get, above, Finmap.lookup_union_right ha, hnone, Option.none_or]

theorem account_of_get {t : VoteTable} {a : Account} {v : Vote} (h : t.get a = some v) :
    v.account = a :=
  t.own a v h

end VoteTable

/-! ## The calls -/

namespace Vote

/-- The constructor that signs; `sign` is `sign_message` with the key of `account`. -/
def make (p : Env) (sign : Uint256 → Signature) (account : Account) (sequence : Uint64)
    (block : Block) : Vote where
  sequence := sequence
  block := block
  account := account
  signature := sign (Vote.hash p ⟨sequence, block, account, 0⟩)

end Vote

/-- `vote_current`. -/
def voteCurrent (cache table : VoteTable) (a : Account) : Option Vote :=
  (cache.get a).or (table.get a)

/-- One more than the sequence number of the current vote, 1 without one. -/
def nextSequence (current : Option Vote) : Uint64 :=
  (match current with
    | some v => v.sequence
    | none => 0) + 1

/-- `vote_generate`: the vote, and the cache after it. -/
def voteGenerate (p : Env) (sign : Uint256 → Signature) (cache table : VoteTable) (a : Account)
    (b : Block) : Vote × VoteTable :=
  let v := Vote.make p sign a (nextSequence (voteCurrent cache table a)) b
  (v, cache.put v)

/-- The vote with the higher sequence number, the new one if they are equal. -/
def higherVote (current : Option Vote) (v : Vote) : Vote :=
  match current with
  | some u => if u.sequence > v.sequence then u else v
  | none => v

/-- `vote_max`. -/
def voteMax (cache table : VoteTable) (v : Vote) : Vote × VoteTable :=
  let result := higherVote (voteCurrent cache table v.account) v
  (result, cache.put result)

theorem voteCurrent_account {cache table : VoteTable} {a : Account}
    (h : voteCurrent cache table a = some v) : v.account = a := by
  rcases Option.or_eq_some_iff.mp h with h | ⟨-, h⟩
  · exact VoteTable.account_of_get h
  · exact VoteTable.account_of_get h

theorem higherVote_account {current : Option Vote}
    (h : ∀ u, current = some u → u.account = v.account) :
    (higherVote current v).account = v.account := by
  cases current with
  | none => rfl
  | some u =>
    rw [higherVote]
    split_ifs
    · exact h u rfl
    · rfl

theorem voteMax_account (cache table : VoteTable) (v : Vote) :
    (voteMax cache table v).1.account = v.account :=
  higherVote_account fun _ hu => voteCurrent_account hu

theorem higherVote_of_lt (h : v.sequence.toNat < u.sequence.toNat) : higherVote (some u) v = u :=
  if_pos (BitVec.lt_def.mpr h)

theorem higherVote_of_le (h : u.sequence.toNat ≤ v.sequence.toNat) : higherVote (some u) v = v :=
  if_neg (BitVec.not_lt.mpr (BitVec.le_def.mpr h))

theorem le_higherVote (current : Option Vote) (v : Vote) :
    v.sequence.toNat ≤ (higherVote current v).sequence.toNat := by
  cases current with
  | none => exact le_rfl
  | some u =>
    rcases Nat.lt_or_ge v.sequence.toNat u.sequence.toNat with hlt | hle
    · rw [higherVote_of_lt hlt]
      exact hlt.le
    · rw [higherVote_of_le hle]

theorem higherVote_ge {current : Option Vote} (h : current = some u) (v : Vote) :
    u.sequence.toNat ≤ (higherVote current v).sequence.toNat := by
  subst h
  rcases Nat.lt_or_ge v.sequence.toNat u.sequence.toNat with hlt | hle
  · rw [higherVote_of_lt hlt]
  · rw [higherVote_of_le hle]
    exact hle

/-! ## Transactions -/

inductive Txn where
  | read (n : ℕ)
  | write
deriving DecidableEq

structure VoteStore where
  cache : VoteTable
  /-- The table as last committed. -/
  vote : VoteTable
  /-- What the open read transactions see. -/
  readers : ℕ → Option VoteTable
  /-- What the write transaction sees, of which there is at most one. -/
  writer : Option VoteTable

inductive VoteAction where
  | beginRead (n : ℕ)
  | endRead (n : ℕ)
  | beginWrite
  | flush
  | commit
  | generate (t : Txn) (a : Account) (sign : Uint256 → Signature) (b : Block)
  | max (t : Txn) (v : Vote)
  | current (t : Txn) (a : Account)

/-- What callers see of an action. -/
inductive VoteEvent where
  | generated (v : Vote)
  | passed (v : Vote)
  | reported (a : Account) (r : Option Vote)
  | silent

namespace VoteStore

def view (s : VoteStore) : Txn → Option VoteTable
  | .read n => s.readers n
  | .write => s.writer

/-- One action of one of the threads; `none` if it cannot be taken. -/
def step (p : Env) (s : VoteStore) : VoteAction → Option (VoteStore × VoteEvent)
  | .beginRead n =>
    if (s.readers n).isNone then
      some ({ s with readers := Function.update s.readers n (some s.vote) }, .silent)
    else none
  | .endRead n => some ({ s with readers := Function.update s.readers n none }, .silent)
  | .beginWrite =>
    if s.writer.isNone then some ({ s with writer := some s.vote }, .silent) else none
  | .flush => do
    let table ← s.writer
    -- The cache is swapped out under the mutex, its rows go into the transaction.
    return ({ s with cache := .empty, writer := some (s.cache.above table) }, .silent)
  | .commit => do
    let table ← s.writer
    return ({ s with vote := table, writer := none }, .silent)
  | .generate t a sign b => do
    let (v, cache) := voteGenerate p sign s.cache (← s.view t) a b
    return ({ s with cache := cache }, .generated v)
  | .max t v => do
    let (_, cache) := voteMax s.cache (← s.view t) v
    return ({ s with cache := cache }, .passed v)
  | .current t a => do
    let r := voteCurrent s.cache (← s.view t) a
    return (s, .reported a r)

end VoteStore

/-- Runs all of whose actions satisfy `G`, with what has been seen, latest first. -/
inductive VoteRun (p : Env) (G : VoteStore → VoteAction → Prop) (s₀ : VoteStore) :
    List VoteEvent → VoteStore → Prop where
  | start : VoteRun p G s₀ [] s₀
  | step {h : List VoteEvent} {s s' : VoteStore} {e : VoteEvent} (hrun : VoteRun p G s₀ h s)
      (act : VoteAction) (hG : G s act) (hstep : s.step p act = some (s', e)) :
      VoteRun p G s₀ (e :: h) s'

end RaiBlocks
