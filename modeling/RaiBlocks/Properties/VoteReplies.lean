import RaiBlocks.Votes.VoteProcessor

/-!
# Vote replies die out

A node replies to a vote if it knows one that is more than 10000 ahead. The test
adds 10000 to the sequence number of the vote in 64 bits. Below 2^64 - 10000 it
is exact, each reply is more than 10000 ahead of the one before, and a third
reply is never sent. Above, the sum wraps and every vote is answered, with itself
if nothing higher is known; two such nodes answer each other forever.
-/

namespace RaiBlocks

open Vote

/-- Adding 10000 to the sequence number does not wrap. -/
def Vote.Fits (v : Vote) : Prop := v.sequence.toNat + 10000 < 2 ^ 64

instance (v : Vote) : Decidable v.Fits := inferInstanceAs (Decidable (_ < _))

/-- The reply is more than 10000 ahead, in exact arithmetic. -/
def Vote.FarAhead (v r : Vote) : Prop := v.sequence.toNat + 10000 < r.sequence.toNat

namespace Peer

variable {p : Env} {active : Bool} {n : Peer} {v r : Vote}

/-- The node has a vote of the account that is more than 10000 ahead. -/
def Knows (n : Peer) (v r : Vote) : Prop := n.current v.account = some r ∧ FarAhead v r

theorem Knows.account (h : n.Knows v r) : r.account = v.account := voteCurrent_account h.1

theorem processVote_eq (hv : v.validate p = false) :
    (n.processVote p active v).1.current v.account = some (higherVote (n.current v.account) v) ∧
    (n.processVote p active v).2.2 =
      if (v.sequence.toNat + 10000) % 2 ^ 64 <
          (higherVote (n.current v.account) v).sequence.toNat then
        some (higherVote (n.current v.account) v)
      else none := by
  have hacc := voteMax_account n.cache n.vote v
  have hmax : (voteMax n.cache n.vote v).1 = higherVote (n.current v.account) v := rfl
  have hcache : (voteMax n.cache n.vote v).2 = n.cache.put (voteMax n.cache n.vote v).1 := rfl
  simp only [processVote, hv, Bool.false_eq_true, if_false, current, voteCurrent]
  constructor
  · rw [hcache, VoteTable.get_put, if_pos hacc.symm, Option.some_or]
    rfl
  · rw [hmax]
    simp only [gt_iff_lt, BitVec.lt_def, BitVec.toNat_add]
    rfl

theorem reply_of_invalid (hv : v.validate p = true) : (n.processVote p active v).2.2 = none := by
  simp [processVote, hv]

theorem reply_of_not_fits (hv : v.validate p = false) (hfits : ¬ v.Fits) :
    (n.processVote p active v).2.2 = some (higherVote (n.current v.account) v) := by
  have hle := le_higherVote (n.current v.account) v
  have hlt := v.sequence.isLt
  unfold Fits at hfits
  have hmod : (v.sequence.toNat + 10000) % 2 ^ 64 = v.sequence.toNat + 10000 - 2 ^ 64 := by
    rw [Nat.mod_eq_sub_mod (by omega)]
    exact Nat.mod_eq_of_lt (by omega)
  rw [(processVote_eq hv).2, if_pos]
  omega

/-- A vote that fits is answered exactly with a known vote that is ahead. -/
theorem reply_of_fits (hv : v.validate p = false) (hfits : v.Fits) :
    (n.processVote p active v).2.2 = some r ↔ n.Knows v r := by
  rw [(processVote_eq hv).2, Nat.mod_eq_of_lt hfits]
  unfold Knows FarAhead
  cases hcurrent : n.current v.account with
  | none => simp [higherVote]
  | some u =>
    rcases Nat.lt_or_ge v.sequence.toNat u.sequence.toNat with hlt | hle
    · rw [higherVote_of_lt hlt]
      constructor
      · intro h
        split_ifs at h with hahead
        obtain rfl := Option.some.inj h
        exact ⟨rfl, hahead⟩
      · rintro ⟨hu, hahead⟩
        obtain rfl := Option.some.inj hu
        exact if_pos hahead
    · rw [higherVote_of_le hle, if_neg (by omega)]
      simp only [reduceCtorEq, Option.some.injEq, false_iff, not_and]
      rintro rfl hahead
      omega

end Peer

section Replies

variable {p : Env} {active : ℕ → Bool} {here there : Peer} {v a b : Vote} {n : ℕ}

theorem replies_of_none (h : (here.processVote p (active n) v).2.2 = none) :
    replies p active (n + 1) here there v = [] := by
  rw [replies]
  generalize here.processVote p (active n) v = x at h ⊢
  obtain ⟨here', code, reply⟩ := x
  subst h
  rfl

theorem replies_of_some (h : (here.processVote p (active n) v).2.2 = some a) :
    replies p active (n + 1) here there v =
      (v, a) :: replies p active n there (here.processVote p (active n) v).1 a := by
  rw [replies]
  generalize here.processVote p (active n) v = x at h ⊢
  obtain ⟨here', code, reply⟩ := x
  subst h
  rfl

/-- The sequence numbers that can come up leave room for 10000 more: that of the
vote, that of the reply to it, and that of the reply to the reply. -/
def Settles (p : Env) (here there : Peer) (v : Vote) : Prop :=
  v.Fits ∧ ∀ a, here.Knows v a → a.validate p = false →
    a.Fits ∧ ∀ b, there.Knows a b → b.validate p = false → b.Fits

theorem fits_of_exact (hv : v.validate p = false)
    (hexact : ∀ i ∈ replies p active (n + 1) here there v, FarAhead i.1 i.2) : v.Fits := by
  by_contra hfits
  have hreply : (here.processVote p (active n) v).2.2 = _ := Peer.reply_of_not_fits hv hfits
  rw [replies_of_some hreply] at hexact
  have hahead : FarAhead v _ := hexact (v, _) List.mem_cons_self
  have hlt := (higherVote (here.current v.account) v).sequence.isLt
  unfold Fits at hfits
  unfold FarAhead at hahead
  omega

theorem replies_of_knows (hv : v.validate p = false) (hfits : v.Fits) (ha : here.Knows v a) :
    replies p active (n + 1) here there v =
      (v, a) :: replies p active n there (here.processVote p (active n) v).1 a :=
  replies_of_some ((Peer.reply_of_fits hv hfits).mpr ha)

theorem settles_of_exact (hv : v.validate p = false)
    (hexact : ∀ n, ∀ i ∈ replies p active n here there v, FarAhead i.1 i.2) :
    Settles p here there v := by
  have hfits := fits_of_exact hv (hexact 1)
  refine ⟨hfits, fun a ha hva => ?_⟩
  have hexact' : ∀ n, ∀ i ∈ replies p active n there (here.processVote p (active n) v).1 a,
      FarAhead i.1 i.2 := by
    intro n i hi
    have hmem := hexact (n + 1)
    rw [replies_of_knows hv hfits ha] at hmem
    exact hmem i (List.mem_cons_of_mem _ hi)
  have hfits' := fits_of_exact hva (hexact' 1)
  refine ⟨hfits', fun b hb hvb => ?_⟩
  have hmem := hexact' 2
  rw [replies_of_knows hva hfits' hb] at hmem
  exact fits_of_exact hvb fun i hi => hmem i (List.mem_cons_of_mem _ hi)

/-- A node that has just replied knows nothing ahead of a vote above its reply. -/
theorem replies_nil_of_higher (hv : v.validate p = false) (ha : here.Knows v a)
    (hab : FarAhead a b) (hacc : b.account = v.account)
    (hvb : b.validate p = false → b.Fits) (active' : Bool) :
    replies p active n (here.processVote p active' v).1 there b = [] := by
  cases n with
  | zero => rfl
  | succ n =>
    apply replies_of_none
    cases hb : b.validate p with
    | true => exact Peer.reply_of_invalid hb
    | false =>
      rw [Option.eq_none_iff_forall_ne_some]
      intro c hc
      obtain ⟨hcurrent, hahead⟩ := (Peer.reply_of_fits hb (hvb hb)).mp hc
      have hmax : higherVote (here.current v.account) v = a := by
        have hva := ha.2
        unfold FarAhead at hva
        rw [ha.1, higherVote_of_lt (by omega)]
      rw [hacc, (Peer.processVote_eq hv).1, hmax] at hcurrent
      obtain rfl := Option.some.inj hcurrent
      unfold FarAhead at hab hahead
      omega

theorem replies_of_settles (hv : v.validate p = false) (h : Settles p here there v) :
    ∀ n, (replies p active n here there v).length ≤ 2 ∧
      ∀ i ∈ replies p active n here there v, FarAhead i.1 i.2 := by
  obtain ⟨hfits, hnext⟩ := h
  intro n
  -- Three rounds at most; in each the node replies or the exchange ends.
  cases n with
  | zero => simp [replies]
  | succ n =>
    cases hreply : (here.processVote p (active n) v).2.2 with
    | none => simp [replies_of_none hreply]
    | some a =>
      have ha := (Peer.reply_of_fits hv hfits).mp hreply
      rw [replies_of_some hreply]
      cases n with
      | zero => simp [replies, ha.2]
      | succ n =>
        cases hva : a.validate p with
        | true =>
          rw [replies_of_none (Peer.reply_of_invalid hva)]
          simp [ha.2]
        | false =>
          obtain ⟨hafits, hlast⟩ := hnext a ha hva
          cases hreply' : (there.processVote p (active n) a).2.2 with
          | none => simp [replies_of_none hreply', ha.2]
          | some b =>
            have hb := (Peer.reply_of_fits hva hafits).mp hreply'
            rw [replies_of_some hreply',
              replies_nil_of_higher hv ha hb.2 (hb.account.trans ha.account) (hlast b hb)]
            simp [ha.2, hb.2]

/-- **Vote replies die out exactly where the sequence numbers fit.** For two nodes
with any votes, and any vote with a valid signature: only finitely many replies are
sent and each of them is more than 10000 ahead of what it answers, if and only if
the vote, the reply to it and the reply to that one are below 2^64 - 10000. -/
theorem replies_die_out_iff (p : Env) (active : ℕ → Bool) (here there : Peer) (v : Vote)
    (hv : v.validate p = false) :
    ((∃ N, ∀ n, (replies p active n here there v).length ≤ N) ∧
      ∀ n, ∀ i ∈ replies p active n here there v, FarAhead i.1 i.2) ↔
    Settles p here there v := by
  constructor
  · rintro ⟨-, hexact⟩
    exact settles_of_exact hv hexact
  · intro h
    refine ⟨⟨2, fun n => (replies_of_settles hv h n).1⟩, fun n => (replies_of_settles hv h n).2⟩

/-- Two nodes that know nothing higher answer a vote that does not fit forever. -/
theorem replies_forever (hv : v.validate p = false) (hfits : ¬ v.Fits) :
    ∀ (n : ℕ) (here there : Peer),
      higherVote (here.current v.account) v = v → higherVote (there.current v.account) v = v →
      (replies p active n here there v).length = n := by
  intro n
  induction n with
  | zero => exact fun _ _ _ _ => rfl
  | succ n ih =>
    intro here there hhere hthere
    have hreply : (here.processVote p (active n) v).2.2 = _ := Peer.reply_of_not_fits hv hfits
    have hafter : higherVote ((here.processVote p (active n) v).1.current v.account) v = v := by
      rw [(Peer.processVote_eq hv).1, hhere, higherVote_of_le le_rfl]
    rw [hhere] at hreply
    rw [replies_of_some hreply, List.length_cons, ih there _ hthere hafter]

end Replies

namespace Lone

def env : Env := ⟨fun _ => 0, fun _ _ _ => false, .raiTestNetwork, false⟩

def vote (sequence : Uint64) : Vote := ⟨sequence, .changeBlock ⟨⟨5, 7⟩, 0, 0⟩, 7, 0⟩

/-- A node that knows no votes. -/
def fresh : Peer := ⟨.empty, .empty⟩

/-- A node that knows a vote far ahead of the first. -/
def informed : Peer := ⟨.empty, VoteTable.empty.put (vote 20000)⟩

end Lone

/-- A representative that starts again at 1 is told of its vote 20000, and that
is all. -/
theorem replies_die_out_iff_informed :
    ((∃ N, ∀ n, (replies Lone.env (fun _ => false) n Lone.informed Lone.fresh
        (Lone.vote 1)).length ≤ N) ∧
      ∀ n, ∀ i ∈ replies Lone.env (fun _ => false) n Lone.informed Lone.fresh (Lone.vote 1),
        FarAhead i.1 i.2) ∧
    replies Lone.env (fun _ => false) 9 Lone.informed Lone.fresh (Lone.vote 1) =
      [(Lone.vote 1, Lone.vote 20000)] := by
  refine ⟨(replies_die_out_iff Lone.env _ Lone.informed Lone.fresh (Lone.vote 1) rfl).mpr ?_, ?_⟩
  · refine ⟨by decide, fun a ha _ => ?_⟩
    obtain rfl : Lone.vote 20000 = a := Option.some.inj ha.1
    refine ⟨by decide, fun b hb _ => ?_⟩
    have hnone : (none : Option Vote) = some b := hb.1
    cases hnone
  · decide +kernel

/-- The last sequence number is answered forever, by nodes that know nothing else. -/
theorem last_sequence_answered_forever : (Lone.vote (BitVec.allOnes 64)).validate Lone.env = false ∧
    ∀ n, (replies Lone.env (fun _ => false) n Lone.fresh Lone.fresh
      (Lone.vote (BitVec.allOnes 64))).length = n := by
  refine ⟨rfl, fun n => replies_forever rfl (by decide) n _ _ rfl rfl⟩

end RaiBlocks
