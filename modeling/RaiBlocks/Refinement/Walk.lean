import RaiBlocks.Refinement.Refines

/-!
# The walks compute what the lattice says

`ledger::balance`, `amount` and `representative` recompute by walking what the
lattice has as data. They end within the bound the code's model gives them, do
not fail, and return the balance, amount and representative block of the entry.

The balance and amount walks need little: the blocks of the lattice are stored,
the rows of block info are right, and the genesis account is no block. More may
be stored. This is what lets them be used in the middle of a commit.
-/

namespace RaiBlocks

open Foundation BalanceVisitor RaiBlocks.Lattice BlockStore Entry

variable {m n f k : ℕ} {U : Set Block} {a : Account} {b : Block} {r : BlockHash}

/-! ## Balance arithmetic within range -/

theorem eq_ofNat_of_toNat {x : Uint128} (h : x.toNat = m) : x = BitVec.ofNat 128 m := by
  subst h
  simp

theorem toNat_ofNat_of_lt (h : m < 2 ^ 128) : (BitVec.ofNat 128 m).toNat = m :=
  Nat.mod_eq_of_lt h

theorem ofNat_lt_ofNat (hm : m < 2 ^ 128) (hn : n < 2 ^ 128) :
    BitVec.ofNat 128 m < BitVec.ofNat 128 n ↔ m < n := by
  rw [BitVec.lt_def, toNat_ofNat_of_lt hm, toNat_ofNat_of_lt hn]

theorem balanceAdd_ofNat (p : Env) (h : m + n < 2 ^ 128) :
    balanceAdd p (BitVec.ofNat 128 m) (BitVec.ofNat 128 n) = .ok (BitVec.ofNat 128 (m + n)) := by
  unfold balanceAdd
  rw [toNat_ofNat_of_lt (by omega), toNat_ofNat_of_lt (by omega), decide_eq_false (by omega),
    Bool.and_false, BitVec.ofNat_add]
  rfl

theorem balanceSub_ofNat (p : Env) (hm : m < 2 ^ 128) (h : n ≤ m) :
    balanceSub p (BitVec.ofNat 128 m) (BitVec.ofNat 128 n) = .ok (BitVec.ofNat 128 (m - n)) := by
  have hlt : ¬ BitVec.ofNat 128 m < BitVec.ofNat 128 n := by
    rw [ofNat_lt_ofNat hm (by omega)]
    omega
  have hsub : BitVec.ofNat 128 m - BitVec.ofNat 128 n = BitVec.ofNat 128 (m - n) := by
    refine eq_ofNat_of_toNat ?_
    rw [BitVec.toNat_sub_of_le (BitVec.not_lt.mp hlt), toNat_ofNat_of_lt hm,
      toNat_ofNat_of_lt (by omega)]
  unfold balanceSub
  rw [decide_eq_false hlt, Bool.and_false, hsub]
  rfl

/-- The distance of two balances, as the code takes it. -/
theorem balanceSub_distance (p : Env) (hm : m < 2 ^ 128) (hn : n < 2 ^ 128) {α : Type}
    (k : Uint128 → Except Fault α) :
    (if BitVec.ofNat 128 m < BitVec.ofNat 128 n
      then balanceSub p (BitVec.ofNat 128 n) (BitVec.ofNat 128 m) >>= k
      else balanceSub p (BitVec.ofNat 128 m) (BitVec.ofNat 128 n) >>= k) =
    k (BitVec.ofNat 128 (if m < n then n - m else m - n)) := by
  by_cases hlt : m < n
  · rw [if_pos ((ofNat_lt_ofNat hm hn).mpr hlt), if_pos hlt, balanceSub_ofNat p hn (by omega),
      ok_bind]
  · rw [if_neg (mt (ofNat_lt_ofNat hm hn).mp hlt), if_neg hlt, balanceSub_ofNat p hm (by omega),
      ok_bind]

variable {p : Env} {Λ : Lattice p} {s : BlockStore} {h x : BlockHash} {e q : Entry}

/-- Amounts fit in 128 bits, so the pending row shows them exactly. -/
theorem Lattice.toNat_pendingInfo (he : Λ.entry h = some e) :
    e.pendingInfo.amount.toNat = e.amount := by
  obtain ⟨_, hprior, hbal⟩ := Λ.sound he
  refine toNat_ofNat_of_lt ?_
  unfold amount
  split <;> omega

/-! ## Counting the entries below -/

namespace Lattice

/-- The number of entries of a rank below `r`. -/
noncomputable def below (Λ : Lattice p) (r : ℕ) : ℕ :=
  {x | ∃ e, Λ.entry x = some e ∧ e.rank < r}.ncard

theorem finite_below (Λ : Lattice p) (r : ℕ) :
    {x | ∃ e, Λ.entry x = some e ∧ e.rank < r}.Finite := by
  refine Λ.finite.subset ?_
  rintro x ⟨e, he, _⟩
  exact Option.isSome_iff_exists.mpr ⟨e, he⟩

theorem below_lt (hq : Λ.entry x = some q) {r : ℕ} (hr : q.rank < r) :
    Λ.below q.rank < Λ.below r := by
  refine Set.ncard_lt_ncard ⟨?_, ?_⟩ (Λ.finite_below r)
  · rintro y ⟨e, he, hlt⟩
    exact ⟨e, he, hlt.trans hr⟩
  · intro hsub
    obtain ⟨e, he, hlt⟩ := hsub ⟨q, hq, hr⟩
    obtain rfl := Option.some.inj (hq.symm.trans he)
    exact lt_irrefl _ hlt

end Lattice

/-! ## What the walks read -/

structure Readable (s : BlockStore) (Λ : Lattice p) : Prop where
  blockGet : ∀ {h e}, Λ.entry h = some e → s.blockGet h = some e.block
  genesisAccount : s.blockGet p.genesisAccount = none
  blockInfo : ∀ {h e i}, Λ.entry h = some e → e.block.isLegacy = true →
    s.blockInfoGet h = some i → i = e.blockInfo

theorem BlocksOk.readable (hb : BlocksOk s.blockDatabase Λ) (hi : BlocksInfoOk U s.blocksInfo Λ) :
    Readable s Λ where
  blockGet he := hb.blockGet_some he
  genesisAccount := by
    rw [hb.blockGet, show Λ.entry p.genesisAccount = none from Λ.owner_unstored Λ.genesis]
    rfl
  blockInfo he hl hrow := by
    have hrule := hi.legacy he hl
    rw [show s.blocksInfo.lookup _ = some _ from hrow] at hrule
    split at hrule
    · exact Option.some.inj hrule
    · cases hrule

theorem Readable.below_le (hr : Readable s Λ) (r : ℕ) : Λ.below r ≤ s.blockCount := by
  refine le_trans (Set.ncard_le_ncard ?_ (finite_blocks s))
    (ncard_blocks_le s)
  rintro x ⟨e, he, _⟩
  exact blockExists_iff.mpr ⟨_, hr.blockGet he⟩

theorem Readable.below_le_fuel (hr : Readable s Λ) (r : ℕ) : 2 * Λ.below r + 4 ≤ s.fuel := by
  have := hr.below_le r
  unfold fuel
  omega

/-! ## Blocks that name their balance -/

theorem Justified.balance?_eq {E : BlockHash → Option Entry} (hj : Justified p E h e)
    {x : Uint128} (hx : e.block.balance? = some x) : x = BitVec.ofNat 128 e.balance :=
  eq_ofNat_of_toNat (hj.balance?_toNat hx)

theorem Entry.balance?_of_sendsTo (hs : e.sendsTo = some a) : ∃ x, e.block.balance? = some x := by
  unfold sendsTo at hs
  cases hb : e.block with
  | sendBlock b => exact ⟨_, rfl⟩
  | stateBlock b => exact ⟨_, rfl⟩
  | _ =>
    rw [hb] at hs
    cases hs

theorem AmountVisitor.visit_of_balance? {x : Uint128} (hx : b.balance? = some x)
    (v : AmountVisitor) : v.visit p b = ⟨0, b.previous, x⟩ := by
  cases b with
  | sendBlock b =>
    obtain rfl := Option.some.inj hx
    rfl
  | stateBlock b =>
    obtain rfl := Option.some.inj hx
    rfl
  | _ => cases hx

/-! ## One iteration of each walk -/

/-- The loop of `amount_visitor`, with `f` left for the balances below. -/
abbrev amountLoop (p : Env) (s : BlockStore) (f : ℕ) (blockHash : BlockHash) :
    ℕ → AmountVisitor → Except Fault AmountVisitor :=
  whileLoop .outOfFuel AmountVisitor.running
    (AmountVisitor.step p s (balanceCompute p s f) blockHash)

/-- The loop of `balance_visitor`, with `f` left for the amounts of sources. -/
abbrev balanceLoop (p : Env) (s : BlockStore) (f : ℕ) :
    ℕ → BalanceVisitor → Except Fault BalanceVisitor :=
  whileLoop .outOfFuel running (step p s (amountCompute p s f))

theorem amountCompute_of_loop {v : AmountVisitor} (hv : amountLoop p s f h f ⟨h, 0, 0⟩ = .ok v) :
    amountCompute p s (f + 1) h = .ok v.amount := by
  rw [amountCompute]
  exact congrArg (· >>= fun v => Except.ok v.amount) hv

theorem balanceCompute_of_loop {v : BalanceVisitor} (hv : balanceLoop p s f f ⟨h, 0, 0⟩ = .ok v) :
    balanceCompute p s (f + 1) h = .ok v.balance := by
  rw [balanceCompute]
  exact congrArg (· >>= fun v => Except.ok v.balance) hv

theorem amountLoop_visit {v : AmountVisitor} (h0 : v.currentAmount ≠ 0)
    (hb : s.blockGet v.currentAmount = some b) :
    amountLoop p s f r (n + 1) v = amountLoop p s f r n (v.visit p b) := by
  refine whileLoop_step ?_ ?_ n
  · simp only [AmountVisitor.running, decide_eq_true h0, Bool.true_or]
  · unfold AmountVisitor.step
    rw [if_pos h0, hb]

theorem amountLoop_done (x : Uint128) : amountLoop p s f r n ⟨0, 0, x⟩ = .ok ⟨0, 0, x⟩ :=
  whileLoop_done rfl n

/-- The second phase: the distance to the balance below. -/
theorem amountLoop_balance {x : BlockHash} (h0 : x ≠ 0) (hm : m < 2 ^ 128) (hk : k < 2 ^ 128)
    (hx : balanceCompute p s f x = .ok (BitVec.ofNat 128 k)) :
    amountLoop p s f r (n + 1) ⟨0, x, BitVec.ofNat 128 m⟩ =
      .ok ⟨0, 0, BitVec.ofNat 128 (if m < k then k - m else m - k)⟩ := by
  rw [amountLoop, whileLoop_step (t := ⟨0, 0, BitVec.ofNat 128 (if m < k then k - m else m - k)⟩)]
  · exact amountLoop_done _
  · simp only [AmountVisitor.running, decide_eq_true h0, Bool.or_true]
  · unfold AmountVisitor.step
    rw [if_neg (not_not.mpr rfl), hx]
    exact balanceSub_distance p hm hk _

theorem balanceLoop_visit {y : Uint128} {v : BalanceVisitor} (h0 : x ≠ 0)
    (hb : s.blockGet x = some b) (hv : visit p s ⟨x, 0, y⟩ b = .ok v) :
    balanceLoop p s f (n + 1) ⟨x, 0, y⟩ = balanceLoop p s f n v := by
  refine whileLoop_step ?_ ?_ n
  · simp only [running, decide_eq_true h0, Bool.true_or]
  · unfold step
    rw [if_neg (not_not.mpr rfl), hb]
    exact hv

theorem balanceLoop_done (y : Uint128) : balanceLoop p s f n ⟨0, 0, y⟩ = .ok ⟨0, 0, y⟩ :=
  whileLoop_done rfl n

theorem balanceLoop_amount {y : BlockHash} (h0 : y ≠ 0) (hlt : m + k < 2 ^ 128)
    (hy : amountCompute p s f y = .ok (BitVec.ofNat 128 k)) :
    balanceLoop p s f (n + 1) ⟨x, y, BitVec.ofNat 128 m⟩ =
      balanceLoop p s f n ⟨x, 0, BitVec.ofNat 128 (m + k)⟩ := by
  refine whileLoop_step ?_ ?_ n
  · simp only [running, decide_eq_true h0, Bool.or_true]
  · unfold step
    rw [if_pos h0, hy]
    simp only [ok_bind]
    rw [balanceAdd_ofNat p hlt]
    rfl

/-! ## Amounts, given the balances below -/

/-- The balance walk is right at `h`, from any accumulated balance that leaves
room. The walk reaches a state block only with nothing accumulated. -/
def BalanceWalk (s : BlockStore) (Λ : Lattice p) (h : BlockHash) (e : Entry) : Prop :=
  ∀ f n k, 2 * Λ.below e.rank + 2 ≤ f → 2 * Λ.below e.rank + 2 ≤ n → k + e.balance < 2 ^ 128 →
    (k = 0 ∨ e.block.isLegacy = true) →
    balanceLoop p s f n ⟨h, 0, BitVec.ofNat 128 k⟩ = .ok ⟨0, 0, BitVec.ofNat 128 (k + e.balance)⟩

def AmountWalk (s : BlockStore) (Λ : Lattice p) (h : BlockHash) (e : Entry) : Prop :=
  ∀ f, 2 * Λ.below e.rank + 4 ≤ f → amountCompute p s f h = .ok (BitVec.ofNat 128 e.amount)

theorem BalanceWalk.balanceCompute (hw : BalanceWalk s Λ h e) (he : Λ.entry h = some e)
    (hf : 2 * Λ.below e.rank + 3 ≤ f) :
    balanceCompute p s f h = .ok (BitVec.ofNat 128 e.balance) := by
  obtain ⟨g, rfl⟩ : ∃ g, f = g + 1 := ⟨f - 1, by omega⟩
  have hloop := hw g g 0 (by omega) (by omega) (by rw [Nat.zero_add]; exact (Λ.sound he).2.2)
    (Or.inl rfl)
  rw [Nat.zero_add] at hloop
  exact balanceCompute_of_loop hloop

/-- From a block that names its balance, the amount walk ends after looking at
the balance below. -/
theorem amountLoop_of_balance? (hr : Readable s Λ) (he : Λ.entry h = some e) {x : Uint128}
    (hx : e.block.balance? = some x)
    (hbal : ∀ q, Λ.entry e.block.previous = some q →
      balanceCompute p s f e.block.previous = .ok (BitVec.ofNat 128 q.balance))
    (n : ℕ) (r : BlockHash) (z : Uint128) :
    amountLoop p s f r (n + 2) ⟨h, 0, z⟩ = .ok ⟨0, 0, BitVec.ofNat 128 e.amount⟩ := by
  rw [amountLoop_visit (Λ.ne_zero he) (hr.blockGet he), AmountVisitor.visit_of_balance? hx,
    (Λ.justified he).balance?_eq hx]
  rcases first_or_follows he with hf | ⟨q, hq, hfol⟩
  · rw [hf.previous, amountLoop_done]
    simp [amount, hf.prior]
  · rw [amountLoop_balance (Λ.ne_zero hq) (Λ.sound he).2.2 (Λ.sound hq).2.2 (hbal q hq)]
    simp only [amount, hfol.prior]

theorem amountCompute_genesisAccount (hr : Readable s Λ) (hf : 2 ≤ f) :
    amountCompute p s f p.genesisAccount = .ok (BitVec.ofNat 128 (2 ^ 128 - 1)) := by
  obtain ⟨g, rfl⟩ : ∃ g, f = g + 2 := ⟨f - 2, by omega⟩
  have hloop : amountLoop p s (g + 1) p.genesisAccount (g + 1) ⟨p.genesisAccount, 0, 0⟩ =
      .ok ⟨0, 0, genesisAmount⟩ := by
    rw [amountLoop, whileLoop_step (t := ⟨0, 0, genesisAmount⟩)]
    · exact amountLoop_done _
    · simp only [AmountVisitor.running, decide_eq_true (genesisAccount_ne_zero p), Bool.true_or]
    · unfold AmountVisitor.step
      rw [if_pos (genesisAccount_ne_zero p), hr.genesisAccount]
      exact if_pos rfl
  rw [amountCompute_of_loop hloop]
  rfl

theorem amountWalk_of_balances (hr : Readable s Λ) (he : Λ.entry h = some e)
    (ih : ∀ y q, Λ.entry y = some q → q.rank < e.rank → BalanceWalk s Λ y q) :
    AmountWalk s Λ h e := by
  intro f hf
  obtain ⟨n, rfl⟩ : ∃ n, f = n + 3 + 1 := ⟨f - 4, by omega⟩
  -- the walk settles at any block of at most this rank that names its balance
  have settle : ∀ {y : BlockHash} {a : Entry} {x : Uint128}, Λ.entry y = some a →
      a.rank ≤ e.rank → a.block.balance? = some x → ∀ m z,
      amountLoop p s (n + 3) h (m + 2) ⟨y, 0, z⟩ = .ok ⟨0, 0, BitVec.ofNat 128 a.amount⟩ := by
    intro y a x ha hle hx m z
    refine amountLoop_of_balance? hr ha hx (fun q hq => ?_) m h z
    have hlt : q.rank < a.rank := (dep_previous ha hq).rank_lt ha hq
    have hbelow := below_lt hq (hlt.trans_le hle)
    exact (ih _ q hq (by omega)).balanceCompute hq (by omega)
  have hget := hr.blockGet he
  have h0 := Λ.ne_zero he
  have hj := Λ.justified he
  cases hj with
  | genesis hh =>
    have hvisit : amountLoop p s (n + 3) h (n + 3) ⟨h, 0, 0⟩ = .ok ⟨0, 0, genesisAmount⟩ := by
      rw [amountLoop_visit h0 hget]
      exact (congrArg _ (if_neg (not_not.mpr rfl))).trans (amountLoop_done _)
    exact amountCompute_of_loop hvisit
  | change hq hl =>
    have hvisit : amountLoop p s (n + 3) h (n + 3) ⟨h, 0, 0⟩ = .ok ⟨0, 0, 0⟩ := by
      rw [amountLoop_visit h0 hget]
      exact amountLoop_done _
    rw [amountCompute_of_loop hvisit]
    simp [amount]
  | @receive b q src hq hl hs hd hlt =>
    obtain ⟨x, hx⟩ := balance?_of_sendsTo hd
    rw [amountCompute_of_loop (v := ⟨0, 0, BitVec.ofNat 128 src.amount⟩)]
    · simp [amount]
    · rw [amountLoop_visit h0 hget]
      exact settle hs (by show _ ≤ _ + _ + 1; omega) hx n 0
  | @openAccount b src ha hg hs hd =>
    obtain ⟨x, hx⟩ := balance?_of_sendsTo hd
    rw [amountCompute_of_loop (v := ⟨0, 0, BitVec.ofNat 128 src.amount⟩)]
    · simp [amount]
    · rw [amountLoop_visit h0 hget]
      refine (congrArg _ (if_pos hg)).trans ?_
      exact settle hs (by show _ ≤ _ + 1; omega) hx n 0
  | send | stateSend | stateChange | stateReceive | stateOpen =>
    exact amountCompute_of_loop (settle he le_rfl rfl (n + 1) 0)

/-! ## Balances, given the amounts and balances below -/

theorem balanceWalk_of_below (hr : Readable s Λ) (he : Λ.entry h = some e)
    (ihA : ∀ y q, Λ.entry y = some q → q.rank < e.rank → AmountWalk s Λ y q)
    (ihB : ∀ y q, Λ.entry y = some q → q.rank < e.rank → BalanceWalk s Λ y q) :
    BalanceWalk s Λ h e := by
  intro f n k hf hn hk hacc
  obtain ⟨m, rfl⟩ : ∃ m, n = m + 2 := ⟨n - 2, by omega⟩
  have hget := hr.blockGet he
  have h0 := Λ.ne_zero he
  -- the two shortcuts: a row of block info, and the balance in a state block
  have shortcut : ∀ i, e.block.isLegacy = true → s.blockInfoGet (e.block.hash p) = some i →
      balanceAdd p (BitVec.ofNat 128 k) i.balance = .ok (BitVec.ofNat 128 (k + e.balance)) := by
    intro i hl hi
    rw [Λ.hash_eq he] at hi
    rw [hr.blockInfo he hl hi]
    exact balanceAdd_ofNat p hk
  have state : ∀ b, e.block = .stateBlock b → balanceLoop p s f (m + 2) ⟨h, 0, BitVec.ofNat 128 k⟩ =
      .ok ⟨0, 0, BitVec.ofNat 128 (k + e.balance)⟩ := by
    intro b hb
    rw [hb] at hget hacc
    obtain rfl : k = 0 := hacc.resolve_right (by intro hl; cases hl)
    have hbal : b.hashables.balance = BitVec.ofNat 128 e.balance :=
      (Λ.justified he).balance?_eq (by rw [hb]; rfl)
    rw [balanceLoop_visit (v := ⟨0, 0, b.hashables.balance⟩) h0 hget rfl, hbal, Nat.zero_add]
    exact balanceLoop_done _
  have hj := Λ.justified he
  cases hj with
  | genesis hh =>
    have hmax : k + (2 ^ 128 - 1) < 2 ^ 128 := hk
    rw [balanceLoop_visit (y := BitVec.ofNat 128 k)
        (v := ⟨0, p.genesisAccount, BitVec.ofNat 128 k⟩) h0 hget rfl,
      balanceLoop_amount (genesisAccount_ne_zero p) hmax
        (amountCompute_genesisAccount hr (by omega))]
    exact balanceLoop_done _
  | @send b q hq hl hle =>
    have hadd : balanceAdd p (BitVec.ofNat 128 k) b.hashables.balance =
        .ok (BitVec.ofNat 128 (k + b.hashables.balance.toNat)) :=
      (congrArg _ (eq_ofNat_of_toNat rfl)).trans (balanceAdd_ofNat p hk)
    rw [balanceLoop_visit (v := ⟨0, 0, BitVec.ofNat 128 (k + b.hashables.balance.toNat)⟩) h0 hget]
    · exact balanceLoop_done _
    · simp only [visit, hadd, ok_bind]
      rfl
  | @receive b q src hq hl hs hd hlt =>
    have hrank : q.rank < q.rank + src.rank + 1 ∧ src.rank < q.rank + src.rank + 1 := by omega
    have hqb := below_lt hq hrank.1
    have hsb := below_lt hs hrank.2
    cases hi : s.blockInfoGet ((Block.receiveBlock b).hash p) with
    | some i =>
      rw [balanceLoop_visit (v := ⟨0, 0, BitVec.ofNat 128 (k + (q.balance + src.amount))⟩)
        h0 hget]
      · exact balanceLoop_done _
      · simp only [visit, hi, shortcut i rfl hi, ok_bind]
        rfl
    | none =>
      rw [balanceLoop_visit (v := ⟨b.hashables.previous, b.hashables.source,
        BitVec.ofNat 128 k⟩) h0 hget (by simp only [visit, hi])]
      simp only at hk hf hn
      rw [balanceLoop_amount (Λ.ne_zero hs) (by omega) (ihA _ src hs hrank.2 f (by omega)),
        ihB _ q hq hrank.1 f m (k + src.amount) (by omega) (by omega) (by omega) (Or.inr hl),
        Nat.add_right_comm, Nat.add_assoc k]
  | @openAccount b src ha hg hs hd =>
    have hsb := below_lt hs (Nat.lt_add_one src.rank)
    simp only at hk hf hn
    rw [balanceLoop_visit (y := BitVec.ofNat 128 k)
        (v := ⟨0, b.hashables.source, BitVec.ofNat 128 k⟩) h0 hget rfl,
      balanceLoop_amount (Λ.ne_zero hs) hk (ihA _ src hs (Nat.lt_succ_self _) f (by omega))]
    exact balanceLoop_done _
  | @change b q hq hl =>
    have hqb := below_lt hq (Nat.lt_add_one q.rank)
    cases hi : s.blockInfoGet ((Block.changeBlock b).hash p) with
    | some i =>
      rw [balanceLoop_visit (v := ⟨0, 0, BitVec.ofNat 128 (k + q.balance)⟩) h0 hget]
      · exact balanceLoop_done _
      · simp only [visit, hi, shortcut i rfl hi, ok_bind]
        rfl
    | none =>
      simp only at hk hf hn
      rw [balanceLoop_visit (v := ⟨b.hashables.previous, 0, BitVec.ofNat 128 k⟩) h0 hget
        (by simp only [visit, hi])]
      exact ihB _ q hq (Nat.lt_succ_self _) f (m + 1) k (by omega) (by omega) hk (Or.inr hl)
  | stateSend | stateChange | stateReceive | stateOpen => exact state _ rfl

theorem walks (hr : Readable s Λ) :
    ∀ h e, Λ.entry h = some e → AmountWalk s Λ h e ∧ BalanceWalk s Λ h e := by
  refine rank_induction ?_
  intro h e he ih
  exact ⟨amountWalk_of_balances hr he fun y q hq hlt => (ih y q hq hlt).2,
    balanceWalk_of_below hr he (fun y q hq hlt => (ih y q hq hlt).1)
      fun y q hq hlt => (ih y q hq hlt).2⟩

/-- **`ledger::balance`** of a stored block is the balance of its entry. -/
theorem Readable.balance (hr : Readable s Λ) (he : Λ.entry h = some e) :
    Ledger.balance p s h = .ok (BitVec.ofNat 128 e.balance) := by
  have hfuel := hr.below_le_fuel e.rank
  exact ((walks hr h e he).2).balanceCompute he (by omega)

theorem Ledger.balance_zero (p : Env) (s : BlockStore) : Ledger.balance p s 0 = .ok 0 := by
  show balanceCompute p s (2 * s.blockCount + 3 + 1) 0 = _
  exact balanceCompute_of_loop (balanceLoop_done 0)

/-- **`ledger::amount`** of a stored block is the amount of its entry. -/
theorem Readable.amount (hr : Readable s Λ) (he : Λ.entry h = some e) :
    Ledger.amount p s h = .ok (BitVec.ofNat 128 e.amount) :=
  (walks hr h e he).1 _ (hr.below_le_fuel e.rank)

/-! ## Representatives -/

abbrev representativeLoop (p : Env) (s : BlockStore) :
    ℕ → RepresentativeVisitor → Except Fault RepresentativeVisitor :=
  whileLoop .outOfFuel (fun v : RepresentativeVisitor => v.result = 0)
    (RepresentativeVisitor.step p s)

theorem representativeLoop_entry (hr : Readable s Λ) :
    ∀ h e, Λ.entry h = some e → ∀ n, Λ.below e.rank + 1 ≤ n →
      ∃ x, representativeLoop p s n ⟨h, 0⟩ = .ok ⟨x, e.rep⟩ := by
  refine rank_induction ?_
  intro h e he ih n hn
  obtain ⟨m, rfl⟩ : ∃ m, n = m + 1 := ⟨n - 1, by omega⟩
  have hvisit : representativeLoop p s (m + 1) ⟨h, 0⟩ =
      representativeLoop p s m (RepresentativeVisitor.visit p ⟨h, 0⟩ e.block) := by
    refine whileLoop_step rfl ?_ m
    unfold RepresentativeVisitor.step
    rw [hr.blockGet he]
  -- a block that names a representative is the result itself
  have stop : RepresentativeVisitor.visit p ⟨h, 0⟩ e.block = ⟨h, e.block.hash p⟩ → e.rep = h →
      ∃ x, representativeLoop p s (m + 1) ⟨h, 0⟩ = .ok ⟨x, e.rep⟩ := by
    intro hv hrep
    refine ⟨h, ?_⟩
    rw [hvisit, hv, Λ.hash_eq he, hrep]
    refine whileLoop_done ?_ m
    exact decide_eq_false (Λ.ne_zero he)
  have hj := Λ.justified he
  cases hj with
  | @send b q hq hl hle =>
    have hb := below_lt hq (Nat.lt_add_one q.rank)
    simp only at hn
    obtain ⟨x, hx⟩ := ih _ q hq (Nat.lt_succ_self _) m (by omega)
    exact ⟨x, hvisit.trans hx⟩
  | @receive b q src hq hl hs hd hlt =>
    have hrank : q.rank < q.rank + src.rank + 1 := by omega
    have hb := below_lt hq hrank
    simp only at hn
    obtain ⟨x, hx⟩ := ih _ q hq hrank m (by omega)
    exact ⟨x, hvisit.trans hx⟩
  | genesis hh => exact stop rfl hh.symm
  | _ => exact stop rfl rfl

/-- The representative visitor ends at the representative block. -/
theorem Readable.representativeCompute (hr : Readable s Λ) (he : Λ.entry h = some e) :
    RaiBlocks.representativeCompute p s s.fuel h = .ok e.rep := by
  have hfuel := hr.below_le_fuel e.rank
  obtain ⟨x, hx⟩ := representativeLoop_entry hr h e he s.fuel (by omega)
  exact congrArg (· >>= fun v : RepresentativeVisitor => Except.ok v.result) hx

/-- **`ledger::representative`** of a stored block is its representative
block. -/
theorem Readable.representative (hr : Readable s Λ) (he : Λ.entry h = some e) :
    Ledger.representative p s h = .ok e.rep := by
  obtain ⟨r, hrep, _⟩ := rep_entry h e he
  have hcalc : Ledger.representativeCalculated p s h = .ok e.rep := hr.representativeCompute he
  unfold Ledger.representative
  rw [hcalc, ok_bind, blockExists_iff.mpr ⟨_, hr.blockGet hrep⟩, Bool.or_true]
  rfl

/-! ## Owners -/

theorem Block.isLegacy_eq_false : b.isLegacy = false ↔ b.type = .state := by
  cases b <;> simp [Block.isLegacy, Block.type, BlockType.code]

/-- Heights are bounded by the number of blocks below. -/
theorem Lattice.height_le_below : ∀ h e, Λ.entry h = some e → e.height ≤ Λ.below e.rank + 1 := by
  refine rank_induction ?_
  intro h e he ih
  rcases first_or_follows he with hf | ⟨q, hq, hfol⟩
  · rw [hf.height]
    omega
  · have hle := ih _ q hq hfol.rank
    have hlt := below_lt hq hfol.rank
    rw [hfol.height]
    omega

/-- The state of the loop in `ledger::account` on the chain of `a`: it stands
at a block of `a`, and knows when that block is the head. `k` bounds the
iterations that are left. -/
structure AccountWalk.On (s : BlockStore) (Λ : Lattice p) (a : Account) (k : ℕ)
    (w : Ledger.AccountWalk) (e : Entry) : Prop where
  entry : Λ.entry w.hash = some e
  block : w.block = e.block
  owner : e.owner = a
  successor : w.successor = 1 ∨ w.successor = w.hash ∨ (w.successor = 0 ∧ Λ.IsHead w.hash)
  bound : w.successor ≠ 0 → s.blockCount + 2 ≤ k + e.height

theorem AccountWalk.step_on (hb : BlocksOk s.blockDatabase Λ)
    (hle : ∀ x e, Λ.entry x = some e → e.height ≤ s.blockCount + 1) {w : Ledger.AccountWalk}
    (hon : AccountWalk.On s Λ a k w e) (h0 : w.successor ≠ 0) :
    ∃ k' w' e', w.step s = .ok w' ∧ k' < k ∧ AccountWalk.On s Λ a k' w' e' := by
  have hk := hon.bound h0
  have hheight := hle _ e hon.entry
  have hnext := hb.blockSuccessor hon.entry
  unfold Ledger.AccountWalk.step
  generalize s.blockSuccessor w.hash = y at hnext ⊢
  rcases hnext with ⟨hhead, rfl⟩ | ⟨e', he', hprev⟩
  · refine ⟨0, { w with successor := 0 }, e, if_neg (not_not.mpr rfl), by omega, ?_⟩
    exact ⟨hon.entry, hon.block, hon.owner, Or.inr (Or.inr ⟨rfl, hhead⟩), fun hne => absurd rfl hne⟩
  · obtain ⟨q, hq, hfol⟩ := follows_of_previous_ne he' (hprev ▸ Λ.ne_zero hon.entry)
    rw [hprev, hon.entry] at hq
    obtain rfl := Option.some.inj hq
    have hheight' := hfol.height
    refine ⟨k - 1, ⟨y, y, e'.block⟩, e', ?_, by omega, he', rfl, ?_, Or.inr (Or.inl rfl), ?_⟩
    · show (if y ≠ 0 then _ else _) = _
      rw [if_pos (Λ.ne_zero he'), hb.blockGet_some he']
    · rw [← hfol.owner, hon.owner]
    · intro _
      omega

/-- The walk stops where the owner can be read off: at a state block, at the
head, or at a row of block info. -/
theorem AccountWalk.result_on (hf : FrontiersOk s.frontiers Λ)
    (hi : BlocksInfoOk U s.blocksInfo Λ) (hone : s.blockInfoGet 1 = none)
    {w : Ledger.AccountWalk} (hon : AccountWalk.On s Λ a k w e) (hexit : w.running s = false) :
    w.result s = a := by
  unfold Ledger.AccountWalk.running at hexit
  unfold Ledger.AccountWalk.result
  rw [hon.block] at hexit ⊢
  rw [← hon.owner]
  by_cases hl : e.block.isLegacy = true
  · have htype : e.block.type ≠ .state := fun htype => by
      rw [Block.isLegacy_eq_false.mpr htype] at hl
      cases hl
    rw [decide_eq_true htype, Bool.and_true] at hexit
    have hvalue : (if w.successor = 0 then s.frontierGet w.hash
        else ((s.blockInfoGet w.successor).map fun info => info.account).getD 0) = e.owner := by
      rcases hon.successor with hs | hs | ⟨hs, hhead⟩
      · rw [hs, hone] at hexit
        cases hexit
      · have h0 := Λ.ne_zero hon.entry
        have hrow : s.blockInfoGet w.hash = _ := hi.legacy hon.entry hl
        rw [hs, decide_eq_true h0, Bool.true_and] at hexit
        rw [hs, if_neg h0]
        split at hrow
        · rw [hrow]
          rfl
        · rw [hrow] at hexit
          cases hexit
      · rw [if_pos hs]
        exact hf.frontierGet hon.entry hhead hl
    cases hblock : e.block with
    | stateBlock b =>
      rw [hblock] at htype
      exact absurd rfl htype
    | _ => exact hvalue
  · cases hblock : e.block with
    | stateBlock b => exact account?_eq hon.entry (by rw [hblock]; rfl)
    | _ =>
      rw [hblock] at hl
      exact absurd rfl hl

/-- No row of block info stands under the number where the search starts. -/
theorem BlocksInfoOk.blockInfoGet_one (ha : HashAssumptions p U)
    (hi : BlocksInfoOk U s.blocksInfo Λ) : s.blockInfoGet 1 = none := by
  cases hrow : s.blockInfoGet 1 with
  | none => rfl
  | some i =>
    rcases hi.other hrow with ⟨e₁, h₁, _⟩ | ⟨b, hbU, _, hhash⟩
    · exact absurd rfl (Λ.ne_one h₁)
    · exact absurd hhash (ha.ne_one hbU)

theorem Readable.height_le (hr : Readable s Λ) (he : Λ.entry h = some e) :
    e.height ≤ s.blockCount := by
  have hheight := height_le_below h e he
  have hlt : Λ.below e.rank < s.blockCount := by
    refine lt_of_lt_of_le (Set.ncard_lt_ncard ⟨?_, fun hsub => ?_⟩ (finite_blocks s))
      (ncard_blocks_le s)
    · rintro x ⟨ex, hx, _⟩
      exact blockExists_iff.mpr ⟨_, hr.blockGet hx⟩
    · obtain ⟨e', he', hrank⟩ := hsub (blockExists_iff.mpr ⟨_, hr.blockGet he⟩)
      obtain rfl := Option.some.inj (he.symm.trans he')
      exact lt_irrefl _ hrank
  omega

theorem Readable.height_lt_fuel (hr : Readable s Λ) (he : Λ.entry h = some e) :
    e.height < s.fuel := by
  have hheight := hr.height_le he
  unfold fuel
  omega

/-- An account has at most as many blocks as are stored, so the 64 bits that the count has in the
source are enough for it wherever they are for the number of stored blocks. -/
theorem Refines.blockCount_le (hr : Refines U s Λ) {info : AccountInfo}
    (h : s.accounts.lookup a = some info) : info.blockCount ≤ s.blockCount := by
  obtain ⟨e, hd⟩ := hr.accounts.sound h
  rw [hd.count]
  exact (hr.blocks.readable hr.blocksInfo).height_le hd.head

/-- **`ledger::account`** of a stored block is its owner. -/
theorem BlocksOk.account (hb : BlocksOk s.blockDatabase Λ) (ha : HashAssumptions p U)
    (hf : FrontiersOk s.frontiers Λ) (hi : BlocksInfoOk U s.blocksInfo Λ)
    (he : Λ.entry h = some e) : Ledger.account s h = .ok e.owner := by
  have hheight : ∀ x e, Λ.entry x = some e → e.height ≤ s.blockCount + 1 :=
    fun _ _ hx => Nat.le_succ_of_le ((hb.readable hi).height_le hx)
  have hstep : ∀ k w, (∃ e', AccountWalk.On s Λ e.owner k w e') → w.running s = true →
      ∃ k' w', w.step s = .ok w' ∧ k' < k ∧ ∃ e', AccountWalk.On s Λ e.owner k' w' e' := by
    rintro k w ⟨e', hon⟩ hrun
    have h0 : w.successor ≠ 0 := by
      intro h0
      simp [Ledger.AccountWalk.running, h0] at hrun
    obtain ⟨k', w', e'', hstep, hlt, hon'⟩ := AccountWalk.step_on hb hheight hon h0
    exact ⟨k', w', hstep, hlt, e'', hon'⟩
  have hloop : ∃ k w, whileLoop Fault.outOfFuel (Ledger.AccountWalk.running s)
      (Ledger.AccountWalk.step s) s.fuel ⟨h, 1, e.block⟩ = .ok w ∧
      (∃ e', AccountWalk.On s Λ e.owner k w e') ∧ w.running s = false :=
    whileLoop_total hstep s.fuel (s.blockCount + 2) ⟨h, 1, e.block⟩
      (by unfold fuel; omega) ⟨e, he, rfl, rfl, Or.inl rfl, fun _ => by omega⟩
  obtain ⟨k, w, hw, ⟨e', hon⟩, hexit⟩ := hloop
  have hresult := AccountWalk.result_on hf hi (hi.blockInfoGet_one ha) hon hexit
  unfold Ledger.account
  rw [hb.blockGet_some he]
  show (whileLoop _ _ _ _ _ >>= _) = _
  rw [hw, ok_bind, hresult, decide_eq_true (Λ.sound he).1]
  rfl

end RaiBlocks
