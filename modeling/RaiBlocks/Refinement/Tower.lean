import RaiBlocks.Refinement.BlockInfo

/-!
# A tower of state blocks

On top of the genesis block the genesis account puts state blocks, each with a representative of
its own, by which their hashes are told apart. Each of them sends, or changes nothing but the
representative. A tower of any height can be built.
-/

namespace RaiBlocks

open Foundation Ledger

namespace Tower

variable {n : ℕ} {s : BlockStore} {Λ : Lattice env}

def hash (n : ℕ) : BlockHash := BitVec.ofNat 256 (2 ^ 128 + n)

/-- The representative of a state block stands at offset 96. A text of 36 bytes is no block but a
seed and an index, of which the hash is the index. -/
def env : Env where
  blake2b input :=
    if input.length = 36 then BitVec.ofNat 256 (fromBigEndian (input.drop 32))
    else hash (fromBigEndian ((input.drop 96).take 32))
  validateMessage _ _ _ := false
  network := .raiTestNetwork
  trap := false

/-- The balance after so many state blocks, and the link of each. -/
structure Plan where
  balance : ℕ → ℕ
  link : ℕ → Uint256
  balance_zero : balance 0 = genesisAmount.toNat
  moves : ∀ n < 2 ^ 64, balance (n + 1) < balance n ∨ link n = 0 ∧ balance (n + 1) = balance n
  link_lt : ∀ n, (link n).toNat < 2 ^ 128

/-- No block sends anything. -/
def Plan.still : Plan where
  balance _ := genesisAmount.toNat
  link _ := 0
  balance_zero := rfl
  moves _ _ := Or.inr ⟨rfl, rfl⟩
  link_lt _ := by decide

/-- Every block sends 1 raw. -/
def Plan.sending (link : ℕ → Uint256) (hlink : ∀ n, (link n).toNat < 2 ^ 128) : Plan where
  balance n := genesisAmount.toNat - n
  link := link
  balance_zero := rfl
  moves n hn := by
    have hamount : 2 ^ 64 < genesisAmount.toNat := by decide
    exact Or.inl (by omega)
  link_lt := hlink

theorem Plan.sending_lt {link : ℕ → Uint256} {hlink : ∀ n, (link n).toNat < 2 ^ 128}
    (hn : n < 2 ^ 64) :
    (Plan.sending link hlink).balance (n + 1) < (Plan.sending link hlink).balance n := by
  have hamount : 2 ^ 64 < genesisAmount.toNat := by decide
  show genesisAmount.toNat - (n + 1) < genesisAmount.toNat - n
  omega

variable {t : Plan}

theorem Plan.balance_lt (t : Plan) (hn : n ≤ 2 ^ 64) : t.balance n < 2 ^ 128 := by
  induction n with
  | zero =>
    rw [t.balance_zero]
    exact genesisAmount.isLt
  | succ n ih =>
    have hprev := ih (by omega)
    rcases t.moves n (by omega) with hlt | ⟨-, heq⟩
    · omega
    · omega

def state (t : Plan) (n : ℕ) : StateBlock :=
  ⟨⟨env.genesisAccount, hash n, BitVec.ofNat 256 (n + 1), BitVec.ofNat 128 (t.balance (n + 1)),
    t.link n⟩, 0, 0⟩

/-- The block at height `n + 1`. -/
def block (t : Plan) : ℕ → Block
  | 0 => env.genesisBlock
  | n + 1 => .stateBlock (state t n)

def blocks (t : Plan) : Set Block := {b | ∃ n < 2 ^ 64, block t n = b}

theorem block_mem (hn : n < 2 ^ 64) : block t n ∈ blocks t := ⟨n, hn, rfl⟩

theorem hash_toNat (hn : n < 2 ^ 64) : (hash n).toNat = 2 ^ 128 + n := by
  rw [hash, BitVec.toNat_ofNat]
  omega

theorem hash_inj {m : ℕ} (hn : n < 2 ^ 64) (hm : m < 2 ^ 64) (h : hash n = hash m) : n = m := by
  have hnat := congrArg BitVec.toNat h
  rw [hash_toNat hn, hash_toNat hm] at hnat
  omega

theorem blake2b_of_index {input : List UInt8} (h : input.length = 36) :
    env.blake2b input = BitVec.ofNat 256 (fromBigEndian (input.drop 32)) := if_pos h

theorem blake2b_of_length {input : List UInt8} (h : input.length ≠ 36) :
    env.blake2b input = hash (fromBigEndian ((input.drop 96).take 32)) := if_neg h

theorem block_hash (hn : n < 2 ^ 64) : (block t n).hash env = hash n := by
  cases n with
  | zero => rfl
  | succ n =>
    have hrep : (BitVec.ofNat 256 (n + 1)).toNat = n + 1 := by
      rw [BitVec.toNat_ofNat]
      omega
    have hlength : (block t (n + 1)).hashInput.length ≠ 36 := by simp [block, Block.hashInput]
    have hbytes : ((block t (n + 1)).hashInput.drop 96).take 32 = bigEndian 32 (n + 1) := by
      simp only [block, Block.hashInput, state, hrep]
      rw [List.append_assoc, List.append_assoc, List.drop_left' (by simp),
        List.take_left' (by simp)]
    rw [Block.hash, blake2b_of_length hlength, hbytes,
      fromBigEndian_bigEndian 32 (n + 1) (by omega)]

theorem hash_ne_genesis (hn : n < 2 ^ 64) (h0 : n ≠ 0) : hash n ≠ env.genesisHash :=
  fun h => h0 (hash_inj hn (by decide) (h : hash n = hash 0))

theorem block_account (n : ℕ) : (block t n).account? = some env.genesisAccount := by
  cases n <;> rfl

theorem block_hash_ne (hn : n < 2 ^ 64) {x : BlockHash}
    (hx : x.toNat < 2 ^ 128 ∨ 2 ^ 129 < x.toNat) : (block t n).hash env ≠ x := by
  rintro rfl
  rw [block_hash hn, hash_toNat hn] at hx
  omega

theorem assumptions (t : Plan) : HashAssumptions env (blocks t) where
  genesis_mem := block_mem (n := 0) (by decide)
  collision_free := by
    rintro _ _ ⟨n, hn, rfl⟩ ⟨m, hm, rfl⟩ h
    rw [block_hash hn, block_hash hm] at h
    rw [hash_inj hn hm h]
  ne_zero := by
    rintro _ ⟨n, hn, rfl⟩
    exact block_hash_ne hn (by decide)
  ne_one := by
    rintro _ ⟨n, hn, rfl⟩
    exact block_hash_ne hn (by decide)
  ne_account := by
    rintro _ _ a ⟨n, hn, rfl⟩ ⟨m, _, rfl⟩ ha
    rw [← Option.some.inj ((block_account m).symm.trans ha)]
    exact block_hash_ne hn (by decide)

section Entries

variable (hr : Refines (blocks t) s Λ) {h : BlockHash} {e : Entry}

include hr

theorem entry_block (hn : n < 2 ^ 64) (he : Λ.entry (hash n) = some e) : e.block = block t n := by
  obtain ⟨m, hm, hblock⟩ := hr.known he
  have heq := Λ.hash_eq he
  rw [← hblock, block_hash hm] at heq
  rw [← hblock, hash_inj hm hn heq]

theorem entry_owner (he : Λ.entry h = some e) : e.owner = env.genesisAccount := by
  obtain ⟨m, -, hblock⟩ := hr.known he
  exact (Lattice.account?_eq he (hblock ▸ block_account m)).symm

theorem not_received (hn : n < 2 ^ 64) : ¬ Λ.Received (hash n) := by
  rintro ⟨x, e, hx, hrec⟩
  obtain ⟨m, -, hblock⟩ := hr.known hx
  cases m with
  | zero =>
    have hgenesis := Λ.hash_eq hx
    rw [← hblock] at hgenesis
    obtain rfl : env.genesisHash = x := hgenesis
    obtain rfl := Option.some.inj (hx.symm.trans Λ.genesis)
    cases hrec
  | succ m =>
    simp only [Entry.receives, ← hblock, block, state] at hrec
    split at hrec
    · cases hrec
    · have hlink := t.link_lt m
      rw [Option.some.inj hrec, hash_toNat hn] at hlink
      omega

end Entries

/-- The tower with `n` state blocks is built. -/
structure Built (t : Plan) (s : BlockStore) (Λ : Lattice env) (n : ℕ) : Prop where
  reachable : Reachable env (blocks t) s
  valid : RaiBlocks.Valid (blocks t) s Λ
  exact : InfoExact env s
  head : Λ.IsHead (hash n)
  top : ∃ e, Λ.entry (hash n) = some e ∧ e.height = n + 1 ∧ e.balance = t.balance n
  sends : ∀ i < n, t.balance (i + 1) < t.balance i →
    ∃ e, Λ.entry (hash (i + 1)) = some e ∧ e.sendsTo = some (t.link i)

theorem Built.next (hb : Built t s Λ n) (hn : n + 1 < 2 ^ 64) :
    ∃ s' ret Λ', process env 0 s (block t (n + 1)) = .ok (s', ret) ∧
      Built t s' Λ' (n + 1) := by
  obtain ⟨q, hq, hheight, hbalance⟩ := hb.top
  have howner := entry_owner hb.valid.refines hq
  have hU := block_mem (t := t) hn
  have hhash := block_hash (t := t) hn
  have hfresh : Λ.entry (hash (n + 1)) = none := by
    cases hx : Λ.entry (hash (n + 1)) with
    | none => rfl
    | some e =>
      have hblock := entry_block hb.valid.refines hn hx
      exact absurd (by rw [hblock]; rfl) (hb.head _ e hx)
  have hnew : (state t n).hashables.balance.toNat = t.balance (n + 1) :=
    toNat_ofNat_of_lt (t.balance_lt hn.le)
  obtain ⟨e, hj, hblock, hown, hheight', hprior, hbalance', hrec⟩ :
      ∃ e, Justified env Λ.entry ((block t (n + 1)).hash env) e ∧ e.block = block t (n + 1) ∧
        e.owner = q.owner ∧ e.height = q.height + 1 ∧ e.prior = t.balance n ∧
        e.balance = t.balance (n + 1) ∧ e.receives env = none := by
    rcases t.moves n (by omega) with hlt | ⟨hlink, heq⟩
    · refine ⟨_, .stateSend (b := state t n) hq howner (by rw [hnew, hbalance]; exact hlt), rfl,
        howner.symm, rfl, hbalance, hnew, if_pos (Or.inl ?_)⟩
      rw [hnew, hbalance]
      exact hlt
    · exact ⟨_, .stateChange (b := state t n) hq howner hlink (by rw [hnew, hbalance, heq]), rfl,
        howner.symm, rfl, hbalance, hnew, if_pos (Or.inr hlink)⟩
  have ad := hb.valid.refines.admissible_head (assumptions t) hU hblock (hhash ▸ hfresh) hj hb.head
    hown hq (fun x hx => by rw [hrec] at hx; cases hx) rfl
  obtain ⟨⟨s', ret⟩, hrun, hout⟩ := hb.valid.process (assumptions t) hU 0
  cases hout with
  | refused _ hno => exact absurd ad (hno _ hblock)
  | @accepted _ _ e' ad' hblock' _ _ _ hi =>
    obtain rfl := ad'.justified.unique Λ.entry_zero hj (hblock'.trans hblock.symm)
    refine ⟨s', ret, Λ.insert ad', hrun, hb.reachable.step (.process 0 hU hrun),
      hb.valid.accepted (assumptions t) ad' (hblock ▸ hU) hi,
      hb.valid.infoExact_process (assumptions t) hb.exact hU hrun, ?_, ?_, fun i hi hlt => ?_⟩
    · rw [← hhash]
      exact Lattice.insert_isHead_self ad'
    · rw [← hhash]
      exact ⟨_, Lattice.insert_entry_self ad', hheight'.trans (congrArg (· + 1) hheight), hbalance'⟩
    · rcases Nat.lt_succ_iff_lt_or_eq.mp hi with hi | rfl
      · obtain ⟨x, hx, hsends⟩ := hb.sends i hi hlt
        exact ⟨x, Lattice.insert_entry_of_stored ad' hx, hsends⟩
      · refine ⟨e', hhash ▸ Lattice.insert_entry_self ad', ?_⟩
        unfold Entry.sendsTo
        rw [hblock]
        exact if_pos (by rw [hbalance', hprior]; exact hlt)

theorem Built.below (hb : Built t s Λ (n + 1)) (hn : n + 1 < 2 ^ 64) :
    ∃ e q, Λ.entry (hash (n + 1)) = some e ∧ e.block.previous = hash n ∧
      Λ.entry (hash n) = some q ∧ q.height = n + 1 ∧ q.rank < e.rank := by
  obtain ⟨e, he, hheight, -⟩ := hb.top
  have hprev : e.block.previous = hash n := by
    rw [entry_block hb.valid.refines hn he]
    rfl
  rcases Lattice.first_or_follows he with hf | ⟨q, hq, hfol⟩
  · have := hf.height
    omega
  · have := hfol.height
    exact ⟨e, q, he, hprev, hprev ▸ hq, by omega, hfol.rank⟩

/-- Taking the last state block away leaves a row for the one under it if that is at a position
divisible by 32. -/
theorem Built.rollback (hb : Built t s Λ (n + 2)) (hn : n + 2 < 2 ^ 64) :
    ∃ s', rollback env 0 s (hash (n + 2)) = .ok s' ∧
      Reachable env (blocks t) s' ∧ s'.blockGet (hash (n + 1)) = some (block t (n + 1)) ∧
      ((n + 2) % BlockStore.blockInfoMax = 0 → (s'.blockInfoGet (hash (n + 1))).isSome = true) := by
  obtain ⟨e, q, he, hprev, hq, hheight, hrank⟩ := hb.below hn
  have hr := hb.valid.refines
  have hgenesis := hash_ne_genesis hn (by omega)
  obtain ⟨s', Λ', hrollback, hcut, hgone⟩ := rollback_cutBack (assumptions t) 0 hr he hgenesis
  refine ⟨s', hrollback, hb.reachable.step (.rollback 0 (hr.blocks.blockExists_true he) hgenesis
    hrollback), ?_, fun hposition => ?_⟩
  · rw [hcut.refines.blocks.blockGet_some (hcut.trimmed.keeps he hq hrank),
      entry_block hr (by omega) hq]
  · refine (hcut.rows (hash (n + 1)) fun q' hq' => ?_).mpr
      (Or.inr ⟨_, e, q, he, hgone, hprev, hq, hheight ▸ hposition⟩)
    rw [entry_block hr (by omega) hq']
    rfl

/-- Only the last state block goes, and it uncovers the one under it. -/
theorem Built.not_uncovers (hb : Built t s Λ (n + 1)) (hn : n + 1 < 2 ^ 64)
    (hposition : (n + 1) % BlockStore.blockInfoMax ≠ 0) : ¬ Uncovers env s (hash (n + 1)) := by
  have hr := hb.valid.refines
  rw [hr.uncovers_iff]
  rintro ⟨x, e, q, hrests, he, hq, -, hheight⟩
  obtain ⟨e', q', he', hprev, hq', hheight', -⟩ := hb.below hn
  obtain rfl := hrests.eq_of_top hb.head (not_received hr hn)
  obtain rfl := Option.some.inj (he.symm.trans he')
  rw [hprev] at hq
  obtain rfl := Option.some.inj (hq.symm.trans hq')
  exact hposition (hheight' ▸ hheight)

theorem Built.pending_link {i : ℕ} (hb : Built t s Λ n) (hi : i < n) (hn : n < 2 ^ 64)
    (hlt : t.balance (i + 1) < t.balance i) : ∃ k ∈ s.pending.keys, k.account = t.link i := by
  obtain ⟨e, he, hsends⟩ := hb.sends i hi hlt
  have hrow := (hb.valid.refines.pending (t.link i) (hash (i + 1)) e.pendingInfo).mpr
    ⟨e, he, hsends, not_received hb.valid.refines (by omega), rfl⟩
  refine ⟨⟨t.link i, hash (i + 1)⟩, Finmap.mem_keys.mpr (Finmap.lookup_isSome.mp ?_), rfl⟩
  rw [hrow]
  rfl

theorem Built.of_pending (hb : Built t s Λ n) {k : PendingKey} (hk : k ∈ s.pending.keys) :
    ∃ i, k.account = t.link i := by
  obtain ⟨info, hinfo⟩ :=
    Option.isSome_iff_exists.mp (Finmap.lookup_isSome.mpr (Finmap.mem_keys.mp hk))
  obtain ⟨e, he, hsends, -, -⟩ := (hb.valid.refines.pending k.account k.hash info).mp hinfo
  obtain ⟨m, -, hblock⟩ := hb.valid.refines.known he
  unfold Entry.sendsTo at hsends
  rw [← hblock] at hsends
  cases m with
  | zero => cases hsends
  | succ m =>
    simp only [block] at hsends
    split_ifs at hsends
    exact ⟨m, (Option.some.inj hsends).symm⟩

theorem Built.of_account (hb : Built t s Λ n) {a : Account}
    (ha : (s.accountGet a).isSome = true) : a = env.genesisAccount := by
  obtain ⟨info, hinfo⟩ := Option.isSome_iff_exists.mp ha
  obtain ⟨e, hdesc⟩ := hb.valid.refines.accounts.sound hinfo
  exact hdesc.owner.symm.trans (entry_owner hb.valid.refines hdesc.head)

/-- The calls that build a tower. -/
def build (t : Plan) : (n : ℕ) → n < 2 ^ 64 → List (Ledger.Call env (blocks t))
  | 0, _ => []
  | n + 1, h => build t n (by omega) ++ [.process 0 (block t (n + 1)) (block_mem h)]

theorem of_mem_build {hn : n < 2 ^ 64} {c : Ledger.Call env (blocks t)} (hc : c ∈ build t n hn) :
    ∃ b hb, c = .process 0 b hb := by
  induction n with
  | zero => cases hc
  | succ n ih =>
    rcases List.mem_append.mp hc with hc | hc
    · exact ih hc
    · exact ⟨_, _, List.mem_singleton.mp hc⟩

theorem first_built (t : Plan) :
    ∃ s₀ Λ, genesisInitialize env 0 .empty = .ok s₀ ∧ Built t s₀ Λ 0 := by
  obtain ⟨s₀, hinit, hv⟩ := genesisInitialize_valid (assumptions t) 0
  exact ⟨s₀, _, hinit, ⟨0, s₀, hinit, .refl⟩, hv, infoExact_genesis (assumptions t) hinit,
    genesisLattice_isHead (assumptions t),
    ⟨env.genesisEntry, (genesisLattice (assumptions t)).genesis, rfl, t.balance_zero.symm⟩,
    fun i hi => absurd hi (Nat.not_lt_zero i)⟩

theorem run_build {s₀ : BlockStore} {Λ₀ : Lattice env} (h₀ : Built t s₀ Λ₀ 0) (n : ℕ)
    (hn : n < 2 ^ 64) :
    ∃ s Λ, Machine.run Ledger.Call.apply s₀ (build t n hn) = .ok s ∧ Built t s Λ n := by
  induction n with
  | zero => exact ⟨s₀, Λ₀, rfl, h₀⟩
  | succ n ih =>
    obtain ⟨s, Λ, hrun, hb⟩ := ih (by omega)
    obtain ⟨s', ret, Λ', hprocess, hb'⟩ := hb.next hn
    refine ⟨s', Λ', ?_, hb'⟩
    rw [build, Machine.run_append, hrun, ok_bind, Machine.run, Ledger.Call.apply, hprocess]
    rfl

end Tower

end RaiBlocks
