import RaiBlocks.Ledger.Run
import RaiBlocks.Refinement.Process
import RaiBlocks.Refinement.Rollback

/-!
# Reachable ledgers refine lattices

The genesis store refines the lattice of the genesis block alone, processing
adds an admissible entry or nothing, and rolling back trims. So every reachable
store refines a lattice, holds the whole supply and has exact weights.
-/

namespace RaiBlocks

open Foundation BlockStore Ledger

variable {p : Env} {U : Set Block} {s s' : BlockStore}

/-! ## The invariant -/

/-- The amount of money there is. -/
abbrev totalSupply : ℕ := 2 ^ 128 - 1

/-- What holds of a store at all times. -/
structure Valid (U : Set Block) (s : BlockStore) (Λ : Lattice p) : Prop where
  refines : Refines U s Λ
  supply : s.supply = totalSupply
  drift : ∀ r, drift s Λ r = 0

/-! ## Genesis -/

theorem genesis_only {h : BlockHash} {e : Entry}
    (he : (if h = p.genesisHash then some p.genesisEntry else none) = some e) :
    h = p.genesisHash ∧ e = p.genesisEntry := by
  obtain ⟨hh, he⟩ := Option.ite_none_right_eq_some.mp he
  exact ⟨hh, (Option.some.inj he).symm⟩

/-- The lattice with the genesis block only. -/
def genesisLattice (hass : HashAssumptions p U) : Lattice p where
  entry h := if h = p.genesisHash then some p.genesisEntry else none
  finite := by
    refine (Set.finite_singleton p.genesisHash).subset ?_
    intro h hh
    obtain ⟨e, he⟩ := Option.isSome_iff_exists.mp hh
    exact (genesis_only he).1
  hash_eq := by
    intro h e he
    obtain ⟨rfl, rfl⟩ := genesis_only he
    rfl
  justified := by
    intro h e he
    obtain ⟨hh, rfl⟩ := genesis_only he
    exact .genesis hh
  genesis := if_pos rfl
  root_inj := fun he he' _ => (genesis_only he).1.trans (genesis_only he').1.symm
  receives_inj := fun he he' _ _ => (genesis_only he).1.trans (genesis_only he').1.symm
  signed := fun he hg => absurd (genesis_only he).1 hg
  ne_zero := by
    intro h e he
    rw [(genesis_only he).1]
    exact hass.ne_zero hass.genesis_mem
  ne_one := by
    intro h e he
    rw [(genesis_only he).1]
    exact hass.ne_one hass.genesis_mem
  owner_unstored := by
    intro h e he
    rw [(genesis_only he).2]
    exact if_neg (hass.ne_account hass.genesis_mem hass.genesis_mem rfl).symm

section Genesis

variable (hass : HashAssumptions p U)

theorem genesisLattice_isHead : (genesisLattice hass).IsHead p.genesisHash := by
  intro h e he hp
  rw [(genesis_only he).2] at hp
  exact hass.ne_zero hass.genesis_mem hp.symm

/-- The account row of the genesis account. -/
def genesisInfo (p : Env) (now : ℕ) : AccountInfo :=
  ⟨p.genesisHash, p.genesisHash, p.genesisHash, genesisAmount, now, 1⟩

/-- The tables `genesis::initialize` leaves. -/
theorem genesisInitialize_eq (p : Env) (now : ℕ) :
    ∃ d, genesisInitialize p now .empty = .ok
        { frontiers := (∅ : Table BlockHash Account).insert p.genesisHash p.genesisAccount
          accounts := (∅ : Table Account AccountInfo).insert p.genesisAccount (genesisInfo p now)
          blockDatabase := d
          pending := ∅
          blocksInfo := ∅
          representation := (∅ : Table Account Uint128).insert p.genesisAccount genesisAmount
          checksum := (empty.checksum).insert 0 p.genesisHash } ∧ Database.Coherent d ∧
      ∀ x, Database.stored d x = if x = p.genesisHash then some ⟨p.genesisBlock, 0⟩ else none := by
  have hempty : ∀ x, Database.stored empty.blockDatabase x = none := fun x => rfl
  have hc : Database.Coherent empty.blockDatabase :=
    ⟨(fun hv => nomatch hv), (fun hv => nomatch hv)⟩
  obtain ⟨d, hput, hc', hst⟩ := blockPut_eq (p := p) (s := empty)
    (h := p.genesisHash) (b := p.genesisBlock) hc rfl (fun v hv => nomatch hv)
    (Or.inl ⟨rfl, Option.some_ne_none _⟩)
  refine ⟨d, ?_, hc', fun x => ?_⟩
  · unfold genesisInitialize
    dsimp only
    rw [decide_eq_true (show empty.accounts = ∅ from rfl), assertThat_true, ok_bind, hput]
    rfl
  · rw [hst, putStored, if_neg fun hx => hx.1 rfl, hempty]

theorem genesis_blocksOk {d : Database} (hc : d.Coherent)
    (hst : ∀ x, d.stored x = if x = p.genesisHash then some ⟨p.genesisBlock, 0⟩ else none) :
    BlocksOk d (genesisLattice hass) := by
  refine ⟨hc, fun h => ?_, fun {h v} hv => ?_⟩
  · rw [hst]
    unfold genesisLattice
    dsimp only
    split <;> rfl
  · rw [hst] at hv
    obtain ⟨rfl, hv'⟩ := Option.ite_none_right_eq_some.mp hv
    rw [← Option.some.inj hv']
    exact Or.inl ⟨genesisLattice_isHead hass, rfl⟩

theorem genesis_accountsOk (now : ℕ) :
    AccountsOk ((∅ : Table Account AccountInfo).insert p.genesisAccount (genesisInfo p now))
      (genesisLattice hass) := by
  refine ⟨fun {a info} hi => ?_, fun {h e} he => ?_⟩
  · rw [Table.lookup_insert_ite] at hi
    split at hi
    · rename_i ha
      obtain rfl := Option.some.inj hi
      exact ⟨p.genesisEntry, if_pos rfl, ha.symm, genesisLattice_isHead hass, rfl, rfl, rfl,
        p.genesisEntry, if_pos rfl, ha.symm, rfl⟩
    · cases hi
  · rw [(genesis_only he).2]
    exact ⟨_, Finmap.lookup_insert _⟩

theorem genesis_frontiersOk :
    FrontiersOk ((∅ : Table BlockHash Account).insert p.genesisHash p.genesisAccount)
      (genesisLattice hass) := by
  intro h a
  rw [Table.lookup_insert_ite]
  constructor
  · intro ha
    split at ha
    · rename_i hh
      subst hh
      exact ⟨p.genesisEntry, if_pos rfl, Option.some.inj ha, genesisLattice_isHead hass, rfl⟩
    · cases ha
  · rintro ⟨e, he, ho, _⟩
    obtain ⟨hh, rfl⟩ := genesis_only he
    rw [if_pos hh, ← ho]
    rfl

/-- **Genesis.** The first store refines the first lattice, holds all of the
supply and gives the genesis account all of the weight. -/
theorem genesisInitialize_valid (now : ℕ) :
    ∃ s, genesisInitialize p now .empty = .ok s ∧ Valid U s (genesisLattice hass) := by
  obtain ⟨d, hinit, hc, hst⟩ := genesisInitialize_eq p now
  refine ⟨_, hinit, ⟨genesis_blocksOk hass hc hst, genesis_accountsOk hass now,
    genesis_frontiersOk hass, ?_, ?_, ⟨_, Finmap.lookup_insert _⟩, ?_⟩, ?_, ?_⟩
  · intro a h i
    refine ⟨fun hi => (nomatch hi), ?_⟩
    rintro ⟨e, he, hs, _⟩
    rw [(genesis_only he).2] at hs
    cases hs
  · refine ⟨fun {h e} he _ => ?_, fun hi => nomatch hi⟩
    rw [(genesis_only he).2]
    rfl
  · intro h e he
    rw [(genesis_only he).2]
    exact hass.genesis_mem
  · show Table.sum (Finmap.insert _ _ ∅) _ + Table.sum ∅ _ = totalSupply
    rw [Table.sum_insert_of_lookup_none (by rfl)]
    rfl
  · intro r
    unfold drift weight representationGet
    rw [Table.sum_insert_of_lookup_none (by rfl), Table.lookup_insert_ite, Table.sum_empty,
      Nat.add_zero]
    have hrep : (genesisLattice hass).repAccount (genesisInfo p now).repBlock =
        some p.genesisAccount := by
      unfold Lattice.repAccount
      rw [show (genesisLattice hass).entry (genesisInfo p now).repBlock = _ from if_pos rfl]
      rfl
    rw [hrep]
    by_cases hr : r = p.genesisAccount
    · rw [if_pos hr, hr, if_pos rfl, Option.getD_some,
        show (genesisInfo p now).balance = genesisAmount from rfl, BitVec.ofNat_toNat,
        BitVec.setWidth_eq, sub_self]
    · rw [if_neg hr, if_neg fun heq => hr (Option.some.inj heq).symm, Finmap.lookup_empty]
      exact sub_self 0

end Genesis

/-! ## Steps -/

section Steps

variable {Λ : Lattice p} (hass : HashAssumptions p U) {h : BlockHash}

include hass

theorem Valid.process (hv : Valid U s Λ) {b : Block} (hU : b ∈ U) (now : ℕ) :
    ∃ r, process p now s b = .ok r ∧ Outcome now s Λ b r :=
  process_outcome hv.refines hass (hv.supply.trans_lt (by decide)) hU now

theorem Valid.accepted (hv : Valid U s Λ) {e : Entry} {now : ℕ} (ad : Λ.Admissible h e)
    (hU : e.block ∈ U) (hi : Inserted now s s' Λ ad) : Valid U s' (Λ.insert ad) := by
  obtain ⟨hr, hsupply, hdrift⟩ := hv.refines.insert hass ad hU hi
  exact ⟨hr, hsupply.trans hv.supply, fun r => (hdrift r).trans (hv.drift r)⟩

omit hass in
theorem Valid.cutBack (hv : Valid U s Λ) {Λ' : Lattice p} (hc : CutBack U s s' Λ Λ' h) :
    Valid U s' Λ' :=
  ⟨hc.refines, hc.supply.trans hv.supply, fun r => (hc.drift r).trans (hv.drift r)⟩

theorem Valid.rollback (hv : Valid U s Λ) (hh : s.blockExists h = true) (hg : h ≠ p.genesisHash)
    (now : ℕ) :
    ∃ s' Λ', rollback p now s h = .ok s' ∧ Valid U s' Λ' ∧ Λ.Trimmed Λ' h ∧
      Λ'.entry h = none := by
  rw [hv.refines.blocks.blockExists] at hh
  obtain ⟨e, he⟩ := Option.isSome_iff_exists.mp hh
  obtain ⟨s', Λ', hrun, hcut, hgone⟩ := rollback_cutBack hass now hv.refines he hg
  exact ⟨s', Λ', hrun, hv.cutBack hcut, hcut.trimmed, hgone⟩

/-- One lattice extends the other. -/
def Lattice.Comparable (Λ Λ' : Lattice p) : Prop :=
  (∀ {h e}, Λ.entry h = some e → Λ'.entry h = some e) ∨
    ∀ {h e}, Λ'.entry h = some e → Λ.entry h = some e

/-- **One step keeps the invariant**, and blocks that stay keep their entry. -/
theorem Valid.step (hv : Valid U s Λ) (hstep : Step p U s s') :
    ∃ Λ', Valid U s' Λ' ∧ Λ.Comparable Λ' := by
  cases hstep with
  | @process b ret now hU hrun =>
    obtain ⟨r, hrun', hout⟩ := hv.process hass hU now
    obtain rfl := Except.ok.inj (hrun'.symm.trans hrun)
    cases hout with
    | refused => exact ⟨Λ, hv, Or.inl id⟩
    | accepted ad hblock _ _ _ hi =>
      exact ⟨Λ.insert ad, hv.accepted hass ad (hblock ▸ hU) hi,
        Or.inl fun he => Lattice.insert_entry_of_stored ad he⟩
  | rollback now hh hg hrun =>
    obtain ⟨s₁, Λ', hrun', hv', ht, _⟩ := hv.rollback hass hh hg now
    obtain rfl := Except.ok.inj (hrun'.symm.trans hrun)
    exact ⟨Λ', hv', Or.inr ht.sub⟩

/-- **Every reachable store refines a lattice.** -/
theorem Ledger.Reachable.valid : ∀ s, Reachable p U s → ∃ Λ : Lattice p, Valid U s Λ := by
  refine Reachable.induction ?_ ?_
  · intro now s hinit
    obtain ⟨s', hinit', hv⟩ := genesisInitialize_valid hass now
    obtain rfl := Except.ok.inj (hinit'.symm.trans hinit)
    exact ⟨_, hv⟩
  · rintro s s' _ ⟨Λ, hv⟩ hstep
    obtain ⟨Λ', hv', _⟩ := hv.step hass hstep
    exact ⟨Λ', hv'⟩

end Steps

/-! ## A sample run

On the test network the genesis account sends 100 raw to another account,
which opens. Two more blocks are offered in the properties: `rival` competes
with the send, and `stray` is a state block of the second
account that names the head of the first as its predecessor. The hashes are
the Blake2b values of the five blocks. -/

namespace Sample

def account : Account := 0x5B3C7D21E9F8460A1B2C3D4E5F60718293A4B5C6D7E8F90A1B2C3D4E5F607182

def genesisHash : BlockHash := 0x04270D7F11C4B2B472F2854C5A59F2A7E84226CE9ED799DE75744BD7D85FC9D9
def sendHash : BlockHash := 0x387571E0CD7085A5DEA1BF0250C9F7C5FBB614AF5ABE0C2B989F8EC1C232E60E
def openHash : BlockHash := 0x5C429CA227A2877D439FACF225835DC425B92987380D56575BB0BB1D381AE8E9
def rivalHash : BlockHash := 0x7558F706E1C4254C353571782C2F1D77E140278EE1E80BEBAA55552E6B6FA8E2
def strayHash : BlockHash := 0x6555A08ED815B9A576B29983FF9EEF5FE8DF3C89A2C0D35CDE582048D94AAEC5

def genesis : Block :=
  .openBlock
    ⟨⟨0xB0311EA55708D6A53C75CDBF88300259C6D018522FE3D4D0A242E431F9E8B6D0,
      0xB0311EA55708D6A53C75CDBF88300259C6D018522FE3D4D0A242E431F9E8B6D0,
      0xB0311EA55708D6A53C75CDBF88300259C6D018522FE3D4D0A242E431F9E8B6D0⟩,
      0xECDA914373A2F0CA1296475BAEE40500A7F0A7AD72A5A80C81D7FAB7F6C802B2CC7DB50F5DD0FB25B2EF11761FA7344A158DD5A700B21BD47DE5BD0F63153A02,
      0x9680625b39d3363d⟩

def send : Block :=
  .sendBlock ⟨⟨genesisHash, account, BitVec.ofNat 128 (2 ^ 128 - 101)⟩, 0, 0⟩

def opens : Block := .openBlock ⟨⟨sendHash, account, account⟩, 0, 0⟩

def rival : Block :=
  .sendBlock ⟨⟨genesisHash, account, BitVec.ofNat 128 (2 ^ 128 - 201)⟩, 0, 0⟩

def stray : Block := .stateBlock ⟨⟨account, sendHash, account, 100, 0⟩, 0, 0⟩

def env : Env where
  blake2b input :=
    if input = genesis.hashInput then genesisHash
    else if input = send.hashInput then sendHash
    else if input = opens.hashInput then openHash
    else if input = rival.hashInput then rivalHash
    else if input = stray.hashInput then strayHash
    else 0
  validateMessage _ _ _ := false
  network := .raiTestNetwork
  trap := false

def all : List Block := [genesis, send, opens, rival, stray]

/-- The blocks of the run. -/
def blocks : Set Block := {b | b ∈ all}

theorem send_mem : send ∈ blocks := show send ∈ all by simp [all]

theorem rival_mem : rival ∈ blocks := show rival ∈ all by simp [all]

theorem stray_mem : stray ∈ blocks := show stray ∈ all by simp [all]

/-- The ledger after `genesis::initialize`. -/
def first : BlockStore := (genesisInitialize env 0 .empty).toOption.getD .empty

/-- The send and the open block make progress. -/
def run : Except Fault (BlockStore × List ProcessResult) :=
  processAll env first [(1, send), (2, opens)]

def store : BlockStore := (run.toOption.getD (.empty, [])).1

theorem assumptions : HashAssumptions env blocks :=
  .of_list List.mem_cons_self (by decide +kernel) (by decide +kernel) (by decide +kernel)

theorem runs_isOk : (genesisInitialize env 0 .empty).isOk = true ∧ run.isOk = true := by
  decide +kernel

theorem first_reachable : Reachable env blocks first :=
  ⟨0, first, eq_ok_getD runs_isOk.1 .empty, .refl⟩

theorem reachable : Reachable env blocks store := by
  have hU : ∀ x ∈ [(1, send), (2, opens)], x.2 ∈ all := by simp [all]
  exact first_reachable.processAll hU (eq_ok_getD runs_isOk.2 (.empty, []))

theorem send_stored : store.blockExists sendHash = true ∧ sendHash ≠ env.genesisHash ∧
    store.frontierGet sendHash = env.genesisAccount ∧ env.genesisAccount ≠ 0 := by
  decide +kernel

theorem open_stored : store.blockExists openHash = true ∧
    store.blockGet openHash = some opens := by
  decide +kernel

end Sample

end RaiBlocks
