import RaiBlocks.Foundation.Worklist
import RaiBlocks.Lib.HashInput
import RaiBlocks.Refinement.Gaps

/-!
# The block processor is a work list

Given the blocks of a larger lattice, and copies of them whose signatures do not
validate, the block processor behaves as a work list with dependencies: keys are
hashes, a key is done when its block is stored, and a block depends on its
predecessor and on the send it receives. A forged copy depends on what is looked
up before its signature is checked.
-/

namespace RaiBlocks

open Foundation Node Worklist Block

variable {c : Clock} {ret : ProcessReturn}

/-! ## Forged copies -/

section Forged

variable {p : Env} {U : Set Block} {Λ Λ' : Lattice p} {s : BlockStore} {e : Entry} {b : Block}
  (hv : Valid U s Λ) (hsub : Λ.Within Λ') (he : Λ'.entry (b.hash p) = some e)
  (hn : Λ.entry (b.hash p) = none) (hinput : b.hashInput = e.block.hashInput)

/-- The first block that `process` looks up and does not find, before it has
come to the signature. -/
def Block.firstMissing (Λ : Lattice p) (b : Block) : Option BlockHash :=
  b.needs.find? fun x => (Λ.entry x).isNone

theorem Block.missing_of_firstMissing {k : BlockHash} (hk : b.firstMissing Λ = some k) :
    k ∈ b.needs ∧ Λ.entry k = none := by
  have hnone := List.find?_some (p := fun x => (Λ.entry x).isNone) hk
  exact ⟨List.mem_of_find?_eq_some hk, Option.isNone_iff_eq_none.mp hnone⟩

theorem Block.stored_of_firstMissing (hk : b.firstMissing Λ = none) {x : BlockHash}
    (hx : x ∈ b.needs) : ∃ o, Λ.entry x = some o := by
  have hnot := List.find?_eq_none.mp hk x hx
  exact Option.ne_none_iff_exists'.mp fun hnone => hnot (by rw [hnone]; rfl)

/-- Copies that both have a gap are put aside under the same block. -/
theorem Block.firstMissing_unique {b' : Block} (hsame : b.hashInput = b'.hashInput)
    {k k' : BlockHash} (hk : b.firstMissing Λ = some k) (hk' : b'.firstMissing Λ = some k') :
    k = k' := by
  rcases hashInput_eq_iff.mp hsame with hsame | hconf
  · have hneeds : ∀ c : Block, c.unsigned.needs = c.needs := by
      intro c
      cases c <;> rfl
    unfold firstMissing at hk hk'
    rw [← hneeds, ← show b.unsigned = b'.unsigned from hsame, hneeds, hk] at hk'
    exact Option.some.inj hk'
  · -- of a receive and a change block, both look for the predecessor first
    obtain ⟨hmem, hmissing⟩ := missing_of_firstMissing hk
    obtain ⟨hmem', hmissing'⟩ := missing_of_firstMissing hk'
    cases hconf with
    | @receiveChange r c hp hs =>
      obtain rfl := List.mem_singleton.mp hmem'
      rw [← hp] at hmissing'
      simp only [firstMissing, needs, List.find?_cons, hmissing', Option.isNone_none] at hk
      rw [← hp]
      exact (Option.some.inj hk).symm
    | @changeReceive r c hp hs =>
      obtain rfl := List.mem_singleton.mp hmem
      rw [← hp] at hmissing
      simp only [firstMissing, needs, List.find?_cons, hmissing, Option.isNone_none] at hk'
      rw [← hp]
      exact Option.some.inj hk'

include hv hsub he hn hinput

/-- **A copy with a gap** is put aside under the first missing block, whatever
its signature. -/
theorem Valid.process_missing {k : BlockHash} (hk : b.firstMissing Λ = some k) (now : ℕ) :
    ∃ ret, Ledger.process p now s b = .ok (s, ret) ∧
      (ret.code = .gapPrevious ∧ b.previous = k ∨
        ret.code = .gapSource ∧ Ledger.blockSource p s b = .ok k) := by
  have hr := hv.refines
  obtain ⟨hmem, hmissing⟩ := missing_of_firstMissing hk
  cases b with
  | stateBlock b => cases hmem
  | openBlock b =>
    obtain rfl := List.mem_singleton.mp hmem
    exact ⟨_, hr.open_gapSource hn hmissing, Or.inr ⟨rfl, rfl⟩⟩
  | sendBlock b =>
    obtain rfl := List.mem_singleton.mp hmem
    exact ⟨_, hr.gapPrevious rfl hn hmissing, Or.inl ⟨rfl, rfl⟩⟩
  | changeBlock b =>
    obtain rfl := List.mem_singleton.mp hmem
    exact ⟨_, hr.gapPrevious rfl hn hmissing, Or.inl ⟨rfl, rfl⟩⟩
  | receiveBlock b =>
    cases hq : Λ.entry b.hashables.previous with
    | none =>
      have hfirst : (receiveBlock b).firstMissing Λ = some b.hashables.previous := by
        simp [firstMissing, needs, hq]
      obtain rfl := Option.some.inj (hfirst.symm.trans hk)
      exact ⟨_, hr.gapPrevious rfl hn hq, Or.inl ⟨rfl, rfl⟩⟩
    | some q =>
      obtain rfl : k = b.hashables.source := by
        rcases List.mem_cons.mp hmem with rfl | hmem
        · cases hmissing.symm.trans hq
        · exact List.mem_singleton.mp hmem
      obtain ⟨hprev, _, _, hlegacy⟩ := hashInput_eq_place hinput
      have hq' : Λ.entry e.block.previous = some q := by
        rw [← hprev]
        exact hq
      have hl := (hsub.follows he hq').legacy (hlegacy ▸ rfl)
      exact ⟨_, hr.receive_gapSource hn hq hl hmissing, Or.inr ⟨rfl, rfl⟩⟩

theorem Valid.process_badSignature
    (hbad : p.validateMessage e.owner (b.hash p) b.blockSignature = true)
    (hneeds : ∀ x ∈ b.needs, ∃ o, Λ.entry x = some o) (now : ℕ) :
    Ledger.process p now s b = .ok (s, .of .badSignature) := by
  have hr := hv.refines
  obtain ⟨hprev, _, haccount, hlegacy⟩ := hashInput_eq_place hinput
  have hown : ∀ a, b.account? = some a → a = e.owner :=
    fun a ha => Lattice.account?_eq he (haccount ▸ ha)
  -- the older kinds stand on a block that is there
  have hon : b.account? = none → b.isLegacy = true → b.previous ∈ b.needs →
      Ledger.process p now s b = .ok (s, .of .badSignature) := by
    intro ha hb hmem
    obtain ⟨q, hq⟩ := hneeds b.previous hmem
    have hq' : Λ.entry e.block.previous = some q := by
      rw [← hprev]
      exact hq
    have hfol := hsub.follows he hq'
    have hhead := hsub.isHead he hn (Λ.ne_zero hq')
    rw [← hprev] at hhead
    exact hr.badSignature ha hn hq (hfol.legacy (hlegacy ▸ hb)) hhead hneeds (hfol.owner ▸ hbad)
  cases b with
  | stateBlock b => exact hr.state_badSignature hn (by rw [hown _ rfl]; exact hbad)
  | openBlock b =>
    exact hr.open_badSignature hn (hneeds _ List.mem_cons_self) (by rw [hown _ rfl]; exact hbad)
  | _ => exact hon rfl rfl List.mem_cons_self

end Forged

/-! ## Blocks as items -/

variable {p : NodeEnv} {U : Set Block} {Λ₀ Λ Λ' : Lattice p.toEnv} {n : Node} {b : Block}
  {σ σ' : NodeState}

/-- The new blocks of `Λ'`, and their copies, as items of a work list. -/
def items (Λ₀ Λ' : Lattice p.toEnv) : Items BlockHash Block where
  key b := b.hash p.toEnv
  deps b := {x | ∃ e, Λ'.entry (b.hash p.toEnv) = some e ∧
    (e.block = b ∧ x ∈ e.dependencies p.toEnv ∨ e.block ≠ b ∧ x ∈ b.needs)}
  genuine := {b | Λ₀.entry (b.hash p.toEnv) = none ∧
    ∃ e, Λ'.entry (b.hash p.toEnv) = some e ∧ e.block = b}

def Stage.hand : Stage → Hand BlockHash Block
  | .idle => .free
  | .taken b _ => .held b
  | .releasing h rest => .releasing h rest

/-- The node as the state of a work list. -/
def NodeState.worklist (σ : NodeState) : State BlockHash Block where
  done := {h | σ.node.store.blockExists h = true}
  queue := σ.node.blocks
  hand := σ.stage.hand
  waiting := {x | x ∈ σ.node.waiting}

/-- The store is on its way to `Λ'`. -/
def Between (U : Set Block) (Λ₀ Λ' : Lattice p.toEnv) (s : BlockStore) : Prop :=
  ∃ Λ : Lattice p.toEnv, Valid U s Λ ∧ Λ₀.Within Λ ∧ Λ.Within Λ'

/-- A new block of `Λ'`, or a copy of one that is not signed by its owner. -/
structure Offered (U : Set Block) (Λ₀ Λ' : Lattice p.toEnv) (b : Block) : Prop where
  mem : b ∈ U
  worked : b.Worked p
  new : Λ₀.entry (b.hash p.toEnv) = none
  copy : ∃ e, Λ'.entry (b.hash p.toEnv) = some e ∧ e.block ∈ U ∧
    (e.block = b ∨ p.validateMessage e.owner (b.hash p.toEnv) b.blockSignature = true)

/-! ## Handling a block -/

theorem Node.handle_false (p : NodeEnv) (c : Clock) (n : Node) (b : Block) :
    n.handle p c b false = n.judge p c b := rfl

theorem Node.judge_progress {s' : BlockStore}
    (hrun : Ledger.process p.toEnv c.secondsSinceEpoch n.store b = .ok (s', ret))
    (hcode : ret.code = .progress) :
    n.judge p c b = .ok ({ n with
      store := s'
      arrival := (n.arrival.recent c.steady (b.hash p.toEnv)).1 }, .progress) := by
  unfold judge
  rw [hrun, ok_bind]
  simp only [hcode]
  rfl

theorem Node.judge_dropped
    (hrun : Ledger.process p.toEnv c.secondsSinceEpoch n.store b = .ok (n.store, ret))
    (hcode : ret.code = .badSignature ∨ ret.code = .old) : n.judge p c b = .ok (n, ret.code) := by
  unfold judge
  rw [hrun, ok_bind]
  rcases hcode with hcode | hcode
  · simp only [hcode]
    rfl
  · simp only [hcode]
    rfl

theorem Node.judge_setAside {deps : Set BlockHash}
    (hrun : Ledger.process p.toEnv c.secondsSinceEpoch n.store b = .ok (n.store, ret))
    (hset : SetAside p.toEnv n.store Λ b deps ret.code) :
    ret.code.releases = false ∧ ∃ k ∈ deps, Λ.entry k = none ∧
      n.judge p c b = .ok (n.uncheckedPut p k b, ret.code) := by
  unfold judge
  rw [hrun, ok_bind]
  cases hset with
  | previous hcode hmem hmissing =>
    refine ⟨by rw [hcode]; rfl, _, hmem, hmissing, ?_⟩
    simp only [hcode]
    rfl
  | @source x hcode hkey hmem hmissing =>
    refine ⟨by rw [hcode]; rfl, x, hmem, hmissing, ?_⟩
    simp only [hcode, hkey, ok_bind]
    rfl

theorem Valid.judge_missing (hv : Valid U n.store Λ) (hsub : Λ.Within Λ') {e : Entry}
    (he : Λ'.entry (b.hash p.toEnv) = some e) (hn : Λ.entry (b.hash p.toEnv) = none)
    (hinput : b.hashInput = e.block.hashInput) {k : BlockHash} (hk : b.firstMissing Λ = some k) :
    ∃ code, code.releases = false ∧ n.judge p c b = .ok (n.uncheckedPut p k b, code) := by
  obtain ⟨hmem, hmissing⟩ := missing_of_firstMissing hk
  obtain ⟨ret, hrun, hgap⟩ := hv.process_missing hsub he hn hinput hk c.secondsSinceEpoch
  have hset : SetAside p.toEnv n.store Λ b {k} ret.code := by
    rcases hgap with ⟨hcode, rfl⟩ | ⟨hcode, hkey⟩
    · exact .previous hcode rfl hmissing
    · exact .source hcode hkey rfl hmissing
  obtain ⟨hrel, k', rfl, _, hjudge⟩ := judge_setAside hrun hset
  exact ⟨_, hrel, hjudge⟩

/-- What handling an offered block comes to. -/
inductive Handled (U : Set Block) (Λ₀ Λ' : Lattice p.toEnv) (n : Node) (b : Block) :
    Node → ProcessResult → Prop
  | old : n.store.blockExists (b.hash p.toEnv) = true → Handled U Λ₀ Λ' n b n .old
  | progress {s' : BlockStore} {arrival : BlockArrival} :
      b ∈ (items Λ₀ Λ').genuine → n.store.blockExists (b.hash p.toEnv) = false →
      (∀ x ∈ (items Λ₀ Λ').deps b, n.store.blockExists x = true) → Between U Λ₀ Λ' s' →
      (∀ x, s'.blockExists x = true ↔ x = b.hash p.toEnv ∨ n.store.blockExists x = true) →
      Handled U Λ₀ Λ' n b { n with store := s', arrival := arrival } .progress
  | wait {k : BlockHash} {code : ProcessResult} : code.releases = false →
      n.store.blockExists (b.hash p.toEnv) = false → k ∈ (items Λ₀ Λ').deps b →
      n.store.blockExists k = false → Handled U Λ₀ Λ' n b (n.uncheckedPut p k b) code
  | drop {code : ProcessResult} : code.releases = false →
      n.store.blockExists (b.hash p.toEnv) = false → b ∉ (items Λ₀ Λ').genuine →
      Handled U Λ₀ Λ' n b n code

theorem handle_offered (hass : HashAssumptions p.toEnv U) (hs : Between U Λ₀ Λ' n.store)
    (hb : Offered U Λ₀ Λ' b) (c : Clock) :
    ∃ n' code, n.handle p c b false = .ok (n', code) ∧ Handled U Λ₀ Λ' n b n' code := by
  obtain ⟨Λ, hv, hbelow, hsub⟩ := hs
  obtain ⟨e, he, heU, hcopy⟩ := hb.copy
  have hr := hv.refines
  rw [handle_false]
  cases hstored : Λ.entry (b.hash p.toEnv) with
  | some q =>
    have hrun : Ledger.process p.toEnv c.secondsSinceEpoch n.store b = .ok (n.store, .of .old) :=
      hr.process_old hstored
    exact ⟨n, .old, judge_dropped hrun (Or.inr rfl), .old (hr.blocks.blockExists_true hstored)⟩
  | none =>
  have hfresh := hr.blocks.blockExists_false hstored
  by_cases hblock : e.block = b
  · -- a block of the larger lattice
    subst hblock
    have hdepsIn : ∀ x, x ∈ (items Λ₀ Λ').deps e.block ↔ x ∈ e.dependencies p.toEnv := by
      intro x
      constructor
      · rintro ⟨e', he', ⟨_, hx⟩ | ⟨hne, _⟩⟩
        · rw [Option.some.inj (he.symm.trans he')]
          exact hx
        · exact absurd (congrArg Entry.block (Option.some.inj (he'.symm.trans he))) hne
      · intro hx
        exact ⟨e, he, Or.inl ⟨rfl, hx⟩⟩
    by_cases hdeps : ∀ x ∈ e.dependencies p.toEnv, ∃ q, Λ.entry x = some q
    · obtain ⟨s', ret, ad, hrun, hcode, hv'⟩ :=
        hv.process_progress hass hsub he hstored heU hdeps c.secondsSinceEpoch
      refine ⟨_, _, judge_progress hrun hcode, .progress ⟨hb.new, e, he, rfl⟩ hfresh ?_
        ⟨_, hv', hbelow.trans (Lattice.within_insert ad), hsub.insert ad he⟩ ?_⟩
      · intro x hx
        obtain ⟨q, hq⟩ := hdeps x ((hdepsIn x).mp hx)
        exact hr.blocks.blockExists_true hq
      · intro x
        rw [hv'.refines.blocks.blockExists, hr.blocks.blockExists, Lattice.insert_entry]
        by_cases hx : x = e.block.hash p.toEnv
        · rw [if_pos hx]
          exact iff_of_true rfl (Or.inl hx)
        · rw [if_neg hx, or_iff_right hx]
    · push Not at hdeps
      obtain ⟨x, hx, hnone⟩ := hdeps
      have hmissing : Λ.entry x = none := by
        cases hq : Λ.entry x with
        | none => rfl
        | some q => exact absurd hq (hnone q)
      obtain ⟨ret, hrun, hset⟩ :=
        hv.process_gap hsub he hstored hx hmissing c.secondsSinceEpoch
      obtain ⟨hrel, k, hk, hkn, hjudge⟩ := judge_setAside hrun hset
      exact ⟨_, _, hjudge, .wait hrel hfresh ((hdepsIn k).mpr hk)
        (hr.blocks.blockExists_false hkn)⟩
  · -- a copy with a bad signature
    have hbad := hcopy.resolve_left hblock
    have hinput := hass.collision_free hb.mem heU (Λ'.hash_eq he).symm
    cases hk : b.firstMissing Λ with
    | none =>
      have hrun := hv.process_badSignature hsub he hstored hinput hbad
        (fun x => stored_of_firstMissing hk) c.secondsSinceEpoch
      refine ⟨n, _, judge_dropped hrun (Or.inl rfl), .drop rfl hfresh ?_⟩
      rintro ⟨_, e', he', hblock'⟩
      rw [Option.some.inj (he'.symm.trans he)] at hblock'
      exact hblock hblock'
    | some k =>
      obtain ⟨hmem, hmissing⟩ := missing_of_firstMissing hk
      obtain ⟨code, hcode, hjudge⟩ :=
        hv.judge_missing hsub he hstored hinput hk (c := c) (n := n)
      exact ⟨_, _, hjudge, .wait hcode hfresh ⟨e, he, Or.inr ⟨hblock, hmem⟩⟩
        (hr.blocks.blockExists_false hmissing)⟩

/-! ## Steps -/

/-- A node that has nothing but offered blocks. -/
structure Tame (U : Set Block) (Λ₀ Λ' : Lattice p.toEnv) (σ : NodeState) : Prop where
  between : Between U Λ₀ Λ' σ.node.store
  unforced : σ.node.forced = []
  plain : ∀ b force, σ.stage = .taken b force → force = false
  offered : ∀ b, Holds σ.worklist b → Offered U Λ₀ Λ' b

theorem Node.front_of_unforced {n n' : Node} {force : Bool} (hn : n.forced = [])
    (hf : n.front = some (b, force, n')) :
    force = false ∧ n.blocks = b :: n'.blocks ∧ n' = { n with blocks := n'.blocks } := by
  unfold front at hf
  rw [hn] at hf
  cases hb : n.blocks with
  | nil =>
    rw [hb] at hf
    cases hf
  | cons x rest =>
    rw [hb] at hf
    cases hf
    exact ⟨rfl, rfl, by rw [hn]⟩

theorem lists_of_perm {h : BlockHash} {l : List Block} (hl : l.Perm (n.uncheckedGet h)) :
    Lists {x | x ∈ n.waiting} h l := by
  intro a
  rw [hl.mem_iff]
  exact mem_uncheckedGet

section Steps

variable (hass : HashAssumptions p.toEnv U)

include hass

/-- A block in hand is handled as an item of the work list. -/
theorem Tame.handle {n n' : Node} {force : Bool} {code : ProcessResult} {c : Clock}
    (ht : Tame U Λ₀ Λ' ⟨n, .taken b force⟩) (hrun : n.handle p c b force = .ok (n', code)) :
    Handled U Λ₀ Λ' n b n' code := by
  obtain rfl := ht.plain b force rfl
  obtain ⟨n'', code', hrun', hh⟩ := handle_offered hass ht.between (ht.offered b (.held rfl)) c
  obtain ⟨rfl, rfl⟩ := Prod.mk.inj (Except.ok.inj (hrun'.symm.trans hrun))
  exact hh

/-- **Every step of the processor is one of the work list.** -/
theorem Tame.step_worklist (ht : Tame U Λ₀ Λ' σ) (hstep : NodeStep p σ σ') :
    Step (items Λ₀ Λ') σ.worklist σ'.worklist := by
  cases hstep with
  | @take n n' b force hf =>
    obtain ⟨_, hblocks, hn'⟩ := front_of_unforced ht.unforced hf
    have hstart : NodeState.worklist ⟨n, .idle⟩ = ⟨{h | n.store.blockExists h = true},
        b :: n'.blocks, .free, {x | x ∈ n.waiting}⟩ := by
      unfold NodeState.worklist
      rw [hblocks]
      rfl
    rw [hstart, hn']
    exact .take
  | @settle n n' b force code c hrun hcode =>
    cases ht.handle hass hrun with
    | old _ => cases hcode
    | progress _ _ _ _ _ => cases hcode
    | @wait k code _ hfresh hk hmissing =>
      have hfresh' : b.hash p.toEnv ∉ {h | n.store.blockExists h = true} := by simp [hfresh]
      have hmissing' : k ∉ {h | n.store.blockExists h = true} := by simp [hmissing]
      rcases uncheckedPut_cases p n k b with ⟨hput, x, hx, hhash⟩ | hput
      · rw [hput]
        exact .duplicate hfresh' hk hmissing' hx hhash
      · rw [hput]
        have hinsert : {x | x ∈ (k, b) :: n.uncheckedCache ++ n.unchecked} =
            insert (k, b) {x | x ∈ n.waiting} := by
          ext x
          simp [waiting]
        have hend : NodeState.worklist
            ⟨{ n with uncheckedCache := (k, b) :: n.uncheckedCache }, .idle⟩ =
            ⟨{h | n.store.blockExists h = true}, n.blocks, .free,
              insert (k, b) {x | x ∈ n.waiting}⟩ := by
          rw [← hinsert]
          rfl
        rw [hend]
        exact .wait hfresh' hk hmissing'
    | drop _ hfresh hno => exact .drop hno (by simp [items, hfresh])
  | @unlock n n' b force code l c hrun hcode hl =>
    have hlists := lists_of_perm hl
    cases ht.handle hass hrun with
    | old hstored => exact .old hstored hlists
    | @progress s' arrival hgen hfresh hdeps _ hiff =>
      have hdone : {h | s'.blockExists h = true} =
          insert (b.hash p.toEnv) {h | n.store.blockExists h = true} := by
        ext x
        exact hiff x
      have hend : NodeState.worklist ⟨{ n with store := s', arrival := arrival },
          .releasing (b.hash p.toEnv) l⟩ =
          ⟨insert (b.hash p.toEnv) {h | n.store.blockExists h = true}, n.blocks,
            .releasing (b.hash p.toEnv) l, {x | x ∈ n.waiting}⟩ := by
        rw [← hdone]
        rfl
      rw [hend]
      exact .accept hgen (by simp [items, hfresh]) hdeps hlists
    | wait hno _ _ _ => cases hno.symm.trans hcode
    | drop hno _ _ => cases hno.symm.trans hcode
  | @release n n' h b rest hrel =>
    obtain ⟨_, rfl⟩ := of_add hrel
    have hdel : {x | x ∈ (n.uncheckedDel h b).waiting} = {x | x ∈ n.waiting} \ {(h, b)} := by
      ext ⟨k, x⟩
      exact mem_waiting_uncheckedDel
    have hend : NodeState.worklist
        ⟨{ n.uncheckedDel h b with blocks := b :: n.blocks }, .releasing h rest⟩ =
        ⟨{h | n.store.blockExists h = true}, b :: n.blocks, .releasing h rest,
          {x | x ∈ n.waiting} \ {(h, b)}⟩ := by
      rw [← hdel]
      rfl
    show Step (items Λ₀ Λ') _ (NodeState.worklist
      ⟨{ n.uncheckedDel h b with blocks := b :: n.blocks }, .releasing h rest⟩)
    rw [hend]
    exact .release
  | @finish n h => exact .finish

theorem Tame.step (ht : Tame U Λ₀ Λ' σ) (hstep : NodeStep p σ σ') : Tame U Λ₀ Λ' σ' := by
  have hwork := ht.step_worklist hass hstep
  have hoffered : ∀ b, Holds σ'.worklist b → Offered U Λ₀ Λ' b :=
    fun b hb => ht.offered b (hwork.holds hb)
  cases hstep with
  | @take n n' b force hf =>
    obtain ⟨hforce, _, hn'⟩ := front_of_unforced ht.unforced hf
    refine ⟨?_, ?_, fun x f hx => ?_, hoffered⟩
    · rw [hn']
      exact ht.between
    · rw [hn']
      exact ht.unforced
    · cases hx
      exact hforce
  | @settle n n' b force code c hrun hcode =>
    cases ht.handle hass hrun with
    | old _ => cases hcode
    | progress _ _ _ _ _ => cases hcode
    | @wait k code _ _ _ _ =>
      refine ⟨?_, ?_, (fun x f hx => by cases hx), hoffered⟩
      · show Between U Λ₀ Λ' (n.uncheckedPut p k b).store
        rw [uncheckedPut_store]
        exact ht.between
      · rcases uncheckedPut_cases p n k b with ⟨hput, _⟩ | hput
        · rw [hput]
          exact ht.unforced
        · rw [hput]
          exact ht.unforced
    | drop _ _ _ => exact ⟨ht.between, ht.unforced, (fun x f hx => by cases hx), hoffered⟩
  | @unlock n n' b force code l c hrun hcode hl =>
    cases ht.handle hass hrun with
    | old _ => exact ⟨ht.between, ht.unforced, (fun x f hx => by cases hx), hoffered⟩
    | progress _ _ _ hbetween _ =>
      exact ⟨hbetween, ht.unforced, (fun x f hx => by cases hx), hoffered⟩
    | wait hno _ _ _ => cases hno.symm.trans hcode
    | drop hno _ _ => cases hno.symm.trans hcode
  | @release n n' h b rest hrel =>
    obtain ⟨_, rfl⟩ := of_add hrel
    exact ⟨ht.between, ht.unforced, (fun x f hx => by cases hx), hoffered⟩
  | finish => exact ⟨ht.between, ht.unforced, (fun x f hx => by cases hx), hoffered⟩

theorem Tame.not_fails (ht : Tame U Λ₀ Λ' σ) : ¬ σ.Fails p := by
  intro hf
  cases hf with
  | @handle n b force fault c hrun =>
    obtain rfl := ht.plain b force rfl
    obtain ⟨n', code, hrun', _⟩ := handle_offered hass ht.between (ht.offered b (.held rfl)) c
    cases hrun'.symm.trans hrun
  | @release n h b rest fault hrel =>
    have hoff := ht.offered b (.releasing rfl List.mem_cons_self)
    unfold release at hrel
    rw [add_eq hoff.worked] at hrel
    cases hrel

/-! ## Runs -/

/-- A node with empty queues and nothing unchecked. -/
structure Node.Fresh (n : Node) : Prop where
  uncheckedCache : n.uncheckedCache = []
  unchecked : n.unchecked = []
  blocks : n.blocks = []
  forced : n.forced = []

omit hass in
theorem Node.Fresh.worklist {n : Node} (hn : n.Fresh) :
    NodeState.worklist ⟨n, .idle⟩ = ⟨{h | n.store.blockExists h = true}, [], .free, ∅⟩ := by
  unfold NodeState.worklist waiting
  simp only [hn.uncheckedCache, hn.unchecked, hn.blocks]
  congr 1
  ext x
  simp

omit hass in
theorem Node.Fresh.tame {n : Node} (hn : n.Fresh) (hv : Valid U n.store Λ₀)
    (hsub : Λ₀.Within Λ') : Tame U Λ₀ Λ' ⟨n, .idle⟩ := by
  refine ⟨⟨Λ₀, hv, Lattice.Within.refl Λ₀, hsub⟩, hn.forced, (fun b f hb => by cases hb), ?_⟩
  intro b hb
  rw [hn.worklist] at hb
  rcases hb with hq | hheld | ⟨hr, _⟩ | hw
  · cases hq
  · cases hheld
  · cases hr
  · cases hw

omit hass in
theorem Tame.add {n : Node} {stage : Stage} (ht : Tame U Λ₀ Λ' ⟨n, stage⟩)
    (hb : Offered U Λ₀ Λ' b) : Tame U Λ₀ Λ' ⟨{ n with blocks := b :: n.blocks }, stage⟩ := by
  refine ⟨ht.between, ht.unforced, ht.plain, fun x hx => ?_⟩
  rcases hx with hq | hheld | ⟨hr, hmem⟩ | hw
  · rcases List.mem_cons.mp hq with rfl | hq
    · exact hb
    · exact ht.offered x (.queued hq)
  · exact ht.offered x (.held hheld)
  · exact ht.offered x (.releasing hr hmem)
  · exact ht.offered x (.waiting hw)

omit hass in
theorem worklist_flush (n : Node) :
    NodeState.worklist ⟨n.flush, .idle⟩ = NodeState.worklist ⟨n, .idle⟩ := by
  unfold NodeState.worklist
  simp [flush, waiting]

/-- **A run of the node is a run of the work list.** -/
theorem Tame.run {σ₀ : NodeState} (h₀ : Tame U Λ₀ Λ' σ₀) {inputs : List Input}
    (hrun : NodeRun p σ₀ inputs σ) : ∀ blocks : List Block, inputs = blocks.map .add →
    (∀ b ∈ blocks, Offered U Λ₀ Λ' b) →
    Tame U Λ₀ Λ' σ ∧ Run (items Λ₀ Λ') σ₀.worklist blocks σ.worklist := by
  induction hrun with
  | start =>
    intro blocks hin _
    obtain rfl := List.map_eq_nil_iff.mp hin.symm
    exact ⟨h₀, .start⟩
  | @give inputs n n' stage i _ hgive ih =>
    intro blocks hin hoff
    obtain ⟨l, l', rfl, hl, hl'⟩ := List.map_eq_append_iff.mp hin.symm
    obtain ⟨b, rfl, hi⟩ := List.map_eq_singleton_iff.mp hl'
    subst hi
    obtain ⟨ht, hwork⟩ := ih l hl.symm fun x hx => hoff x (List.mem_append_left _ hx)
    obtain ⟨_, rfl⟩ := of_add hgive
    exact ⟨ht.add (hoff b (List.mem_append_right _ List.mem_cons_self)), hwork.give b⟩
  | step _ hstep ih =>
    intro blocks hin hoff
    obtain ⟨ht, hwork⟩ := ih blocks hin hoff
    exact ⟨ht.step hass hstep, hwork.step (ht.step_worklist hass hstep)⟩
  | @flush inputs n _ ih =>
    intro blocks hin hoff
    obtain ⟨ht, hwork⟩ := ih blocks hin hoff
    rw [worklist_flush]
    refine ⟨⟨ht.between, ht.unforced, (fun b f hb => by cases hb), fun b hb => ?_⟩, hwork⟩
    rw [worklist_flush] at hb
    exact ht.offered b hb

theorem Tame.leads {blocks : List Block} {D₀ : Set BlockHash} (ht : Tame U Λ₀ Λ' σ)
    (hlist : Run (items Λ₀ Λ') ⟨D₀, [], .free, ∅⟩ blocks σ.worklist)
    (hfin : (items Λ₀ Λ').genuine.Finite) :
    Leads p (fun τ => τ.AtRest ∧ Tame U Λ₀ Λ' τ ∧
      Run (items Λ₀ Λ') ⟨D₀, [], .free, ∅⟩ blocks τ.worklist) σ := by
  have hacc := (hlist.inv (Inv.empty D₀)).acc hfin
  generalize hw : σ.worklist = w at hacc
  induction hacc generalizing σ with
  | intro w _ ih =>
    subst hw
    by_cases hrest : σ.AtRest
    · exact .now ⟨hrest, ht, hlist⟩
    · refine .later hrest (ht.not_fails hass) fun σ' hstep => ?_
      have hwork := ht.step_worklist hass hstep
      exact ih _ hwork (ht.step hass hstep) (hlist.step hwork) rfl

/-- **The processor comes to rest** without a failure, and its work so far is a
run of the work list. -/
theorem Node.Fresh.leads (hn : n.Fresh) (hv : Valid U n.store Λ₀) (hsub : Λ₀.Within Λ')
    (hfin : (items Λ₀ Λ').genuine.Finite) {inputs : List Block}
    (hoffered : ∀ b ∈ inputs, Offered U Λ₀ Λ' b)
    (hrun : NodeRun p ⟨n, .idle⟩ (inputs.map .add) σ) :
    Leads p (fun τ => τ.AtRest ∧ Tame U Λ₀ Λ' τ ∧ Run (items Λ₀ Λ')
      ⟨{h | n.store.blockExists h = true}, [], .free, ∅⟩ inputs τ.worklist) σ := by
  obtain ⟨ht, hlist⟩ := (hn.tame hv hsub).run hass hrun inputs rfl hoffered
  rw [hn.worklist] at hlist
  exact ht.leads hass hlist hfin

end Steps

end RaiBlocks
