import RaiBlocks.Node.Arrivals
import RaiBlocks.Refinement.Forks
import RaiBlocks.Refinement.Refusals

/-!
# Forcing a winner

A block that has won its election is forced: whatever stands on its root is
rolled back, with all that depends on it, and only then is the block looked at.
When the ledger refuses it, the root is left empty.
-/

namespace RaiBlocks

open Foundation Signed

/-! ## The block on a root -/

/-- No block has this root. -/
def Lattice.RootFree {p : Env} (Λ : Lattice p) (root : Uint256) : Prop :=
  ∀ y e, Λ.entry y = some e → e.block.root ≠ root

section Successor

variable {p : Env} {U : Set Block} {Λ : Lattice p} {s : BlockStore} (hr : Refines U s Λ)

include hr

theorem Refines.accountGet_stored {h : BlockHash} {e : Entry} (he : Λ.entry h = some e) :
    s.accountGet h = none := by
  refine hr.accounts.lookup_none_iff.mpr fun x ex hx hown => ?_
  rw [← hown, Λ.owner_unstored hx] at he
  cases he

/-- `ledger::successor` finds the block with this root. -/
theorem Refines.successor_taken {y : BlockHash} {e : Entry} (he : Λ.entry y = some e) :
    Ledger.successor s e.block.root = .ok (some e.block) := by
  have hget := hr.blocks.blockGet_some he
  unfold Ledger.successor
  rcases Lattice.first_or_follows he with hf | ⟨q, hq, hfol⟩
  · obtain ⟨info, hi⟩ := hr.accounts.complete he
    obtain ⟨e', hd⟩ := hr.accounts.sound hi
    obtain ⟨o, ho, hown, hp⟩ := hd.opened
    obtain rfl : info.openBlock = y := by
      refine Λ.root_inj ho he ?_
      rw [(Lattice.first_of_previous_eq ho hp).root, hf.root, hown]
    have hrow : s.accountGet e.owner = some info := hi
    rw [hf.root, hrow]
    dsimp only
    rw [if_pos (Λ.ne_zero he), hget, Option.isSome_some, Bool.or_true]
    rfl
  · rw [Block.root_of_previous_ne (Λ.ne_zero hq), hr.accountGet_stored hq,
      hr.blocks.successor_of_previous he rfl (Λ.ne_zero hq)]
    dsimp only
    rw [if_pos (Λ.ne_zero he), hget, Option.isSome_some, Bool.or_true]
    rfl

theorem Refines.successor_free {root : Uint256} (hfree : Λ.RootFree root) :
    Ledger.successor s root = .ok none := by
  have hrow : s.accountGet root = none := by
    cases hi : s.accountGet root with
    | none => rfl
    | some info =>
      obtain ⟨e, hd⟩ := hr.accounts.sound hi
      obtain ⟨o, ho, hown, hp⟩ := hd.opened
      exact absurd ((Lattice.first_of_previous_eq ho hp).root.trans hown) (hfree _ o ho)
  have hsucc : s.blockSuccessor root = 0 := by
    cases hq : Λ.entry root with
    | none => exact hr.blocks.blockSuccessor_none hq
    | some q =>
      refine hr.blocks.successor_of_isHead hq fun x ex hx hp => hfree x ex hx ?_
      rw [Block.root_of_previous_ne (hp ▸ Λ.ne_zero hq), hp]
  unfold Ledger.successor
  rw [hrow, hsucc]
  rfl

end Successor

/-! ## Refusals on a free root -/

/-- A signed state block of an open account that stands on the last block of
another account. -/
def Stray (p : Env) (S : BlockSet) (b : Block) : Prop :=
  ∃ c : StateBlock, b = .stateBlock c ∧
    p.validateMessage c.hashables.account (b.hash p) c.signature = false ∧
    (∃ h, S.Owner h c.hashables.account) ∧
    ∃ a, a ≠ c.hashables.account ∧ S.LastOf a c.hashables.previous

section Refusal

variable {p : Env} {U : Set Block} {Λ : Lattice p} {s : BlockStore} {b : Block} {now : ℕ}
  {r : BlockStore × ProcessReturn} (hr : Refines U s Λ) (hfresh : Λ.entry (b.hash p) = none)

include hr hfresh

theorem Refines.stray_of_fork (hfree : Λ.RootFree b.root)
    (hrun : Ledger.process p now s b = .ok r) (hout : Outcome now s Λ b r)
    (hfork : r.2.code = .fork) : Stray p Λ.blocks b := by
  cases hout with
  | accepted _ _ hcode => cases hfork.symm.trans hcode
  | refused _ _ hcontested =>
    obtain ⟨_, hplace⟩ := hcontested hfork
    cases hplace with
    | followed hq hh =>
      obtain ⟨y, ey, hy, hp⟩ := Lattice.exists_next_of_not_isHead hh
      have h0 := Λ.ne_zero hq
      refine absurd ?_ (hfree y ey hy)
      rw [Block.root_of_previous_ne h0, Block.root_of_previous_ne (hp ▸ h0), hp]
    | @opened a hp ha hopen =>
      cases hi : s.accountGet a with
      | none => exact absurd (hr.accounts.lookup_none_iff.mp hi) hopen
      | some info =>
        obtain ⟨e, hd⟩ := hr.accounts.sound hi
        obtain ⟨o, ho, hown, hp'⟩ := hd.opened
        refine absurd ?_ (hfree _ o ho)
        rw [Block.root_of_previous_eq hp ha, (Lattice.first_of_previous_eq ho hp').root, hown]
    | @foreign q hstate hq hh =>
      cases b with
      | stateBlock c =>
        obtain ⟨hsigned, info, hi, hhead⟩ :=
          (stateBlockImpl_code (hr.blocks.blockExists_false hfresh) _ hrun).fork hfork
        obtain ⟨e, hd⟩ := hr.accounts.sound hi
        refine ⟨c, rfl, hsigned, ⟨info.head, Lattice.owner_iff.mpr ⟨e, hd.head, hd.owner⟩⟩,
          q.owner, fun hown => ?_, Lattice.lastOf_iff.mpr ⟨q, hq, rfl, hh⟩⟩
        obtain ⟨info', hi', heq, _⟩ := hr.accounts.of_head hq hh
        rw [hown] at hi'
        obtain rfl := Option.some.inj (hi.symm.trans hi')
        rcases hhead with h0 | hne
        · exact Λ.ne_zero hq h0
        · exact hne heq.symm
      | _ => cases hstate

theorem Refines.fork_of_stray (now : ℕ) (hstray : Stray p Λ.blocks b) :
    ∃ ret, Ledger.process p now s b = .ok (s, ret) ∧ ret.code = .fork := by
  obtain ⟨c, rfl, hsigned, ⟨h, howner⟩, a, hne, hlast⟩ := hstray
  obtain ⟨o, ho, hown⟩ := Lattice.owner_iff.mp howner
  obtain ⟨q, hq, rfl, hh⟩ := Lattice.lastOf_iff.mp hlast
  obtain ⟨info, hi⟩ := hr.accounts.complete ho
  rw [hown] at hi
  obtain ⟨e, hd⟩ := hr.accounts.sound hi
  have hhead : c.hashables.previous ≠ info.head := by
    intro heq
    have he := hd.head
    rw [← heq, hq] at he
    rw [← Option.some.inj he] at hd
    exact hne hd.owner
  have h0 : c.hashables.account ≠ 0 := hown ▸ (Λ.sound ho).1
  rw [hr.process_state hfresh hsigned h0,
    stateBlockPosition_eq hi hd (Λ.ne_zero hq) (hr.blocks.blockExists_true hq), ok_bind,
    if_neg hhead]
  exact ⟨_, stateBlockFinish_refused (by simp), rfl⟩

/-- The key of a block without its source can be read. -/
theorem Refines.blockSource_ok (hrun : Ledger.process p now s b = .ok r)
    (hcode : r.2.code = .gapSource) : ∃ x, Ledger.blockSource p s b = .ok x := by
  cases b with
  | stateBlock c =>
    rcases (stateBlockImpl_code (hr.blocks.blockExists_false hfresh) _ hrun).gapSource hcode with
      hp | hexists
    · exact ⟨_, blockSource_stateOpen hp⟩
    · rw [hr.blocks.blockExists] at hexists
      obtain ⟨q, hq⟩ := Option.isSome_iff_exists.mp hexists
      simp only [Ledger.blockSource, Ledger.isSend]
      rw [if_pos (Λ.ne_zero hq), (hr.blocks.readable hr.blocksInfo).balance hq]
      exact ⟨_, rfl⟩
  | _ => exact ⟨_, rfl⟩

end Refusal

/-! ## Releasing what waits -/

section Release

variable {p : NodeEnv} {h : BlockHash}

/-- Everything that waits for `h` has valid work. -/
def Node.Releases (p : NodeEnv) (n : Node) (h : BlockHash) : Prop :=
  ∀ x, (h, x) ∈ n.waiting → x.Worked p

theorem Node.releases_iff {n : Node} :
    n.Releases p h ↔ ∀ x ∈ n.uncheckedGet h, x.Worked p := by
  unfold Node.Releases
  simp only [Node.mem_uncheckedGet]

/-- Blocks are released exactly if all have valid work. -/
theorem release_ok_iff {l : List Block} {n : Node} :
    (∃ n', l.foldlM (Node.release p h) n = .ok n') ↔ ∀ x ∈ l, x.Worked p := by
  refine foldlM_ok_iff (fun n x _ => ?_) n
  constructor
  · rintro ⟨n', hrel⟩
    exact (Node.of_add hrel).1
  · intro hx
    exact ⟨_, Node.add_eq hx⟩

theorem store_of_release {l : List Block} {n n' : Node}
    (h : l.foldlM (Node.release p h) n = .ok n') : n'.store = n.store := by
  refine foldlM_invariant (P := fun t => t.store = n.store) (fun t t' x _ ht hrel => ?_) rfl h
  obtain ⟨-, rfl⟩ := Node.of_add hrel
  exact ht

/-- **`queue_unchecked` goes through** exactly if everything has valid work. -/
theorem Node.queueUnchecked_iff {n : Node} {Q : BlockStore → Prop} :
    (∃ n', n.queueUnchecked p h = .ok n' ∧ Q n'.store) ↔ Q n.store ∧ n.Releases p h := by
  rw [Node.releases_iff]
  constructor
  · rintro ⟨n', hrun, hq⟩
    exact ⟨store_of_release hrun ▸ hq, release_ok_iff.mp ⟨n', hrun⟩⟩
  · rintro ⟨hq, hall⟩
    obtain ⟨n', hrun⟩ := (release_ok_iff (n := n)).mpr hall
    exact ⟨n', hrun, store_of_release hrun ▸ hq⟩

end Release

/-! ## Handling a forced block -/

section Force

variable {p : NodeEnv} {U : Set Block} {Λ : Lattice p.toEnv} {n : Node} {b : Block}

theorem Node.receiveLoop_force (clock : ℕ → Clock) :
    (n.force b).receiveLoop p clock 1 = n.receive p (clock 0) b true := by
  have hfront : (n.force b).front = some (b, true, n) := rfl
  unfold Node.receiveLoop
  rw [hfront]
  dsimp only
  cases n.receive p (clock 0) b true <;> rfl

/-- After the replacement, the block is judged and what waits for it released. -/
theorem Node.receive_forced {c : Clock} {n₁ : Node} (hreplace : n.replace p c b = .ok n₁) :
    n.receive p c b true = (n₁.judge p c b >>= fun r =>
      if r.2.releases then r.1.queueUnchecked p (b.hash p.toEnv) else .ok r.1) := by
  rw [Node.receive_eq]
  unfold Node.handle
  rw [if_pos rfl, hreplace]
  rfl

variable (hass : HashAssumptions p.toEnv U) (hv : Valid U n.store Λ) (hb : b ∈ U)

include hv

theorem Valid.replace_free (hfree : Λ.RootFree b.root) (c : Clock) : n.replace p c b = .ok n := by
  unfold Node.replace
  rw [hv.refines.successor_free hfree]
  rfl

theorem Valid.replace_same {e : Entry} (he : Λ.entry (b.hash p.toEnv) = some e)
    (hroot : e.block.root = b.root) (c : Clock) : n.replace p c b = .ok n := by
  unfold Node.replace
  rw [← hroot, hv.refines.successor_taken he, ok_bind]
  dsimp only
  rw [if_neg (not_not.mpr (Λ.hash_eq he))]
  rfl

theorem Valid.replace_other {y : BlockHash} {e : Entry} (he : Λ.entry y = some e)
    (hroot : e.block.root = b.root) (hne : y ≠ b.hash p.toEnv) (c : Clock) :
    n.replace p c b = (Ledger.rollback p.toEnv c.secondsSinceEpoch n.store y >>= fun store =>
      .ok { n with store := store }) := by
  unfold Node.replace
  rw [← hroot, hv.refines.successor_taken he, ok_bind]
  dsimp only
  rw [if_pos (by rw [Λ.hash_eq he]; exact hne), Λ.hash_eq he]
  rfl

/-- `process_fork` does not find an opponent of a stray block. -/
theorem Valid.processFork_stray (hfresh : Λ.entry (b.hash p.toEnv) = none)
    (hstray : Stray p.toEnv Λ.blocks b) : n.processFork p b = .error .assertion := by
  have hr := hv.refines
  obtain ⟨c, rfl, _, _, a, _, hlast⟩ := hstray
  obtain ⟨q, hq, _, hh⟩ := Lattice.lastOf_iff.mp hlast
  have hroot : (Block.stateBlock c).root = c.hashables.previous :=
    Block.root_of_previous_ne (b := .stateBlock c) (Λ.ne_zero hq)
  unfold Node.processFork
  rw [hr.blocks.blockExists_false hfresh, hroot, hr.blocks.blockExists_true hq, Bool.true_or,
    Bool.not_false, Bool.and_true, if_pos rfl,
    forkedBlock_foreign (b := .stateBlock c) hr hfresh hq hh]
  rfl

include hass hb

/-- A refused block on a free root passes, unless it is a stray fork that did not
arrive just now: then an assertion fails. -/
theorem Valid.judge_refused_iff (hfresh : Λ.entry (b.hash p.toEnv) = none)
    (hfree : Λ.RootFree b.root)
    (hno : ∀ e, e.block = b → ¬ Λ.Admissible (b.hash p.toEnv) e) (c : Clock) :
    (∃ n' code, n.judge p c b = .ok (n', code)) ↔
      (Stray p.toEnv Λ.blocks b → (n.arrival.recent c.steady (b.hash p.toEnv)).2 = true) := by
  have hr := hv.refines
  obtain ⟨r, hrun, hout⟩ := hv.process hass hb c.secondsSinceEpoch
  have hfork : Stray p.toEnv Λ.blocks b → r.2.code = .fork := by
    intro hstray
    obtain ⟨ret, hrun', hcode⟩ := hr.fork_of_stray hfresh c.secondsSinceEpoch hstray
    rw [Except.ok.inj (hrun.symm.trans hrun')]
    exact hcode
  have hstray := hr.stray_of_fork hfresh hfree hrun hout
  have hold := process_ne_old (hr.blocks.blockExists_false hfresh) r hrun
  have hsource := hr.blockSource_ok hfresh hrun
  cases hout with
  | accepted ad hblock _ _ _ _ => exact absurd ad (hno _ hblock)
  | @refused ret hne _ _ =>
    unfold Node.judge
    rw [hrun, ok_bind]
    dsimp only at hne hold hfork hstray hsource ⊢
    cases hcode : ret.code with
    | progress => exact absurd hcode hne
    | old => exact absurd hcode hold
    | gapSource =>
      obtain ⟨x, hx⟩ := hsource hcode
      rw [hx]
      exact iff_of_true ⟨_, _, rfl⟩ fun h => by cases hcode.symm.trans (hfork h)
    | fork =>
      cases hrecent : (n.arrival.recent c.steady (b.hash p.toEnv)).2 with
      | true => exact iff_of_true ⟨_, _, rfl⟩ fun _ => rfl
      | false =>
        refine iff_of_false ?_ fun h => by cases h (hstray hcode)
        rintro ⟨n', code, hjudge⟩
        rw [Bool.not_false, if_pos rfl] at hjudge
        obtain ⟨_, hok, _⟩ := bind_eq_ok hjudge
        rw [Valid.processFork_stray (n := { n with
          arrival := (n.arrival.recent c.steady (b.hash p.toEnv)).1 }) hv hfresh
          (hstray hcode)] at hok
        cases hok
    | _ => exact iff_of_true ⟨_, _, rfl⟩ fun h => by cases hcode.symm.trans (hfork h)

/-- A refused block leaves the ledger as it is, and releases nothing. -/
theorem Valid.of_judge_refused (hfresh : Λ.entry (b.hash p.toEnv) = none)
    (hno : ∀ e, e.block = b → ¬ Λ.Admissible (b.hash p.toEnv) e) {c : Clock} {n' : Node}
    {code : ProcessResult} (hjudge : n.judge p c b = .ok (n', code)) :
    n'.store = n.store ∧ code.releases = false := by
  obtain ⟨⟨ret, hprocess, rfl⟩, _⟩ := Node.of_judge hjudge
  have hold := process_ne_old (hv.refines.blocks.blockExists_false hfresh) _ hprocess
  obtain ⟨r, hrun, hout⟩ := hv.process hass hb c.secondsSinceEpoch
  have heq := Except.ok.inj (hrun.symm.trans hprocess)
  cases hout with
  | accepted ad hblock _ _ _ _ => exact absurd ad (hno _ hblock)
  | @refused ret hne _ _ =>
    obtain ⟨hstore, rfl⟩ := Prod.mk.inj heq
    refine ⟨hstore.symm, ?_⟩
    cases hcode : ret.code with
    | progress => exact absurd hcode hne
    | old => exact absurd hcode hold
    | _ => rfl

theorem Valid.receive_admissible_iff {e : Entry} (ad : Λ.Admissible (b.hash p.toEnv) e)
    (hblock : e.block = b) (c : Clock) {Q : BlockStore → Prop}
    (hQ : ∀ s, s.blockGet (b.hash p.toEnv) = some b → Q s) :
    (∃ n', (n.judge p c b >>= fun r =>
      if r.2.releases then r.1.queueUnchecked p (b.hash p.toEnv) else .ok r.1) = .ok n' ∧
        Q n'.store) ↔ n.Releases p (b.hash p.toEnv) := by
  obtain ⟨r, hrun, hout⟩ := hv.process hass hb c.secondsSinceEpoch
  cases hout with
  | refused _ hno _ => exact absurd ad (hno e hblock)
  | @accepted s' ret e' ad' hblock' hcode _ _ hi =>
    rw [Node.judge_progress hrun hcode, ok_bind]
    simp only [ProcessResult.releases, if_true]
    rw [Node.queueUnchecked_iff]
    have hv' := hv.accepted hass ad' (hblock' ▸ hb) hi
    have hget : s'.blockGet (b.hash p.toEnv) = some b := by
      rw [hv'.refines.blocks.blockGet_some (Lattice.insert_entry_self ad'), hblock']
    exact and_iff_right (hQ s' hget)

end Force

/-! ## The law -/

/-- The blocks that are left when `y` is rolled back. -/
noncomputable def BlockSet.without (p : Env) (S : BlockSet) (y : BlockHash) : BlockSet :=
  open Classical in fun x => if S.Dependents p x y then none else S x

/-- The forced block `b` can take its place: it is there; its root is free, and it
is no stray fork that would fail an assertion; or the ledger would accept it
without the block on its root and all that depends on that one. What waits for it
has valid work if it is going to be released. -/
inductive Replaceable (p : NodeEnv) (c : Clock) (n : Node) (b : Block) : Prop
  | stored : n.store.blockExists (b.hash p.toEnv) = true → n.Releases p (b.hash p.toEnv) →
      Replaceable p c n b
  | free : n.store.blockExists (b.hash p.toEnv) = false →
      (∀ y x, n.store.blockGet y = some x → x.root ≠ b.root) →
      (Stray p.toEnv n.store.blockGet b → (n.arrival.recent c.steady (b.hash p.toEnv)).2 = true) →
      (BlockSet.Valid p.toEnv n.store.blockGet b → n.Releases p (b.hash p.toEnv)) →
      Replaceable p c n b
  | replaced {y : BlockHash} {x : Block} : n.store.blockExists (b.hash p.toEnv) = false →
      n.store.blockGet y = some x → x.root = b.root → y ≠ p.genesisHash →
      BlockSet.Valid p.toEnv (BlockSet.without p.toEnv n.store.blockGet y) b →
      n.Releases p (b.hash p.toEnv) → Replaceable p c n b

/-- `b` is in the ledger, or the ledger has the same blocks as before. -/
def Kept (p : NodeEnv) (n : Node) (b : Block) (s : BlockStore) : Prop :=
  s.blockGet (b.hash p.toEnv) = some b ∨ ∀ h, s.blockGet h = n.store.blockGet h

section Law

variable {p : NodeEnv} {U : Set Block} {Λ : Lattice p.toEnv} {n : Node} {b : Block}
  (hass : HashAssumptions p.toEnv U) (hv : Valid U n.store Λ) (hb : b ∈ U)

include hass hv hb

theorem Valid.admissible_iff :
    BlockSet.Valid p.toEnv Λ.blocks b ↔ ∃ e, e.block = b ∧ Λ.Admissible (b.hash p.toEnv) e := by
  constructor
  · exact hv.refines.admissible_of_valid hass (hv.supply.trans_lt (by decide)) hb
  · rintro ⟨e, rfl, ad⟩
    exact ad.valid

theorem Valid.force_stored_iff {e : Entry} (he : Λ.entry (b.hash p.toEnv) = some e) (c : Clock) :
    (∃ n', n.receive p c b true = .ok n' ∧ Kept p n b n'.store) ↔
      n.Releases p (b.hash p.toEnv) := by
  have hinput := hass.collision_free (hv.refines.known he) hb (Λ.hash_eq he)
  have hroot := (hashInput_eq_place hinput).2.1
  have hold : Ledger.process p.toEnv c.secondsSinceEpoch n.store b = .ok (n.store, .of .old) :=
    hv.refines.process_old he
  rw [Node.receive_forced (hv.replace_same he hroot c), Node.judge_dropped hold (Or.inr rfl),
    ok_bind]
  simp only [ProcessReturn.of, ProcessResult.releases, if_true]
  rw [Node.queueUnchecked_iff]
  exact and_iff_right (Or.inr fun _ => rfl)

theorem Valid.not_stray {e : Entry} (hblock : e.block = b)
    (ad : Λ.Admissible (b.hash p.toEnv) e) : ¬ Stray p.toEnv Λ.blocks b := by
  intro hstray
  obtain ⟨ret, hfork, hcode⟩ := hv.refines.fork_of_stray ad.fresh 0 hstray
  obtain ⟨r, hrun, hout⟩ := hv.process hass hb 0
  obtain rfl := Except.ok.inj (hrun.symm.trans hfork)
  cases hout with
  | refused _ hno _ => exact hno e hblock ad
  | accepted _ _ hprogress _ _ _ => cases hcode.symm.trans hprogress

theorem Valid.force_free_iff (hfresh : Λ.entry (b.hash p.toEnv) = none)
    (hfree : Λ.RootFree b.root) (c : Clock) :
    (∃ n', n.receive p c b true = .ok n' ∧ Kept p n b n'.store) ↔
      (Stray p.toEnv Λ.blocks b → (n.arrival.recent c.steady (b.hash p.toEnv)).2 = true) ∧
      (BlockSet.Valid p.toEnv Λ.blocks b → n.Releases p (b.hash p.toEnv)) := by
  rw [Node.receive_forced (hv.replace_free hfree c), hv.admissible_iff hass hb]
  by_cases had : ∃ e, e.block = b ∧ Λ.Admissible (b.hash p.toEnv) e
  · obtain ⟨e, hblock, ad⟩ := had
    rw [hv.receive_admissible_iff (Q := Kept p n b) hass hb ad hblock c fun s hs => Or.inl hs]
    constructor
    · intro hrel
      exact ⟨fun h => absurd h (hv.not_stray hass hb hblock ad), fun _ => hrel⟩
    · rintro ⟨_, hrel⟩
      exact hrel ⟨e, hblock, ad⟩
  · have hno : ∀ e, e.block = b → ¬ Λ.Admissible (b.hash p.toEnv) e :=
      fun e hblock ad => had ⟨e, hblock, ad⟩
    rw [← hv.judge_refused_iff hass hb hfresh hfree hno c]
    constructor
    · rintro ⟨n', hrun, _⟩
      obtain ⟨⟨n₁, code⟩, hjudge, _⟩ := bind_eq_ok hrun
      exact ⟨⟨n₁, code, hjudge⟩, fun h => absurd h had⟩
    · rintro ⟨⟨n₁, code, hjudge⟩, _⟩
      obtain ⟨hstore, hcode⟩ := hv.of_judge_refused hass hb hfresh hno hjudge
      refine ⟨n₁, ?_, Or.inr fun h => by rw [hstore]⟩
      rw [hjudge, ok_bind]
      simp only [hcode, Bool.false_eq_true, if_false]

omit hass hv hb in
theorem Lattice.Trimmed.blocks_eq {Λ' : Lattice p.toEnv} {y : BlockHash}
    (ht : Λ.Trimmed Λ' y) (hgone : Λ'.entry y = none) :
    Λ'.blocks = BlockSet.without p.toEnv Λ.blocks y := by
  funext x
  unfold BlockSet.without
  rw [Lattice.dependents_iff]
  split
  · rename_i hrest
    cases he : Λ'.entry x with
    | none => exact Lattice.blocks_none.mpr he
    | some e => exact absurd hrest ((ht.entry_iff hgone).mp he).2
  · rename_i hrest
    cases he : Λ.entry x with
    | none =>
      rw [Lattice.blocks_none.mpr he]
      refine Lattice.blocks_none.mpr ?_
      cases he' : Λ'.entry x with
      | none => rfl
      | some e => cases he.symm.trans (ht.sub he')
    | some e =>
      rw [Lattice.blocks_some he, Lattice.blocks_some ((ht.entry_iff hgone).mpr ⟨he, hrest⟩)]

theorem Valid.force_taken_iff (hfresh : Λ.entry (b.hash p.toEnv) = none) {y : BlockHash}
    {e : Entry} (he : Λ.entry y = some e) (hroot : e.block.root = b.root) (c : Clock) :
    (∃ n', n.receive p c b true = .ok n' ∧ Kept p n b n'.store) ↔
      y ≠ p.genesisHash ∧ BlockSet.Valid p.toEnv (BlockSet.without p.toEnv Λ.blocks y) b ∧
        n.Releases p (b.hash p.toEnv) := by
  have hne : y ≠ b.hash p.toEnv := by
    rintro rfl
    cases hfresh.symm.trans he
  have hreplace := hv.replace_other he hroot hne c
  by_cases hg : y = p.genesisHash
  · refine iff_of_false ?_ fun h => h.1 hg
    rintro ⟨n', hrun, _⟩
    rw [Node.receive_eq] at hrun
    obtain ⟨_, hhandle, _⟩ := bind_eq_ok hrun
    unfold Node.handle at hhandle
    rw [if_pos rfl, hreplace, hg] at hhandle
    obtain ⟨_, hstep, _⟩ := bind_eq_ok hhandle
    obtain ⟨s', hrollback, _⟩ := bind_eq_ok hstep
    exact rollback_genesis hass _ hv.refines s' hrollback
  · obtain ⟨s', Λ', hrollback, hv', ht, hgone⟩ := hv.rollback hass
      (hv.refines.blocks.blockExists_true he) hg c.secondsSinceEpoch
    rw [hrollback, ok_bind] at hreplace
    have hfresh' : Λ'.entry (b.hash p.toEnv) = none := by
      cases hx : Λ'.entry (b.hash p.toEnv) with
      | none => rfl
      | some x => cases hfresh.symm.trans (ht.sub hx)
    rw [Node.receive_forced hreplace, ← ht.blocks_eq hgone,
      Valid.admissible_iff (n := { n with store := s' }) hass hv' hb, and_iff_right hg]
    by_cases had : ∃ e, e.block = b ∧ Λ'.Admissible (b.hash p.toEnv) e
    · rw [and_iff_right had]
      obtain ⟨e', hblock, ad⟩ := had
      exact Valid.receive_admissible_iff (n := { n with store := s' }) (Q := Kept p n b)
        hass hv' hb ad hblock c fun s hs => Or.inl hs
    · -- the block on the root is gone, and nothing has taken its place
      refine iff_of_false ?_ fun h => had h.1
      have hno : ∀ e, e.block = b → ¬ Λ'.Admissible (b.hash p.toEnv) e :=
        fun e hblock ad => had ⟨e, hblock, ad⟩
      rintro ⟨n', hrun, hkept⟩
      obtain ⟨⟨n₁, code⟩, hjudge, hrest⟩ := bind_eq_ok hrun
      obtain ⟨hstore, hcode⟩ := Valid.of_judge_refused (n := { n with store := s' })
        hass hv' hb hfresh' hno hjudge
      simp only [hcode, Bool.false_eq_true, if_false] at hrest
      obtain rfl := Except.ok.inj hrest
      rw [show n₁.store = s' from hstore] at hkept
      rcases hkept with hget | hsame
      · rw [hv'.refines.blockGet_eq, Lattice.blocks_none.mpr hfresh'] at hget
        cases hget
      · have hy := hsame y
        rw [hv'.refines.blockGet_eq, hv.refines.blockGet_eq, Lattice.blocks_none.mpr hgone,
          Lattice.blocks_some he] at hy
        cases hy

end Law

/-- **When forcing a block does not lose a root.** From any reachable ledger, with
any block `b` forced: the next round of `process_receive_many` handles `b`, and
ends without a failed assertion with `b` in the ledger or with the same blocks as
before, exactly if `b` can take its place. -/
theorem force_keeps_root_iff {p : NodeEnv} {U : Set Block} {n : Node} {b : Block}
    (hass : HashAssumptions p.toEnv U) (hs : Ledger.Reachable p.toEnv U n.store) (hb : b ∈ U)
    (clock : ℕ → Clock) :
    (∃ n', (n.force b).receiveLoop p clock 1 = .ok n' ∧ Kept p n b n'.store) ↔
      Replaceable p (clock 0) n b := by
  obtain ⟨Λ, hv⟩ := Ledger.Reachable.valid hass _ hs
  have hr := hv.refines
  rw [Node.receiveLoop_force]
  cases hstored : Λ.entry (b.hash p.toEnv) with
  | some e =>
    have hexists := hr.blocks.blockExists_true hstored
    rw [hv.force_stored_iff hass hb hstored]
    constructor
    · exact .stored hexists
    · rintro (⟨_, hrel⟩ | ⟨hnot, _⟩ | ⟨hnot, _⟩)
      · exact hrel
      · cases hexists.symm.trans hnot
      · cases hexists.symm.trans hnot
  | none =>
  have hnot := hr.blocks.blockExists_false hstored
  by_cases hfree : Λ.RootFree b.root
  · rw [hv.force_free_iff hass hb hstored hfree, ← hr.blockGet_eq]
    constructor
    · rintro ⟨hstray, hvalid⟩
      refine .free hnot (fun y x hx => ?_) hstray hvalid
      rw [hr.blockGet_eq] at hx
      obtain ⟨ey, hey, rfl⟩ := Lattice.of_blocks hx
      exact hfree y ey hey
    · rintro (⟨hexists, _⟩ | ⟨_, _, hstray, hvalid⟩ | @⟨y, x, _, hx, hroot, _⟩)
      · cases hnot.symm.trans hexists
      · exact ⟨hstray, hvalid⟩
      · rw [hr.blockGet_eq] at hx
        obtain ⟨ey, hey, rfl⟩ := Lattice.of_blocks hx
        exact absurd hroot (hfree y ey hey)
  · unfold Lattice.RootFree at hfree
    push Not at hfree
    obtain ⟨y, e, he, hroot⟩ := hfree
    rw [hv.force_taken_iff hass hb hstored he hroot, ← hr.blockGet_eq]
    constructor
    · rintro ⟨hg, hvalid, hrel⟩
      exact .replaced hnot (hr.blocks.blockGet_some he) hroot hg hvalid hrel
    · rintro (⟨hexists, _⟩ | ⟨_, hfree, _⟩ | @⟨y', x, _, hx, hroot', hg, hvalid, hrel⟩)
      · cases hnot.symm.trans hexists
      · exact absurd hroot (hfree y _ (hr.blocks.blockGet_some he))
      · rw [hr.blockGet_eq] at hx
        obtain ⟨e', he', rfl⟩ := Lattice.of_blocks hx
        obtain rfl := Λ.root_inj he' he (hroot'.trans hroot.symm)
        exact ⟨hg, hvalid, hrel⟩

namespace Signed

/-- A node that has processed the send. -/
def sentNode : Node := ⟨sent, [], [], [], [], []⟩

theorem sentNode_reachable : Ledger.Reachable env blocks sentNode.store := by
  have hU : ∀ x ∈ [(1, send)], x.2 ∈ all := by simp [all]
  unfold sentNode
  dsimp only
  exact first_reachable.processAll hU sendRun_eq

/-- The other signed send of the genesis account is forced. -/
def replaceRun : Except Fault Node :=
  (sentNode.force returns).receiveLoop nodeEnv (fun _ => ⟨2, 0⟩) 1

def replaced : Node := replaceRun.toOption.getD sentNode

theorem replaceRun_spec : replaceRun.isOk = true ∧
    replaced.store.blockGet (returns.hash env) = some returns := by
  decide +kernel

theorem replaceRun_eq : replaceRun = .ok replaced := eq_ok_getD replaceRun_spec.1 sentNode

/-- A rival of the send is forced that nobody has signed. -/
def loseRun : Except Fault Node :=
  (sentNode.force forgedRival).receiveLoop nodeEnv (fun _ => ⟨2, 0⟩) 1

def lost : Node := loseRun.toOption.getD sentNode

theorem loseRun_spec : loseRun.isOk = true ∧ lost.store.blockGet (forgedRival.hash env) = none ∧
    lost.store.blockGet (send.hash env) = none ∧
    Ledger.successor lost.store forgedRival.root = .ok none := by
  decide +kernel

theorem loseRun_eq : loseRun = .ok lost := eq_ok_getD loseRun_spec.1 sentNode

theorem sentNode_spec : sentNode.store.blockGet (send.hash env) = some send ∧
    Ledger.successor sentNode.store forgedRival.root = .ok (some send) := by
  decide +kernel

end Signed

/-- The signed rival takes the place of the send. -/
theorem force_keeps_root_iff_returns :
    Replaceable nodeEnv ⟨2, 0⟩ sentNode returns := by
  have hrun := replaceRun_eq
  unfold replaceRun at hrun
  have hkept : Kept nodeEnv sentNode returns replaced.store :=
    Or.inl replaceRun_spec.2
  exact (force_keeps_root_iff (p := nodeEnv) (n := sentNode) assumptions
    sentNode_reachable (mem_blocks (by simp [all])) fun _ => ⟨2, 0⟩).mp
    ⟨replaced, hrun, hkept⟩

/-- The send is rolled back for a rival with a bad signature, and the root is
empty afterwards. -/
theorem forced_forgery_loses_root : HashAssumptions env blocks ∧
    Ledger.Reachable env blocks sentNode.store ∧ forgedRival ∈ blocks ∧
    sentNode.store.blockGet (send.hash env) = some send ∧
    Ledger.successor sentNode.store forgedRival.root = .ok (some send) ∧
    (sentNode.force forgedRival).receiveLoop nodeEnv (fun _ => ⟨2, 0⟩) 1 = .ok lost ∧
    lost.store.blockGet (forgedRival.hash env) = none ∧ lost.store.blockGet (send.hash env) = none ∧
    Ledger.successor lost.store forgedRival.root = .ok none :=
  ⟨assumptions, sentNode_reachable, mem_blocks (by simp [all]),
    sentNode_spec.1, sentNode_spec.2, loseRun_eq, loseRun_spec.2⟩

end RaiBlocks
