import RaiBlocks.Lattice.Within
import RaiBlocks.Node.BlockProcessor
import RaiBlocks.Refinement.Reachable

/-!
# Blocks that come too early

What `ledger::process` says to a block of a larger lattice: it takes the block
in, or names a gap, and then the key under which the block is put aside is a
block that it depends on and that is missing.
-/

namespace RaiBlocks

open Foundation Block

variable {p : Env} {U : Set Block} {Λ Λ' : Lattice p} {s : BlockStore} {h : BlockHash} {e q : Entry}
  {now : ℕ} {b : StateBlock}

/-- The blocks an entry rests on. -/
def Entry.dependencies (p : Env) (e : Entry) : Set BlockHash := {x | x ≠ 0 ∧ e.DependsOn p x}

/-- The blocks that `process` looks up before it checks the signature. A state
block is checked first. -/
def Block.needs : Block → List BlockHash
  | .sendBlock b => [b.hashables.previous]
  | .receiveBlock b => [b.hashables.previous, b.hashables.source]
  | .openBlock b => [b.hashables.source]
  | .changeBlock b => [b.hashables.previous]
  | .stateBlock _ => []

/-- The block `b` is put aside until a missing block of `deps` is there. -/
inductive SetAside (p : Env) (s : BlockStore) (Λ : Lattice p) (b : Block) (deps : Set BlockHash)
    (code : ProcessResult) : Prop
  | previous : code = .gapPrevious → b.previous ∈ deps → Λ.entry b.previous = none →
      SetAside p s Λ b deps code
  | source {x : BlockHash} : code = .gapSource → Ledger.blockSource p s b = .ok x → x ∈ deps →
      Λ.entry x = none → SetAside p s Λ b deps code

/-! ## Send, receive, open and change blocks -/

section Legacy

variable (hr : Refines U s Λ) {b : Block}

include hr

theorem Refines.gapPrevious (ha : b.account? = none) (hn : Λ.entry (b.hash p) = none)
    (hprev : Λ.entry b.previous = none) : Ledger.process p now s b = .ok (s, .of .gapPrevious) := by
  have hexists := hr.blocks.blockExists_false hn
  have hget : s.blockGet b.previous = none := by
    rw [hr.blocks.blockGet, hprev]
    rfl
  cases b with
  | openBlock b => cases ha
  | stateBlock b => cases ha
  | sendBlock b =>
    simp only [previous] at hget
    simp [Ledger.process, Ledger.sendBlock, hexists, hget]
  | receiveBlock b =>
    simp only [previous] at hget
    simp [Ledger.process, Ledger.receiveBlock, hexists, hget]
  | changeBlock b =>
    simp only [previous] at hget
    simp [Ledger.process, Ledger.changeBlock, hexists, hget]

theorem Refines.open_gapSource {b : OpenBlock} (hn : Λ.entry ((openBlock b).hash p) = none)
    (hsrc : Λ.entry b.hashables.source = none) :
    Ledger.process p now s (.openBlock b) = .ok (s, .of .gapSource) := by
  have hexists := hr.blocks.blockExists_false hn
  have hsource := hr.blocks.blockExists_false hsrc
  simp [Ledger.process, Ledger.openBlock, hexists, hsource]

theorem Refines.receive_gapSource {b : ReceiveBlock}
    (hn : Λ.entry ((receiveBlock b).hash p) = none)
    (hq : Λ.entry b.hashables.previous = some q) (hl : q.block.isLegacy = true)
    (hsrc : Λ.entry b.hashables.source = none) :
    Ledger.process p now s (.receiveBlock b) = .ok (s, .of .gapSource) := by
  have hexists := hr.blocks.blockExists_false hn
  have hsource := hr.blocks.blockExists_false hsrc
  have hget := hr.blocks.blockGet_some hq
  have hvalid := (validPredecessor_eq (b := .receiveBlock b) rfl q.block).trans hl
  simp [Ledger.process, Ledger.receiveBlock, hexists, hget, hvalid, hsource]

/-- With all that is looked up in place, the signature is what stops a block. -/
theorem Refines.badSignature (ha : b.account? = none) (hn : Λ.entry (b.hash p) = none)
    (hq : Λ.entry b.previous = some q) (hl : q.block.isLegacy = true)
    (hhead : Λ.IsHead b.previous) (hneeds : ∀ x ∈ b.needs, ∃ o, Λ.entry x = some o)
    (hbad : p.validateMessage q.owner (b.hash p) b.blockSignature = true) :
    Ledger.process p now s b = .ok (s, .of .badSignature) := by
  have hexists := hr.blocks.blockExists_false hn
  have hget := hr.blocks.blockGet_some hq
  have hvalid := (validPredecessor_eq ha q.block).trans hl
  have hfrontier := hr.frontiers.frontierGet hq hhead hl
  have hburn : ¬ q.owner = 0#256 := (Λ.sound hq).1
  cases b with
  | openBlock b => cases ha
  | stateBlock b => cases ha
  | sendBlock b =>
    simp only [previous, blockSignature] at hget hfrontier hbad
    simp [Ledger.process, Ledger.sendBlock, hexists, hget, hvalid, hfrontier, hburn, hbad]
  | receiveBlock b =>
    obtain ⟨o, ho⟩ := hneeds b.hashables.source (by simp [needs])
    have hsource := hr.blocks.blockExists_true ho
    simp only [previous, blockSignature] at hget hfrontier hbad
    simp [Ledger.process, Ledger.receiveBlock, hexists, hget, hvalid, hfrontier, hburn, hbad,
      hsource]
  | changeBlock b =>
    obtain ⟨info, hi, hinfo, _⟩ := hr.accounts.of_head hq hhead
    have hrow : s.accountGet q.owner = some info := hi
    simp only [previous, blockSignature] at hget hfrontier hbad hinfo
    simp [Ledger.process, Ledger.changeBlock, hexists, hget, hvalid, hfrontier, hburn, hbad,
      hrow, hinfo, assertThat_true, pure, Except.pure]

theorem Refines.open_badSignature {b : OpenBlock}
    (hn : Λ.entry ((openBlock b).hash p) = none)
    (hneeds : ∃ o, Λ.entry b.hashables.source = some o)
    (hbad : p.validateMessage b.hashables.account ((openBlock b).hash p) b.signature = true) :
    Ledger.process p now s (.openBlock b) = .ok (s, .of .badSignature) := by
  obtain ⟨o, ho⟩ := hneeds
  have hexists := hr.blocks.blockExists_false hn
  have hsource := hr.blocks.blockExists_true ho
  simp [Ledger.process, Ledger.openBlock, hexists, hsource, hbad]

theorem Refines.state_badSignature {b : StateBlock}
    (hn : Λ.entry ((stateBlock b).hash p) = none)
    (hbad : p.validateMessage b.hashables.account ((stateBlock b).hash p) b.signature = true) :
    Ledger.process p now s (.stateBlock b) = .ok (s, .of .badSignature) := by
  have hexists := hr.blocks.blockExists_false hn
  simp [Ledger.process, Ledger.stateBlockImpl, hexists, hbad]

/-- A block that is stored is not looked at any further. -/
theorem Refines.process_old (he : Λ.entry (b.hash p) = some e) :
    Ledger.process p now s b = .ok (s, .of .old) := by
  have hexists := hr.blocks.blockExists_true he
  cases b with
  | sendBlock b => simp [Ledger.process, Ledger.sendBlock, hexists]
  | receiveBlock b => simp [Ledger.process, Ledger.receiveBlock, hexists]
  | openBlock b => simp [Ledger.process, Ledger.openBlock, hexists]
  | changeBlock b => simp [Ledger.process, Ledger.changeBlock, hexists]
  | stateBlock b => simp [Ledger.process, Ledger.stateBlockImpl, hexists]

end Legacy

/-! ## State blocks -/

section State

variable (hr : Refines U s Λ) (hn : Λ.entry ((stateBlock b).hash p) = none)
  (hv : p.validateMessage b.hashables.account ((stateBlock b).hash p) b.signature = false)
  (h0 : b.hashables.account ≠ 0)

include hr hn hv h0

theorem Refines.process_state :
    Ledger.process p now s (.stateBlock b) =
      (Ledger.stateBlockPosition p s b >>= Ledger.stateBlockFinish p now s b) := by
  have hexists := hr.blocks.blockExists_false hn
  simp only [Ledger.process, Ledger.stateBlockImpl]
  rw [hexists, if_neg Bool.false_ne_true, hv, if_neg Bool.false_ne_true, if_neg h0]

theorem Refines.state_gapPrevious (hp : b.hashables.previous ≠ 0)
    (hprev : Λ.entry b.hashables.previous = none) :
    ∃ ret, Ledger.process p now s (.stateBlock b) = .ok (s, ret) ∧ ret.code = .gapPrevious := by
  rw [hr.process_state hn hv h0]
  have hexists := hr.blocks.blockExists_false hprev
  unfold Ledger.stateBlockPosition
  cases hi : s.accountGet b.hashables.account with
  | some info =>
    simp only
    rw [if_neg hp, hexists, Bool.not_false, if_pos rfl, ok_bind]
    exact ⟨_, stateBlockFinish_refused (by simp), rfl⟩
  | none =>
    simp only
    rw [if_pos hp, ok_bind]
    exact ⟨_, stateBlockFinish_refused (by simp), rfl⟩

omit hn hv h0 in
/-- The last check of a block that does not send, with its source missing. -/
theorem Refines.finish_gapSource {info : AccountInfo} {amount : Uint128}
    (hl : b.hashables.link ≠ 0) (hsrc : Λ.entry b.hashables.link = none) :
    ∃ ret, Ledger.stateBlockFinish p now s b ⟨.progress, info, false, amount⟩ = .ok (s, ret) ∧
      ret.code = .gapSource := by
  have hcode : Ledger.stateBlockSource s b ⟨.progress, info, false, amount⟩ = .gapSource := by
    unfold Ledger.stateBlockSource
    rw [if_pos ⟨rfl, rfl⟩, if_pos hl, hr.blocks.blockExists_false hsrc]
    rfl
  unfold Ledger.stateBlockFinish
  simp only [hcode]
  exact ⟨_, rfl, rfl⟩

theorem Refines.state_gapSource (hq : Λ.entry b.hashables.previous = some q)
    (hhead : Λ.IsHead b.hashables.previous) (hown : q.owner = b.hashables.account)
    (hle : q.balance ≤ b.hashables.balance.toNat) (hl : b.hashables.link ≠ 0)
    (hsrc : Λ.entry b.hashables.link = none) :
    ∃ ret, Ledger.process p now s (.stateBlock b) = .ok (s, ret) ∧ ret.code = .gapSource := by
  rw [hr.process_state hn hv h0]
  obtain ⟨info, hi, hinfo, hd⟩ := hr.accounts.of_head hq hhead
  rw [hown] at hi hd
  rw [stateBlockPosition_eq hi hd (Λ.ne_zero hq) (hr.blocks.blockExists_true hq), ok_bind,
    if_pos hinfo.symm, decide_eq_false (not_lt.mpr hle)]
  exact hr.finish_gapSource hl hsrc

theorem Refines.stateOpen_gapSource (hp : b.hashables.previous = 0)
    (hun : Λ.Unopened b.hashables.account) (hl : b.hashables.link ≠ 0)
    (hsrc : Λ.entry b.hashables.link = none) :
    ∃ ret, Ledger.process p now s (.stateBlock b) = .ok (s, ret) ∧ ret.code = .gapSource := by
  rw [hr.process_state hn hv h0]
  have hi : s.accountGet b.hashables.account = none := hr.accounts.lookup_none_iff.mpr hun
  unfold Ledger.stateBlockPosition
  rw [hi]
  simp only
  rw [if_neg (not_not.mpr hp), if_neg hl, ok_bind]
  exact hr.finish_gapSource hl hsrc

end State

theorem Valid.blockSource_state (hv : Valid U s Λ) (hq : Λ.entry b.hashables.previous = some q)
    (hle : q.balance ≤ b.hashables.balance.toNat) :
    Ledger.blockSource p s (.stateBlock b) = .ok b.hashables.link := by
  have hbal := (hv.refines.blocks.readable hv.refines.blocksInfo).balance hq
  have hsend : ¬ b.hashables.balance < BitVec.ofNat 128 q.balance := by
    rw [BitVec.lt_def, toNat_ofNat_of_lt (Λ.sound hq).2.2]
    omega
  have hisSend : Ledger.isSend p s b = .ok false := by
    unfold Ledger.isSend
    rw [if_pos (Λ.ne_zero hq), hbal, ok_bind, decide_eq_false hsend]
    rfl
  simp only [Ledger.blockSource]
  rw [hisSend]
  rfl

theorem blockSource_stateOpen (hp : b.hashables.previous = 0) :
    Ledger.blockSource p s (.stateBlock b) = .ok b.hashables.link := by
  have hisSend : Ledger.isSend p s b = .ok false := if_neg (not_not.mpr hp)
  simp only [Ledger.blockSource]
  rw [hisSend]
  rfl

/-- A state block that receives does not lower the balance. -/
theorem Entry.receives_state {x : BlockHash} (hb : e.block = .stateBlock b)
    (hrec : e.receives p = some x) :
    x = b.hashables.link ∧ b.hashables.link ≠ 0 ∧ e.prior ≤ e.balance := by
  unfold Entry.receives at hrec
  rw [hb] at hrec
  simp only at hrec
  split at hrec
  · cases hrec
  · rename_i hn
    obtain ⟨hle, hl⟩ := not_or.mp hn
    exact ⟨(Option.some.inj hrec).symm, hl, not_lt.mp hle⟩

/-! ## Blocks of a larger lattice -/

section Within

variable (hass : HashAssumptions p U) (hv : Valid U s Λ) (hsub : Λ.Within Λ')
  (he : Λ'.entry (e.block.hash p) = some e) (hn : Λ.entry (e.block.hash p) = none)

include hv hsub he hn

omit hsub in
theorem Valid.process_gapPrevious (hp : e.block.previous ≠ 0)
    (hmissing : Λ.entry e.block.previous = none) :
    ∃ ret, Ledger.process p now s e.block = .ok (s, ret) ∧ ret.code = .gapPrevious := by
  cases hb : e.block with
  | openBlock b =>
    rw [hb] at hp
    exact absurd rfl hp
  | stateBlock b =>
    have hown : b.hashables.account = e.owner := Lattice.account?_eq he (by rw [hb]; rfl)
    have hsigned := Λ'.signed he (Lattice.ne_genesis_of_unstored hn)
    rw [hb] at hn hp hmissing hsigned
    exact hv.refines.state_gapPrevious hn (hown ▸ hsigned) (hown ▸ (Λ'.sound he).1) hp hmissing
  | _ =>
    rw [hb] at hn hmissing
    exact ⟨_, hv.refines.gapPrevious rfl hn hmissing, rfl⟩

/-- With the predecessor there, a missing source is noticed. -/
theorem Valid.process_gapSource {x : BlockHash} (hrec : e.receives p = some x)
    (hmissing : Λ.entry x = none)
    (hprev : e.block.previous ≠ 0 → ∃ q, Λ.entry e.block.previous = some q) :
    ∃ ret, Ledger.process p now s e.block = .ok (s, ret) ∧ ret.code = .gapSource ∧
      Ledger.blockSource p s e.block = .ok x := by
  have hr := hv.refines
  have hne := Lattice.ne_genesis_of_unstored hn
  cases hb : e.block with
  | sendBlock b =>
    unfold Entry.receives at hrec
    rw [hb] at hrec
    cases hrec
  | changeBlock b =>
    unfold Entry.receives at hrec
    rw [hb] at hrec
    cases hrec
  | receiveBlock b =>
    obtain rfl : b.hashables.source = x := by
      unfold Entry.receives at hrec
      rw [hb] at hrec
      exact Option.some.inj hrec
    obtain ⟨_, hq', _⟩ := Lattice.follows_of_account?_eq he (by rw [hb]; rfl)
    obtain ⟨q, hq⟩ := hprev (Λ'.ne_zero hq')
    have hl := (hsub.follows he hq).legacy (by rw [hb]; rfl)
    rw [hb] at hn hq
    exact ⟨_, hr.receive_gapSource hn hq hl hmissing, rfl, rfl⟩
  | openBlock b =>
    have hsource := ((Λ'.justified he).of_openBlock hne hb).2.1
    obtain rfl := Option.some.inj (hsource.symm.trans hrec)
    rw [hb] at hn
    exact ⟨_, hr.open_gapSource hn hmissing, rfl, rfl⟩
  | stateBlock b =>
    obtain ⟨rfl, hl, hle⟩ := Entry.receives_state hb hrec
    have hown : b.hashables.account = e.owner := Lattice.account?_eq he (by rw [hb]; rfl)
    have hbal := (Λ'.justified he).balance?_toNat (x := b.hashables.balance) (by rw [hb]; rfl)
    have hsigned := Λ'.signed he hne
    have hburn := (Λ'.sound he).1
    have hprevious : e.block.previous = b.hashables.previous := by
      rw [hb]
      rfl
    by_cases hp : e.block.previous = 0
    · have hun := hsub.unopened he hn hp
      rw [← hown] at hburn hun hsigned
      rw [hb] at hn hsigned
      rw [hprevious] at hp
      obtain ⟨ret, hrun, hcode⟩ := hr.stateOpen_gapSource hn hsigned hburn hp hun hl hmissing
      exact ⟨ret, hrun, hcode, blockSource_stateOpen hp⟩
    · obtain ⟨q, hq⟩ := hprev hp
      have hfol := hsub.follows he hq
      have hhead := hsub.isHead he hn hp
      have hle' : q.balance ≤ b.hashables.balance.toNat := by
        rw [hbal, ← hfol.prior]
        exact hle
      have hqown := hfol.owner.trans hown.symm
      rw [← hown] at hburn hsigned
      rw [hb] at hn hsigned
      rw [hprevious] at hq hhead
      obtain ⟨ret, hrun, hcode⟩ := hr.state_gapSource hn hsigned hburn hq hhead hqown hle' hl
        hmissing
      exact ⟨ret, hrun, hcode, hv.blockSource_state hq hle'⟩

/-- A block with a missing dependency is put aside under one. -/
theorem Valid.process_gap {x : BlockHash} (hx : x ∈ e.dependencies p)
    (hmissing : Λ.entry x = none) (now : ℕ) :
    ∃ ret, Ledger.process p now s e.block = .ok (s, ret) ∧
      SetAside p s Λ e.block (e.dependencies p) ret.code := by
  obtain ⟨hx0, hdep⟩ := hx
  by_cases hprev : e.block.previous ≠ 0 ∧ Λ.entry e.block.previous = none
  · obtain ⟨ret, hrun, hcode⟩ := hv.process_gapPrevious he hn hprev.1 hprev.2
    exact ⟨ret, hrun, .previous hcode ⟨hprev.1, Or.inl rfl⟩ hprev.2⟩
  · have hrec : e.receives p = some x := by
      rcases hdep with rfl | hrec
      · exact absurd ⟨hx0, hmissing⟩ hprev
      · exact hrec
    obtain ⟨ret, hrun, hcode, hkey⟩ := hv.process_gapSource hsub he hn hrec hmissing fun hp =>
      Option.ne_none_iff_exists'.mp fun hnone => hprev ⟨hp, hnone⟩
    exact ⟨ret, hrun, .source hcode hkey ⟨hx0, Or.inr hrec⟩ hmissing⟩

include hass

/-- A block whose dependencies are there is taken in, as the entry it has in the
larger lattice. -/
theorem Valid.process_progress (hU : e.block ∈ U)
    (hdeps : ∀ x ∈ e.dependencies p, ∃ q, Λ.entry x = some q) (now : ℕ) :
    ∃ (s' : BlockStore) (ret : ProcessReturn) (ad : Λ.Admissible (e.block.hash p) e),
      Ledger.process p now s e.block = .ok (s', ret) ∧ ret.code = .progress ∧
      Valid U s' (Λ.insert ad) := by
  have ad := hsub.admissible he hn fun x h0 hd => hdeps x ⟨h0, hd⟩
  obtain ⟨r, hrun, hout⟩ := hv.process hass hU now
  cases hout with
  | refused _ hno _ => exact absurd ad (hno e rfl)
  | @accepted s' ret e' ad' hblock hcode _ _ hins =>
    have heq : e' = e := ad'.justified.unique Λ.entry_zero ad.justified hblock
    subst heq
    exact ⟨s', ret, ad', hrun, hcode, hv.accepted hass ad' hU hins⟩

end Within

end RaiBlocks
