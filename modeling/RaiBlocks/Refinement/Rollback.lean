import RaiBlocks.Lattice.Trim
import RaiBlocks.Refinement.Undo

/-!
# Rolling back, on the lattice

`rollback` undoes the head of an account until the given block is gone, and
undoing a send that was received first rolls back the receiving account, which
may be another one, and so on. The recursion ends because the block rolled back
next always has a larger rank than the send being undone: the entries of rank
at least that of the target (`Lattice.above`) bound both the depth and the
number of iterations of each loop.

Everything that happens on the way is a `CutBack`: the lattice is trimmed, neither
the supply nor the drift of the weights changes, and of the block info rows of
state blocks none goes and those of uncovered blocks are added.
-/

namespace RaiBlocks

open Foundation Ledger BlockStore RaiBlocks.Lattice

variable {p : Env} {U : Set Block} {Λ Λ' Λ'' : Lattice p} {s s' s'' : BlockStore}
  {h x : BlockHash} {e : Entry}

/-! ## Rows of state blocks -/

/-- No block of one of the older kinds has the hash `x`. -/
def Lattice.NotLegacy (Λ : Lattice p) (x : BlockHash) : Prop :=
  ∀ q, Λ.entry x = some q → q.block.isLegacy = false

/-- The block above `x` is gone, and `x` is at a position that has a row. -/
def Lattice.Uncovered (Λ Λ' : Lattice p) (x : BlockHash) : Prop :=
  ∃ y ey q, Λ.entry y = some ey ∧ Λ'.entry y = none ∧ ey.block.previous = x ∧
    Λ.entry x = some q ∧ q.height % blockInfoMax = 0

/-- Which rows there are outside the blocks of the older kinds. -/
def RowsAdded (s s' : BlockStore) (Λ Λ' : Lattice p) : Prop :=
  ∀ x, Λ.NotLegacy x → ((s'.blocksInfo.lookup x).isSome = true ↔
    (s.blocksInfo.lookup x).isSome = true ∨ Λ.Uncovered Λ' x)

theorem Lattice.not_uncovered_self : ¬ Λ.Uncovered Λ x := by
  rintro ⟨y, ey, _, hy, hgone, _⟩
  cases hgone.symm.trans hy

theorem Lattice.Trimmed.uncovered_iff {y : BlockHash} (ht : Λ.Trimmed Λ' h)
    (ht' : Λ'.Trimmed Λ'' y) :
    Λ.Uncovered Λ'' x ↔ Λ.Uncovered Λ' x ∨ Λ'.Uncovered Λ'' x := by
  constructor
  · rintro ⟨z, ez, q, hz, hgone, hp, hq, hheight⟩
    cases hz' : Λ'.entry z with
    | none => exact Or.inl ⟨z, ez, q, hz, hz', hp, hq, hheight⟩
    | some e' =>
      obtain rfl := Option.some.inj (hz.symm.trans (ht.sub hz'))
      have hq' : Λ'.entry x = some q := by rw [← hp, ht.previous_eq hz', hp, hq]
      exact Or.inr ⟨z, ez, q, hz', hgone, hp, hq', hheight⟩
  · rintro (⟨z, ez, q, hz, hgone, hp, hq, hheight⟩ | ⟨z, ez, q, hz, hgone, hp, hq, hheight⟩)
    · refine ⟨z, ez, q, hz, ?_, hp, hq, hheight⟩
      cases hz'' : Λ''.entry z with
      | none => rfl
      | some e' => cases hgone.symm.trans (ht'.sub hz'')
    · exact ⟨z, ez, q, ht.sub hz, hgone, hp, ht.sub hq, hheight⟩

theorem RowsAdded.refl (s : BlockStore) (Λ : Lattice p) : RowsAdded s s Λ Λ :=
  fun _ _ => (or_iff_left not_uncovered_self).symm

theorem RowsAdded.trans {y : BlockHash} (h₁ : RowsAdded s s' Λ Λ') (h₂ : RowsAdded s' s'' Λ' Λ'')
    (ht : Λ.Trimmed Λ' h) (ht' : Λ'.Trimmed Λ'' y) : RowsAdded s s'' Λ Λ'' := by
  intro x hx
  rw [h₂ x fun q hq => hx q (ht.sub hq), h₁ x hx, ht.uncovered_iff ht', or_assoc]

theorem Lattice.uncovered_erase (rm : Λ.Removable h e) : Λ.Uncovered (Λ.erase rm) x ↔
    e.block.previous = x ∧ ∃ q, Λ.entry x = some q ∧ q.height % blockInfoMax = 0 := by
  constructor
  · rintro ⟨y, ey, q, hy, hgone, hp, hq, hheight⟩
    by_cases hyh : y = h
    · rw [hyh, rm.stored] at hy
      obtain rfl := Option.some.inj hy
      exact ⟨hp, q, hq, hheight⟩
    · rw [erase_entry_of_ne rm hyh, hy] at hgone
      cases hgone
  · rintro ⟨hp, q, hq, hheight⟩
    exact ⟨h, e, q, rm.stored, erase_entry_self rm, hp, hq, hheight⟩

/-- The row of a predecessor is written, whatever kind of block it is. -/
theorem RowsAdded.erase (rm : Λ.Removable h e) {now : ℕ} (hrem : Removed now s s' Λ h e) :
    RowsAdded s s' Λ (Λ.erase rm) := by
  intro x hx
  have hbelow : ((blocksInfoBelow s.blocksInfo e (Λ.entry e.block.previous)).lookup x).isSome =
      true ↔ (s.blocksInfo.lookup x).isSome = true ∨ Λ.Uncovered (Λ.erase rm) x := by
    rw [uncovered_erase]
    unfold blocksInfoBelow
    by_cases hp : e.block.previous = x
    · rw [hp]
      cases hq : Λ.entry x with
      | none => simp
      | some q =>
        by_cases hheight : q.height % blockInfoMax = 0
        · simp [hheight]
        · simp [hheight]
    · have hor : ((s.blocksInfo.lookup x).isSome = true ∨ (e.block.previous = x ∧ ∃ q,
          Λ.entry x = some q ∧ q.height % blockInfoMax = 0)) ↔
          (s.blocksInfo.lookup x).isSome = true := or_iff_left fun h => hp h.1
      rw [hor]
      split
      · split
        · rw [Table.lookup_insert_ite, if_neg (Ne.symm hp)]
        · rfl
      · rfl
  rw [hrem.blocksInfo, ← hbelow, blocksInfoErase]
  split
  · -- only the row of a block of one of the older kinds is deleted
    rename_i hcond
    have hne : x ≠ h := by
      rintro rfl
      rw [hx e rm.stored] at hcond
      cases hcond.2
    rw [Table.lookup_erase_ite, if_neg hne]
  · rfl

/-! ## Cutting back -/

/-- The store `s'` is what a rollback towards `h` makes of `s`. -/
structure CutBack (U : Set Block) (s s' : BlockStore) (Λ Λ' : Lattice p) (h : BlockHash) :
    Prop where
  refines : Refines U s' Λ'
  trimmed : Λ.Trimmed Λ' h
  supply : s'.supply = s.supply
  drift : ∀ r, drift s' Λ' r = drift s Λ r
  rows : RowsAdded s s' Λ Λ'

namespace CutBack

theorem refl (hr : Refines U s Λ) (h : BlockHash) : CutBack U s s Λ Λ h :=
  ⟨hr, .refl Λ h, rfl, fun _ => rfl, .refl s Λ⟩

theorem trans (hc : CutBack U s s' Λ Λ' h) (hc' : CutBack U s' s'' Λ' Λ'' x)
    (hx : Λ.Rests x h) : CutBack U s s'' Λ Λ'' h :=
  ⟨hc'.refines, hc.trimmed.trans hc'.trimmed hx, hc'.supply.trans hc.supply,
    fun r => (hc'.drift r).trans (hc.drift r), hc.rows.trans hc'.rows hc.trimmed hc'.trimmed⟩

theorem erase (hr : Refines U s Λ) (rm : Λ.Removable h e) {now : ℕ}
    (hrem : Removed now s s' Λ h e) (hm : WeightsMoved s s' Λ e) :
    CutBack U s s' Λ (Λ.erase rm) h := by
  obtain ⟨hr', hsupply, hw⟩ := hr.erase rm hrem
  exact ⟨hr', erase_trimmed rm, hsupply, drift_erase hw hm, .erase rm hrem⟩

end CutBack

/-- What is assumed of the call that rolls back another account: it works for
targets with fewer than `n` entries above them. -/
def RollsBack (p : Env) (U : Set Block) (rb : BlockStore → BlockHash → Except Fault BlockStore)
    (n : ℕ) : Prop :=
  ∀ (s : BlockStore) (Λ : Lattice p) (h : BlockHash) (e : Entry), Refines U s Λ →
    Λ.entry h = some e → h ≠ p.genesisHash → Λ.above e.rank < n →
    ∃ s' Λ', rb s h = .ok s' ∧ CutBack U s s' Λ Λ' h ∧ Λ'.entry h = none

/-! ## The receiving account -/

/-- When a send is not pending, the head of the receiving account rests on it
and is another block. -/
theorem Refines.latest_receiver (hr : Refines U s Λ) (he : Λ.entry h = some e) {d : Account}
    (hd : e.sendsTo = some d) (hn : s.pending.lookup ⟨d, h⟩ = none) :
    ∃ ex, Λ.entry (latest s d) = some ex ∧ latest s d ≠ p.genesisHash ∧
      Λ.Rests (latest s d) h ∧ e.rank < ex.rank := by
  have hreceived : Λ.Received h := by
    by_contra hnr
    cases hn.symm.trans ((hr.pending _ _ _).mpr ⟨e, he, hd, hnr, rfl⟩)
  obtain ⟨y, ey, hy, hrec⟩ := hreceived
  obtain ⟨src, hs, ht⟩ := (Λ.justified hy).takes hrec
  obtain rfl := Option.some.inj (he.symm.trans hs)
  obtain ⟨info, hi⟩ := hr.accounts.complete hy
  obtain ⟨ex, hdesc⟩ := hr.accounts.sound hi
  have hdest : ey.owner = d := Option.some.inj (ht.dest.symm.trans hd)
  have hlatest : latest s d = info.head := by
    unfold latest accountGet
    rw [← hdest, hi]
    rfl
  rw [hlatest]
  have hrest : Λ.Rests info.head y := hdesc.isHead.rests_on hdesc.head hy hdesc.owner.symm
  have hdep : Λ.Dep y h := ⟨ey, e, hy, he, Or.inr hrec⟩
  have hrank : e.rank < ex.rank := ht.rank.trans_le (hrest.rank_le hdesc.head hy)
  refine ⟨ex, hdesc.head, fun heq => ?_, hrest.tail hdep, hrank⟩
  -- the genesis block rests on nothing, so it would be the receiver itself
  have hrank₀ := hdesc.head
  rw [heq, Λ.genesis] at hrank₀
  rw [← Option.some.inj hrank₀] at hrank
  exact Nat.not_lt_zero _ hrank

/-- **The receiver loop ends with the send pending.** -/
theorem rollbackReceiver_cutBack {rb : BlockStore → BlockHash → Except Fault BlockStore} {n : ℕ}
    (hrb : RollsBack p U rb n) (hr : Refines U s Λ) (he : Λ.entry h = some e)
    {d : Account} (hd : e.sendsTo = some d) (hn : Λ.above e.rank ≤ n) :
    ∃ s' Λ', rollbackReceiver rb n s ⟨d, h⟩ = .ok s' ∧ CutBack U s s' Λ Λ' h ∧
      Λ'.entry h = some e ∧ ¬ Λ'.Received h := by
  have hlt := above_lt he
  let I : ℕ → BlockStore → Prop := fun k s₁ => ∃ Λ₁, CutBack U s s₁ Λ Λ₁ h ∧
    Λ₁.entry h = some e ∧ Λ₁.above (e.rank + 1) = k ∧ k < n
  have hstep : ∀ k s₁, I k s₁ → (!s₁.pendingExists ⟨d, h⟩) = true →
      ∃ k' s₂, rb s₁ (latest s₁ d) = .ok s₂ ∧ k' < k ∧ I k' s₂ := by
    rintro k s₁ ⟨Λ₁, hcut, he₁, hk, hkn⟩ hcond
    have hnone : s₁.pending.lookup ⟨d, h⟩ = none := by
      simpa [pendingExists] using hcond
    obtain ⟨ex, hx, hgen, hrest, hrank⟩ := hcut.refines.latest_receiver he₁ hd hnone
    have habove := above_le (Λ := Λ₁) (show e.rank + 1 ≤ ex.rank from hrank)
    obtain ⟨s₂, Λ₂, hrun, hcut₂, hgone⟩ := hrb s₁ Λ₁ _ ex hcut.refines hx hgen (by omega)
    have hdrop := hcut₂.trimmed.above_lt hx (show e.rank + 1 ≤ ex.rank from hrank) hgone
    exact ⟨_, s₂, hrun, hk ▸ hdrop, Λ₂, hcut.trans hcut₂ (hcut.trimmed.rests hrest),
      hcut₂.trimmed.keeps hx he₁ hrank, rfl, by omega⟩
  have hloop : ∃ k' s', rollbackReceiver rb n s ⟨d, h⟩ = .ok s' ∧ I k' s' ∧
      (!s'.pendingExists ⟨d, h⟩) = false :=
    whileLoop_total hstep n _ s (by omega) ⟨Λ, .refl hr h, he, rfl, by omega⟩
  obtain ⟨_, s', hrun, ⟨Λ', hcut, he', _⟩, hdone⟩ := hloop
  refine ⟨s', Λ', hrun, hcut, he', ?_⟩
  have hsome : (s'.pending.lookup ⟨d, h⟩).isSome := by
    simpa [pendingExists] using hdone
  obtain ⟨i, hi⟩ := Option.isSome_iff_exists.mp hsome
  obtain ⟨_, _, _, hnr, _⟩ := (hcut.refines.pending _ _ _).mp hi
  exact hnr

/-! ## One head -/

section Visit

variable {rb : BlockStore → BlockHash → Except Fault BlockStore} {n : ℕ}
  (hrb : RollsBack p U rb n) (hass : HashAssumptions p U) (hr : Refines U s Λ)
  (he : Λ.entry h = some e) (hh : Λ.IsHead h) (hg : h ≠ p.genesisHash) (hn : Λ.above e.rank ≤ n)

include he in
theorem Lattice.not_received (hs : e.sendsTo = none) : ¬ Λ.Received h := by
  rintro ⟨y, ey, hy, hrec⟩
  obtain ⟨src, hsrc, ht⟩ := (Λ.justified hy).takes hrec
  obtain rfl := Option.some.inj (he.symm.trans hsrc)
  cases hs.symm.trans ht.dest

include he hh hg in
theorem Lattice.removable (hs : e.sendsTo = none) : Λ.Removable h e :=
  ⟨he, hh, not_received he hs, hg⟩

include hrb hr he hh hg hn in
/-- Once the receivers are gone the send can be removed. -/
theorem rollbackReceiver_removable {d : Account} (hd : e.sendsTo = some d) :
    ∃ s' Λ', rollbackReceiver rb n s ⟨d, h⟩ = .ok s' ∧ CutBack U s s' Λ Λ' h ∧
      Λ'.Removable h e := by
  obtain ⟨s', Λ', hrun, hcut, he', hnr⟩ := rollbackReceiver_cutBack hrb hr he hd hn
  exact ⟨s', Λ', hrun, hcut, he', hcut.trimmed.isHead hh, hnr, hg⟩

include hrb hr he hh hg hn in
theorem rollbackSend_cutBack {b : SendBlock} (hblock : e.block = .sendBlock b) (now : ℕ) :
    ∃ s' Λ', rollbackSend p now rb n s b = .ok s' ∧ CutBack U s s' Λ Λ' h ∧
      Λ'.entry h = none := by
  have hd : e.sendsTo = some b.hashables.destination := by
    unfold Entry.sendsTo
    rw [hblock]
  obtain ⟨s₁, Λ₁, hrun, hcut, rm⟩ := rollbackReceiver_removable hrb hr he hh hg hn hd
  obtain ⟨s₂, hundo, hrem, hm⟩ := sendBlockUndo_removed hcut.refines rm hblock now
  refine ⟨s₂, Λ₁.erase rm, ?_, hcut.trans (.erase hcut.refines rm hrem hm) .refl,
    erase_entry_self rm⟩
  unfold rollbackSend
  rw [show (Block.sendBlock b).hash p = h from hblock ▸ Λ.hash_eq he, hrun, ok_bind, hundo]

include hrb hass hr he hh hg hn in
/-- The pending table after `rollback_visitor::state_block` has dealt with it. -/
theorem stateBlockPending_cutBack {b : StateBlock} (hblock : e.block = .stateBlock b) :
    ∃ s' Λ', stateBlockPending p rb n s b (BitVec.ofNat 128 e.prior) =
        .ok { s' with pending := pendingErase Λ' s'.pending h e } ∧
      CutBack U s s' Λ Λ' h ∧ Λ'.Removable h e := by
  obtain ⟨_, hprior, hbalance⟩ := sound he
  have hbal : b.hashables.balance = BitVec.ofNat 128 e.balance :=
    (Λ.justified he).balance?_eq (by rw [hblock]; rfl)
  have howner : b.hashables.account = e.owner :=
    account?_eq he (by rw [hblock]; rfl)
  unfold stateBlockPending
  rw [show (Block.stateBlock b).hash p = h from hblock ▸ Λ.hash_eq he]
  dsimp only
  rw [hbal]
  have hiff := ofNat_lt_ofNat hbalance hprior
  by_cases hlt : e.balance < e.prior
  · -- a send: its receivers go first, then its pending entry
    have hd : e.sendsTo = some b.hashables.link := by
      unfold Entry.sendsTo
      rw [hblock]
      exact if_pos hlt
    obtain ⟨s₁, Λ₁, hrun, hcut, rm⟩ := rollbackReceiver_removable hrb hr he hh hg hn hd
    have hrow : s₁.pending.lookup ⟨b.hashables.link, h⟩ = some e.pendingInfo :=
      (hcut.refines.pending _ _ _).mpr ⟨e, rm.stored, hd, rm.unreceived, rfl⟩
    refine ⟨s₁, Λ₁, ?_, hcut, rm⟩
    rw [if_pos (hiff.mpr hlt), hrun, ok_bind, pendingDel_eq hrow, pendingErase_sends hd]
  · have hs : e.sendsTo = none := by
      unfold Entry.sendsTo
      rw [hblock]
      exact if_neg hlt
    refine ⟨s, Λ, ?_, .refl hr h, removable he hh hg hs⟩
    rw [if_neg (mt hiff.mp hlt)]
    by_cases hlink : b.hashables.link = 0
    · -- neither a send nor a receive
      have hrec : e.receives p = none := by
        unfold Entry.receives
        rw [hblock]
        exact if_pos (Or.inr hlink)
      rw [if_neg (not_not.mpr hlink), pendingErase_keeps hs hrec]
      rfl
    · -- a receive: the entry it consumed comes back
      have hrec : e.receives p = some b.hashables.link := by
        unfold Entry.receives
        rw [hblock]
        exact if_neg (not_or.mpr ⟨hlt, hlink⟩)
      obtain ⟨src, hsrc, ht⟩ := (Λ.justified he).takes hrec
      rw [if_pos hlink, hr.blocks.account hass hr.frontiers hr.blocksInfo hsrc, ok_bind,
        balanceSub_ofNat p hbalance (not_lt.mp hlt), ok_bind, pendingErase_receives hrec hsrc,
        howner, ht.balance, Nat.add_sub_cancel_left]
      rfl

/-- What is left of the lattice still counts a head as before. -/
theorem Lattice.Trimmed.entryWeight_eq (ht : Λ.Trimmed Λ' x) (he : Λ'.entry h = some e)
    (r : Account) : entryWeight Λ' r e = entryWeight Λ r e := by
  obtain ⟨rep, hrep, _⟩ := rep_entry _ e he
  unfold entryWeight repAccount
  rw [hrep, ht.sub hrep]

/-- The weights of a head and of its predecessor may be read before or after
the receivers are cut back. -/
theorem Lattice.Trimmed.weightsMoved (ht : Λ.Trimmed Λ' x) (he : Λ'.entry h = some e)
    (hm : WeightsMoved s s' Λ e) : WeightsMoved s s' Λ' e := by
  intro r
  rw [ht.entryWeight_eq he, hm r, ← ht.previous_eq he]
  cases hq : Λ'.entry e.block.previous with
  | none => rfl
  | some q => rw [Option.elim_some, Option.elim_some, ht.entryWeight_eq hq]

include hrb hass hr he hh hg hn in
theorem rollbackState_cutBack {b : StateBlock} (hblock : e.block = .stateBlock b) (now : ℕ) :
    ∃ s' Λ', rollbackState p now rb n s b = .ok s' ∧ CutBack U s s' Λ Λ' h ∧
      Λ'.entry h = none := by
  obtain ⟨hrep, hbalance⟩ := stateBlock_below hblock (hr.blocks.readable hr.blocksInfo) he
  obtain ⟨w, hweigh, hm⟩ := stateBlockReweigh_eq hblock hr.blocks he
  have hr₁ : Refines U { s with representation := w } Λ :=
    ⟨hr.blocks, hr.accounts, hr.frontiers, hr.pending, hr.blocksInfo, hr.checksum, hr.known⟩
  obtain ⟨s₂, Λ₂, hpending, hcut, rm⟩ :=
    stateBlockPending_cutBack hrb hass hr₁ he hh hg hn hblock
  obtain ⟨s₃, hundo, hrem, hrepr⟩ := stateBlockUndo_removed hblock hcut.refines rm now
  obtain ⟨hr₃, hsupply, hw⟩ := hcut.refines.erase rm hrem
  have hrows : RowsAdded s s₂ Λ Λ₂ := hcut.rows
  have ht := erase_trimmed rm
  refine ⟨s₃, Λ₂.erase rm, ?_, ⟨hr₃, hcut.trimmed.trans ht .refl, hsupply.trans hcut.supply,
    fun r => ?_, hrows.trans (.erase rm hrem) hcut.trimmed ht⟩, erase_entry_self rm⟩
  · unfold rollbackState
    rw [show (Block.stateBlock b).hash p = h from hblock ▸ Λ.hash_eq he]
    dsimp only
    rw [hcut.trimmed.previous_eq rm.stored] at hundo
    by_cases h0 : b.hashables.previous ≠ 0
    · rw [if_pos h0] at hrep ⊢
      rw [hrep, ok_bind, hbalance, ok_bind, hweigh, ok_bind, hpending, ok_bind, hundo]
    · rw [if_neg h0] at hrep ⊢
      rw [show (pure 0 : Except Fault BlockHash) = _ from hrep, ok_bind, hbalance, ok_bind, hweigh,
        ok_bind, hpending, ok_bind, hundo]
  · -- the weights moved before the cascade, the rows after it
    have hm' := hcut.trimmed.weightsMoved rm.stored hm r
    have hdrift := hcut.drift r
    have hw' := congrArg (BitVec.ofNat 128) (hw r)
    have hget : s₃.representationGet r = s₂.representationGet r := by
      unfold representationGet
      rw [hrepr]
    rw [BitVec.ofNat_add, BitVec.ofNat_add] at hw'
    unfold drift at hdrift ⊢
    rw [hget]
    linear_combination hdrift + hm' - hw'

include hr he hh hg in
/-- A head that nothing can receive is removed at once. -/
theorem cutBack_of_removed {now : ℕ} {c : Except Fault BlockStore} (hs : e.sendsTo = none)
    (hundo : ∀ _ : Λ.Removable h e,
      ∃ s', c = .ok s' ∧ Removed now s s' Λ h e ∧ WeightsMoved s s' Λ e) :
    ∃ s' Λ', c = .ok s' ∧ CutBack U s s' Λ Λ' h ∧ Λ'.entry h = none := by
  have rm := removable he hh hg hs
  obtain ⟨s', hrun, hrem, hm⟩ := hundo rm
  exact ⟨s', Λ.erase rm, hrun, .erase hr rm hrem hm, erase_entry_self rm⟩

include hrb hass hr he hh hg hn in
/-- **Undoing a head**, whatever its kind. -/
theorem rollbackVisit_cutBack (now : ℕ) :
    ∃ s' Λ', rollbackVisit p now rb n s e.block = .ok s' ∧ CutBack U s s' Λ Λ' h ∧
      Λ'.entry h = none := by
  cases hblock : e.block with
  | sendBlock b => exact rollbackSend_cutBack hrb hr he hh hg hn hblock now
  | receiveBlock b =>
    exact cutBack_of_removed hr he hh hg (by unfold Entry.sendsTo; rw [hblock])
      fun rm => rollbackReceive_removed hr rm hass hblock now
  | openBlock b =>
    exact cutBack_of_removed hr he hh hg (by unfold Entry.sendsTo; rw [hblock])
      fun rm => rollbackOpen_removed hr rm hass hblock now
  | changeBlock b =>
    exact cutBack_of_removed hr he hh hg (by unfold Entry.sendsTo; rw [hblock])
      fun rm => rollbackChange_removed hr rm hass hblock now
  | stateBlock b => exact rollbackState_cutBack hrb hass hr he hh hg hn hblock now

end Visit

/-! ## The whole call -/

section Call

variable (hass : HashAssumptions p U) (now : ℕ)

include hass

/-- One iteration of the loop in `rollback`: the head of the account of `h`
rests on `h`, and goes. -/
theorem rollbackHead_cutBack {rb : BlockStore → BlockHash → Except Fault BlockStore} {n : ℕ}
    (hrb : RollsBack p U rb n) (hr : Refines U s Λ) (he : Λ.entry h = some e)
    (hg : h ≠ p.genesisHash) (hn : Λ.above e.rank ≤ n) :
    ∃ s' Λ', rollbackHead p now rb n e.owner s = .ok s' ∧ CutBack U s s' Λ Λ' h ∧
      Λ'.above e.rank < Λ.above e.rank := by
  obtain ⟨info, hi⟩ := hr.accounts.complete he
  obtain ⟨ex, hd⟩ := hr.accounts.sound hi
  have hrest : Λ.Rests info.head h := hd.isHead.rests_on hd.head he hd.owner.symm
  have hrank := hrest.rank_le hd.head he
  have hgen : info.head ≠ p.genesisHash := by
    intro heq
    rw [heq] at hrest
    exact hg hrest.of_genesis
  obtain ⟨s', Λ', hrun, hcut, hgone⟩ := rollbackVisit_cutBack hrb hass hr hd.head hd.isHead hgen
    ((above_le hrank).trans hn) now
  refine ⟨s', Λ', ?_, (CutBack.refl hr h).trans hcut hrest,
    hcut.trimmed.above_lt hd.head hrank hgone⟩
  unfold rollbackHead accountGet
  rw [hi]
  dsimp only
  rw [hr.blocks.blockGet_some hd.head]
  exact hrun

/-- Enough fuel is enough: the depth of the recursion and the length of every
loop are bounded by the number of entries above the target. -/
theorem rollbackFuel_rollsBack (n : ℕ) : RollsBack p U (rollbackFuel p now n) n := by
  induction n with
  | zero =>
    intro s Λ h e _ _ _ hn
    exact absurd hn (Nat.not_lt_zero _)
  | succ n ih =>
    intro s Λ h e hr he hg hn
    let I : ℕ → BlockStore → Prop := fun k s₁ => ∃ Λ₁, CutBack U s s₁ Λ Λ₁ h ∧
      Λ₁.above e.rank = k ∧ k ≤ n
    have hstep : ∀ k s₁, I k s₁ → s₁.blockExists h = true → ∃ k' s₂,
        rollbackHead p now (rollbackFuel p now n) n e.owner s₁ = .ok s₂ ∧
          k' < k ∧ I k' s₂ := by
      rintro k s₁ ⟨Λ₁, hcut, hk, hkn⟩ hcond
      rw [hcut.refines.blocks.blockExists] at hcond
      obtain ⟨e₁, he₁⟩ := Option.isSome_iff_exists.mp hcond
      obtain rfl := Option.some.inj (he.symm.trans (hcut.trimmed.sub he₁))
      obtain ⟨s₂, Λ₂, hrun, hcut₂, hdrop⟩ :=
        rollbackHead_cutBack hass now ih hcut.refines he₁ hg (by omega)
      exact ⟨_, s₂, hrun, hk ▸ hdrop, Λ₂, hcut.trans hcut₂ .refl, rfl, by omega⟩
    have hloop : ∃ k' s', whileLoop .outOfFuel (fun s => s.blockExists h)
        (rollbackHead p now (rollbackFuel p now n) n e.owner) n s = .ok s' ∧
          I k' s' ∧ s'.blockExists h = false :=
      whileLoop_total hstep n _ s (by omega) ⟨Λ, .refl hr h, rfl, by omega⟩
    obtain ⟨_, s', hrun, ⟨Λ', hcut, _⟩, hdone⟩ := hloop
    refine ⟨s', Λ', ?_, hcut, ?_⟩
    · unfold rollbackFuel
      rw [hr.blocks.blockExists_true he, assertThat_true, ok_bind,
        hr.blocks.account hass hr.frontiers hr.blocksInfo he, ok_bind, hrun]
    · rw [hcut.refines.blocks.blockExists] at hdone
      simpa using hdone

omit hass in
theorem Refines.above_le_blockCount (hr : Refines U s Λ) (r : ℕ) : Λ.above r ≤ s.blockCount := by
  refine le_trans (Set.ncard_le_ncard ?_ (finite_blocks s))
    (ncard_blocks_le s)
  rintro x ⟨ex, hx, _⟩
  exact hr.blocks.blockExists_true hx

/-- **Rollback works.** In a store that refines a lattice, rolling back any
stored block but genesis succeeds, cuts the lattice back and removes the
block. -/
theorem rollback_cutBack (hr : Refines U s Λ) (he : Λ.entry h = some e)
    (hg : h ≠ p.genesisHash) :
    ∃ s' Λ', rollback p now s h = .ok s' ∧ CutBack U s s' Λ Λ' h ∧ Λ'.entry h = none := by
  refine rollbackFuel_rollsBack hass now _ s Λ h e hr he hg ?_
  have hle := hr.above_le_blockCount e.rank
  unfold fuel
  omega

omit hass in
/-- Undoing the genesis block looks up the account that sent to it, and there is
none. -/
theorem rollbackOpen_genesis (hr : Refines U s Λ) (s' : BlockStore) :
    rollbackOpen p now s p.genesisOpen ≠ .ok s' := by
  intro hrun
  unfold rollbackOpen at hrun
  obtain ⟨_, _, hrun⟩ := bind_eq_ok hrun
  obtain ⟨_, _, hrun⟩ := bind_eq_ok hrun
  obtain ⟨_, haccount, _⟩ := bind_eq_ok hrun
  have hsource : s.blockGet p.genesisOpen.hashables.source = none :=
    (hr.blocks.readable hr.blocksInfo).genesisAccount
  unfold account at haccount
  rw [hsource] at haccount
  cases haccount

/-- **The genesis block cannot be rolled back.** -/
theorem rollback_genesis (hr : Refines U s Λ) (s' : BlockStore) :
    rollback p now s p.genesisHash ≠ .ok s' := by
  intro hrun
  obtain ⟨n, hn, hle⟩ : ∃ n, s.fuel = n + 1 ∧ Λ.above 0 ≤ n := by
    have := hr.above_le_blockCount 0
    refine ⟨s.fuel - 1, ?_, ?_⟩
    · unfold fuel
      omega
    · unfold fuel
      omega
  unfold rollback at hrun
  rw [hn] at hrun
  unfold rollbackFuel at hrun
  rw [hr.blocks.blockExists_true Λ.genesis, assertThat_true, ok_bind,
    hr.blocks.account hass hr.frontiers hr.blocksInfo Λ.genesis, ok_bind] at hrun
  -- the loop never gets past the genesis block, which every lattice has
  let I : BlockStore → Prop := fun s₁ => ∃ Λ₁ : Lattice p, Refines U s₁ Λ₁ ∧ Λ₁.above 0 ≤ n
  have hstep : ∀ s₁ s₂, I s₁ → s₁.blockExists p.genesisHash = true →
      rollbackHead p now (rollbackFuel p now n) n p.genesisEntry.owner s₁ = .ok s₂ →
      I s₂ := by
    rintro s₁ s₂ ⟨Λ₁, hr₁, hle₁⟩ _ hbody
    obtain ⟨info, hi⟩ := hr₁.accounts.complete Λ₁.genesis
    obtain ⟨ex, hd⟩ := hr₁.accounts.sound hi
    unfold rollbackHead accountGet at hbody
    rw [hi] at hbody
    dsimp only at hbody
    rw [hr₁.blocks.blockGet_some hd.head] at hbody
    by_cases hgen : info.head = p.genesisHash
    · have hblock := hd.head
      rw [hgen, Λ₁.genesis] at hblock
      rw [← Option.some.inj hblock] at hbody
      exact absurd hbody (rollbackOpen_genesis now hr₁ s₂)
    · obtain ⟨s₃, Λ₃, hvisit, hcut, hgone⟩ := rollbackVisit_cutBack
        (rollbackFuel_rollsBack hass now n) hass hr₁ hd.head hd.isHead hgen
        ((above_le (Nat.zero_le _)).trans hle₁) now
      obtain rfl := Except.ok.inj (hvisit.symm.trans hbody)
      exact ⟨Λ₃, hcut.refines, (hcut.trimmed.above_lt hd.head (Nat.zero_le _) hgone).le.trans hle₁⟩
  obtain ⟨⟨Λ', hr', _⟩, hdone⟩ := whileLoop_invariant hstep n s s' ⟨Λ, hr, hle⟩ hrun
  rw [hr'.blocks.blockExists_true Λ'.genesis] at hdone
  cases hdone

end Call

end RaiBlocks
