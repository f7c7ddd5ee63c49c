import RaiBlocks.Refinement.Commit

/-!
# What `ledger::process` decides

On a store that refines a lattice, `process` never fails. It accepts a block
exactly when the lattice has room for it, and then the tables grow by its
entry; otherwise nothing is written. `Outcome` says this once for all five
kinds of block.
-/

namespace RaiBlocks

open Foundation Block Entry RaiBlocks.Lattice

variable {p : Env} {U : Set Block} {Λ : Lattice p} {s : BlockStore} {h : BlockHash} {e : Entry}
  {now prior : ℕ} {b : StateBlock} {info : AccountInfo}

/-- The ways in which a place can be taken: the predecessor has a successor,
the account is open, or a state block has chosen another account's head as its
predecessor. -/
inductive Lattice.Contested (Λ : Lattice p) (b : Block) : Prop
  | followed {q : Entry} : Λ.entry b.previous = some q → ¬ Λ.IsHead b.previous → Contested Λ b
  | opened {a : Account} : b.previous = 0 → b.account? = some a → ¬ Λ.Unopened a → Contested Λ b
  | foreign {q : Entry} : b.isLegacy = false → Λ.entry b.previous = some q →
      Λ.IsHead b.previous → Contested Λ b

/-- The possible results of processing `b`. -/
inductive Outcome (now : ℕ) (s : BlockStore) (Λ : Lattice p) (b : Block) :
    BlockStore × ProcessReturn → Prop
  | refused {ret : ProcessReturn} (code : ret.code ≠ .progress)
      (inadmissible : ∀ e, e.block = b → ¬ Λ.Admissible (b.hash p) e)
      (fork : ret.code = .fork → Λ.entry (b.hash p) = none ∧ Λ.Contested b) :
      Outcome now s Λ b (s, ret)
  | accepted {s' : BlockStore} {ret : ProcessReturn} {e : Entry}
      (ad : Λ.Admissible (b.hash p) e) (block : e.block = b) (code : ret.code = .progress)
      (account : ret.account = some e.owner)
      (amount : ret.amount = some (BitVec.ofNat 128 e.amount))
      (inserted : Inserted now s s' Λ ad) : Outcome now s Λ b (s', ret)

/-! ## Admissible blocks of a run -/

section Admissible

variable (hr : Refines U s Λ) (hass : HashAssumptions p U)

include hr hass

/-- The hash of a block of the run is no account of the lattice. -/
theorem Refines.owner_ne_hash {b : Block} (hU : b ∈ U) {h' : BlockHash} {e' : Entry}
    (he' : Λ.entry h' = some e') : e'.owner ≠ b.hash p := by
  obtain ⟨x, o, hx, hown, hheight, _⟩ :=
    exists_below 1 le_rfl h' e' he' (height_pos he')
  rcases first_or_follows hx with hf | ⟨q, hq, hfol⟩
  · have := hass.ne_account hU (hr.known hx) hf.account
    rw [hown] at this
    exact this.symm
  · have := height_pos hq
    have := hfol.height
    omega

/-- An account named by a block of the run is no block. -/
theorem Refines.account_unstored {b : Block} (hU : b ∈ U) {a : Account}
    (ha : b.account? = some a) : Λ.entry a = none := by
  cases hx : Λ.entry a with
  | none => rfl
  | some e' => exact absurd (Λ.hash_eq hx) (hass.ne_account (hr.known hx) hU ha)

theorem Refines.admissible (hU : e.block ∈ U) (hh : e.block.hash p = h)
    (hfresh : Λ.entry h = none) (hj : Justified p Λ.entry h e)
    (hhead : e.block.previous ≠ 0 → Λ.IsHead e.block.previous)
    (hun : e.block.previous = 0 → Λ.Unopened e.owner)
    (hrec : ∀ x, e.receives p = some x → ¬ Λ.Received x)
    (hsig : p.validateMessage e.owner h e.block.blockSignature = false) :
    Λ.Admissible h e := by
  subst hh
  refine ⟨hfresh, rfl, hj, hhead, hun, hrec, hsig, hass.ne_zero hU, hass.ne_one hU,
    fun h' e' he' => hr.owner_ne_hash hass hU he', ?_, ?_⟩
  · rcases hj.first_or_follows with hf | ⟨q, hq, hfol⟩
    · exact (hass.ne_account hU hU hf.account).symm
    · rw [← hfol.owner]
      exact hr.owner_ne_hash hass hU hq
  · rcases hj.first_or_follows with hf | ⟨q, hq, hfol⟩
    · exact hr.account_unstored hass hU hf.account
    · rw [← hfol.owner]
      exact Λ.owner_unstored hq

theorem Refines.admissible_head {b : Block} {q : Entry} (hU : b ∈ U) (hb : e.block = b)
    (hfresh : Λ.entry (b.hash p) = none) (hj : Justified p Λ.entry (b.hash p) e)
    (hhead : Λ.IsHead b.previous) (hown : e.owner = q.owner) (hq : Λ.entry b.previous = some q)
    (hrec : ∀ x, e.receives p = some x → ¬ Λ.Received x)
    (hsig : p.validateMessage q.owner (b.hash p) b.blockSignature = false) :
    Λ.Admissible (b.hash p) e := by
  subst hb
  exact hr.admissible hass hU rfl hfresh hj (fun _ => hhead)
    (fun h0 => absurd h0 (Λ.ne_zero hq)) hrec (by rw [hown]; exact hsig)

end Admissible

/-- A block without an account field has a predecessor. -/
theorem Lattice.Admissible.below (ad : Λ.Admissible h e) (ha : e.block.account? = none) :
    ∃ q, Λ.entry e.block.previous = some q ∧ e.Follows q := by
  rcases ad.justified.first_or_follows with hf | hq
  · cases ha.symm.trans hf.account
  · exact hq

theorem Block.validPredecessor_eq {b : Block} (ha : b.account? = none) (previous : Block) :
    b.validPredecessor previous = previous.isLegacy := by
  cases b with
  | openBlock b => cases ha
  | stateBlock b => cases ha
  | _ => cases previous <;> rfl

theorem FrontiersOk.frontierGet_of_not_isHead (hf : FrontiersOk s.frontiers Λ)
    (hh : ¬ Λ.IsHead h) : s.frontierGet h = 0 := by
  by_contra hne
  obtain ⟨_, _, _, hhead, _⟩ := hf.of_frontierGet_ne hne
  exact hh hhead

/-- Refusing a block with a code other than `fork`. -/
theorem Outcome.rejected {b : Block} {ret : ProcessReturn} (hcode : ret.code ≠ .progress)
    (hfork : ret.code ≠ .fork) (hno : ∀ e, e.block = b → ¬ Λ.Admissible (b.hash p) e) :
    Outcome now s Λ b (s, ret) :=
  .refused hcode hno fun h => absurd h hfork

theorem Outcome.old {b : Block} (he : Λ.entry (b.hash p) = some e) :
    Outcome now s Λ b (s, .of .old) := by
  refine .rejected (by decide) (by decide) fun e' _ ad => ?_
  rw [ad.fresh] at he
  cases he

/-! ## Change, send and receive blocks

The three kinds share their first checks. `Position` has the answers of the
store for a block `b` of these kinds, with the reason in the lattice. -/

inductive Position (s : BlockStore) (Λ : Lattice p) (b : Block) : Prop
  | absent (get : s.blockGet b.previous = none) (entry : Λ.entry b.previous = none)
  | state {q : Entry} (get : s.blockGet b.previous = some q.block)
      (valid : b.validPredecessor q.block = false) (entry : Λ.entry b.previous = some q)
      (state : q.block.isLegacy = false)
  | followed {q : Entry} (get : s.blockGet b.previous = some q.block)
      (valid : b.validPredecessor q.block = true) (entry : Λ.entry b.previous = some q)
      (frontier : s.frontierGet b.previous = 0) (followed : ¬ Λ.IsHead b.previous)
  | head {q : Entry} {info : AccountInfo} (get : s.blockGet b.previous = some q.block)
      (valid : b.validPredecessor q.block = true) (entry : Λ.entry b.previous = some q)
      (frontier : s.frontierGet b.previous = q.owner) (legacy : q.block.isLegacy = true)
      (head : Λ.IsHead b.previous) (row : s.accountGet q.owner = some info)
      (rowHead : info.head = b.previous) (describes : Λ.Describes q.owner info q)

theorem Refines.position (hr : Refines U s Λ) {b : Block} (ha : b.account? = none) :
    Position s Λ b := by
  cases hq : Λ.entry b.previous with
  | none =>
    refine .absent ?_ hq
    rw [hr.blocks.blockGet, hq]
    rfl
  | some q =>
    have hget := hr.blocks.blockGet_some hq
    have hvalid := validPredecessor_eq ha q.block
    cases hl : q.block.isLegacy with
    | false => exact .state hget (hvalid.trans hl) hq hl
    | true =>
      by_cases hhead : Λ.IsHead b.previous
      · obtain ⟨info, hi, hinfo, hd⟩ := hr.accounts.of_head hq hhead
        exact .head hget (hvalid.trans hl) hq (hr.frontiers.frontierGet hq hhead hl) hl hhead
          hi hinfo hd
      · exact .followed hget (hvalid.trans hl) hq
          (hr.frontiers.frontierGet_of_not_isHead hhead) hhead

section Refusals

variable {b : Block} (ha : b.account? = none) {ret : ProcessReturn} (hcode : ret.code ≠ .progress)
  {q : Entry}

include ha hcode

/-- Refusing a block of these kinds: the reason has to contradict what its
being admissible says about the predecessor. -/
theorem Outcome.refuse
    (hno : ∀ e q, e.block = b → Λ.Admissible (b.hash p) e → Λ.entry b.previous = some q →
      e.Follows q → Λ.IsHead b.previous → False)
    (hfork : ret.code = .fork → Λ.entry (b.hash p) = none ∧ Λ.Contested b) :
    Outcome now s Λ b (s, ret) := by
  refine .refused hcode (fun e hb ad => ?_) hfork
  obtain ⟨q, hq, hfol⟩ := ad.below (by rw [hb]; exact ha)
  have hhead := ad.head (Λ.ne_zero hq)
  rw [hb] at hq hhead
  exact hno e q hb ad hq hfol hhead

theorem Outcome.gapPrevious (hne : ret.code ≠ .fork) (hq : Λ.entry b.previous = none) :
    Outcome now s Λ b (s, ret) := by
  refine .refuse ha hcode (fun _ _ _ _ hq' _ _ => ?_) (fun h => absurd h hne)
  cases hq.symm.trans hq'

theorem Outcome.blockPosition (hne : ret.code ≠ .fork) (hlegacy : b.isLegacy = true)
    (hq : Λ.entry b.previous = some q) (hl : q.block.isLegacy = false) :
    Outcome now s Λ b (s, ret) := by
  refine .refuse ha hcode (fun e q' hb _ hq' hfol _ => ?_) (fun h => absurd h hne)
  obtain rfl := Option.some.inj (hq.symm.trans hq')
  cases hl.symm.trans (hfol.legacy (by rw [hb]; exact hlegacy))

theorem Outcome.forked (hfresh : Λ.entry (b.hash p) = none) (hq : Λ.entry b.previous = some q)
    (hhead : ¬ Λ.IsHead b.previous) : Outcome now s Λ b (s, ret) :=
  .refuse ha hcode (fun _ _ _ _ _ _ hhead' => hhead hhead')
    (fun _ => ⟨hfresh, .followed hq hhead⟩)

theorem Outcome.badSignature (hne : ret.code ≠ .fork) (hq : Λ.entry b.previous = some q)
    (hv : p.validateMessage q.owner (b.hash p) b.blockSignature = true) :
    Outcome now s Λ b (s, ret) := by
  refine .refuse ha hcode (fun e q' hb ad hq' hfol _ => ?_) (fun h => absurd h hne)
  obtain rfl := Option.some.inj (hq.symm.trans hq')
  have hsig := ad.signed
  rw [← hfol.owner, hb] at hsig
  cases hv.symm.trans hsig

end Refusals

section Legacy

variable (hr : Refines U s Λ) (hass : HashAssumptions p U)

include hr hass

theorem changeBlock_outcome {b : ChangeBlock} (hU : changeBlock b ∈ U) :
    ∃ r, Ledger.changeBlock p now s b = .ok r ∧ Outcome now s Λ (.changeBlock b) r := by
  unfold Ledger.changeBlock
  dsimp only
  cases hx : Λ.entry ((changeBlock b).hash p) with
  | some e =>
    rw [hr.blocks.blockExists_true hx]
    exact ⟨_, rfl, .old hx⟩
  | none =>
  rw [hr.blocks.blockExists_false hx, if_neg Bool.false_ne_true]
  rw [show b.hashables.previous = (changeBlock b).previous from rfl]
  cases hr.position (b := .changeBlock b) rfl with
  | absent hget hq =>
    rw [hget]
    exact ⟨_, rfl, .gapPrevious rfl (by decide) (by decide) hq⟩
  | state hget hvalid hq hl =>
    rw [hget]
    dsimp only
    rw [hvalid]
    exact ⟨_, rfl, .blockPosition rfl (by decide) (by decide) rfl hq hl⟩
  | followed hget hvalid hq hfront hhead =>
    rw [hget]
    dsimp only
    rw [hvalid, hfront]
    exact ⟨_, rfl, .forked rfl (by decide) hx hq hhead⟩
  | @head q info hget hvalid hq hfront hl hhead hi hinfo hd =>
    rw [hget]
    dsimp only
    rw [hvalid, hfront, if_neg (c := (!true) = true) Bool.false_ne_true, if_neg (Λ.sound hq).1, hi]
    dsimp only
    rw [decide_eq_true hinfo, assertThat_true, ok_bind]
    cases hv : p.validateMessage q.owner ((changeBlock b).hash p) b.signature with
    | true => exact ⟨_, rfl, .badSignature rfl (by decide) (by decide) hq hv⟩
    | false =>
      obtain ⟨e, hj, hb, hown, hamount, hrec⟩ : ∃ e,
          Justified p Λ.entry ((changeBlock b).hash p) e ∧ e.block = .changeBlock b ∧
          e.owner = q.owner ∧ e.amount = 0 ∧ e.receives p = none :=
        ⟨_, .change hq hl, rfl, rfl, by simp [amount], rfl⟩
      have ad := hr.admissible_head hass hU hb hx hj hhead hown hq
        (fun x hn => absurd hn (by simp [hrec])) hv
      obtain ⟨s', hcommit, hins⟩ := changeBlockCommit_inserted hr ad hb (hown ▸ hi) now
      rw [if_neg Bool.false_ne_true, ← hown, hcommit]
      exact ⟨_, rfl, .accepted ad hb rfl rfl (by rw [hamount]; rfl) hins⟩

theorem sendBlock_outcome {b : SendBlock} (hU : sendBlock b ∈ U) :
    ∃ r, Ledger.sendBlock p now s b = .ok r ∧ Outcome now s Λ (.sendBlock b) r := by
  unfold Ledger.sendBlock
  dsimp only
  cases hx : Λ.entry ((sendBlock b).hash p) with
  | some e =>
    rw [hr.blocks.blockExists_true hx]
    exact ⟨_, rfl, .old hx⟩
  | none =>
  rw [hr.blocks.blockExists_false hx, if_neg Bool.false_ne_true]
  rw [show b.hashables.previous = (sendBlock b).previous from rfl]
  cases hr.position (b := .sendBlock b) rfl with
  | absent hget hq =>
    rw [hget]
    exact ⟨_, rfl, .gapPrevious rfl (by decide) (by decide) hq⟩
  | state hget hvalid hq hl =>
    rw [hget]
    dsimp only
    rw [hvalid]
    exact ⟨_, rfl, .blockPosition rfl (by decide) (by decide) rfl hq hl⟩
  | followed hget hvalid hq hfront hhead =>
    rw [hget]
    dsimp only
    rw [hvalid, hfront]
    exact ⟨_, rfl, .forked rfl (by decide) hx hq hhead⟩
  | @head q info hget hvalid hq hfront hl hhead hi hinfo hd =>
    rw [hget]
    dsimp only
    rw [hvalid, hfront, if_neg (c := (!true) = true) Bool.false_ne_true, if_neg (Λ.sound hq).1]
    cases hv : p.validateMessage q.owner ((sendBlock b).hash p) b.signature with
    | true => exact ⟨_, rfl, .badSignature rfl (by decide) (by decide) hq hv⟩
    | false =>
      rw [if_neg Bool.false_ne_true, hi]
      dsimp only
      rw [decide_eq_true hinfo, assertThat_true, ok_bind]
      have hle : b.hashables.balance ≤ info.balance ↔
          b.hashables.balance.toNat ≤ q.balance := by
        rw [BitVec.le_def, hd.balance]
      by_cases hneg : b.hashables.balance.toNat ≤ q.balance
      · obtain ⟨e, hj, hb, hown, hamount, hrec⟩ : ∃ e,
            Justified p Λ.entry ((sendBlock b).hash p) e ∧ e.block = .sendBlock b ∧
            e.owner = q.owner ∧ e.amount = q.balance - b.hashables.balance.toNat ∧
            e.receives p = none := by
          refine ⟨_, .send hq hl hneg, rfl, rfl, ?_, rfl⟩
          simp only [amount]
          split <;> omega
        have ad := hr.admissible_head hass hU hb hx hj hhead hown hq
          (fun x hn => absurd hn (by simp [hrec])) hv
        obtain ⟨s', hcommit, hins⟩ := sendBlockCommit_inserted hr ad hb (hown ▸ hi) now
        have hsub : balanceSub p info.balance b.hashables.balance =
            .ok (BitVec.ofNat 128 e.amount) := by
          rw [eq_ofNat_of_toNat hd.balance, hamount]
          exact (congrArg _ (eq_ofNat_of_toNat rfl)).trans
            (balanceSub_ofNat p (Λ.sound hq).2.2 hneg)
        rw [if_neg (not_not.mpr (hle.mpr hneg)), hsub, ok_bind, ← hown, hcommit]
        exact ⟨_, rfl, .accepted ad hb rfl rfl rfl hins⟩
      · rw [if_pos (mt hle.mp hneg)]
        refine ⟨_, rfl, .refuse rfl (by decide) ?_ fun h => absurd h (by decide)⟩
        intro e q' hb ad hq' hfol _
        obtain rfl := Option.some.inj (hq.symm.trans hq')
        have hbal := ad.justified.balance?_toNat (x := b.hashables.balance) (by rw [hb]; rfl)
        have hmove := ad.sends_of_block hb
        have hprior := hfol.prior
        omega

omit hass in
/-- The pending row of a source, read back as an unreceived send. -/
theorem Refines.of_pendingGet {a : Account} {x : BlockHash} {pending : PendingInfo}
    (hp : s.pendingGet ⟨a, x⟩ = some pending) :
    ∃ src, Λ.entry x = some src ∧ src.sendsTo = some a ∧ ¬ Λ.Received x ∧
      pending = src.pendingInfo :=
  (hr.pending a x pending).mp hp

omit hass in
/-- Without a pending row, nothing can receive the source. -/
theorem Refines.not_receives {a : Account} {x : BlockHash} (hp : s.pendingGet ⟨a, x⟩ = none)
    (ad : Λ.Admissible h e) (hown : e.owner = a) : e.receives p ≠ some x := by
  intro hrec
  obtain ⟨src, hs, ht⟩ := ad.justified.takes hrec
  have hrow := hr.pending.lookup_source ad hrec hs ht
  rw [hown] at hrow
  cases hp.symm.trans hrow

theorem receiveBlock_outcome {b : ReceiveBlock} (hU : receiveBlock b ∈ U)
    (hsupply : s.supply < 2 ^ 128) :
    ∃ r, Ledger.receiveBlock p now s b = .ok r ∧ Outcome now s Λ (.receiveBlock b) r := by
  have hreceives : ∀ e : Entry, e.block = .receiveBlock b →
      e.receives p = some b.hashables.source := by
    intro e hb
    unfold receives
    rw [hb]
  unfold Ledger.receiveBlock
  dsimp only
  cases hx : Λ.entry ((receiveBlock b).hash p) with
  | some e =>
    rw [hr.blocks.blockExists_true hx]
    exact ⟨_, rfl, .old hx⟩
  | none =>
  rw [hr.blocks.blockExists_false hx, if_neg Bool.false_ne_true]
  rw [show b.hashables.previous = (receiveBlock b).previous from rfl]
  cases hr.position (b := .receiveBlock b) rfl with
  | absent hget hq =>
    rw [hget]
    exact ⟨_, rfl, .gapPrevious rfl (by decide) (by decide) hq⟩
  | state hget hvalid hq hl =>
    rw [hget]
    dsimp only
    rw [hvalid]
    exact ⟨_, rfl, .blockPosition rfl (by decide) (by decide) rfl hq hl⟩
  | @followed q hget hvalid hq hfront hhead =>
    rw [hget]
    dsimp only
    rw [hvalid, hfront, if_neg (c := (!true) = true) Bool.false_ne_true]
    cases hsrc : s.blockExists b.hashables.source with
    | false =>
      refine ⟨_, rfl, .refuse rfl (by decide) ?_ fun h => absurd h (by decide)⟩
      exact fun _ _ _ _ _ _ hhead' => hhead hhead'
    | true =>
      rw [hr.blocks.blockExists_true hq]
      exact ⟨_, rfl, .forked rfl (by decide) hx hq hhead⟩
  | @head q info hget hvalid hq hfront hl hhead hi hinfo hd =>
    rw [hget]
    dsimp only
    rw [hvalid, hfront, if_neg (c := (!true) = true) Bool.false_ne_true]
    cases hsrc : Λ.entry b.hashables.source with
    | none =>
      rw [hr.blocks.blockExists_false hsrc]
      refine ⟨_, rfl, .refuse rfl (by decide) ?_ fun h => absurd h (by decide)⟩
      intro e q' hb ad _ _ _
      obtain ⟨src, hs, _⟩ := ad.justified.takes (hreceives e hb)
      cases hsrc.symm.trans hs
    | some src₀ =>
    rw [hr.blocks.blockExists_true hsrc, if_neg (c := (!true) = true) Bool.false_ne_true,
      if_neg (Λ.sound hq).1]
    cases hv : p.validateMessage q.owner ((receiveBlock b).hash p) b.signature with
    | true => exact ⟨_, rfl, .badSignature rfl (by decide) (by decide) hq hv⟩
    | false =>
    rw [if_neg Bool.false_ne_true, hi, Option.getD_some, if_neg (not_not.mpr hinfo)]
    cases hp : s.pendingGet ⟨q.owner, b.hashables.source⟩ with
    | none =>
      refine ⟨_, rfl, .refuse rfl (by decide) ?_ fun h => absurd h (by decide)⟩
      intro e q' hb ad hq' hfol _
      obtain rfl := Option.some.inj (hq.symm.trans hq')
      exact hr.not_receives hp ad hfol.owner.symm (hreceives e hb)
    | some pending =>
      obtain ⟨src, hs, hdest, hunrec, hpend⟩ := hr.of_pendingGet hp
      -- the supply bounds the new balance
      have hlt : q.balance + src.amount < 2 ^ 128 := by
        have hle := BlockStore.balance_add_amount_le hi hp
        rw [hd.balance, hpend, toNat_pendingInfo hs] at hle
        exact hle.trans_lt hsupply
      obtain ⟨e, hj, hb, hown, hamount⟩ : ∃ e,
          Justified p Λ.entry ((receiveBlock b).hash p) e ∧ e.block = .receiveBlock b ∧
          e.owner = q.owner ∧ e.amount = src.amount := by
        refine ⟨_, .receive hq hl hs hdest hlt, rfl, rfl, ?_⟩
        simp [amount]
      have ad := hr.admissible_head hass hU hb hx hj hhead hown hq
        (fun x hn => by
          obtain rfl := Option.some.inj ((hreceives e hb).symm.trans hn)
          exact hunrec) hv
      obtain ⟨s', hcommit, hins⟩ := receiveBlockCommit_inserted hr ad hb (hown ▸ hi)
        (hown ▸ hp) now
      dsimp only
      rw [← hown, hcommit]
      refine ⟨_, rfl, .accepted ad hb rfl rfl ?_ hins⟩
      rw [hamount, hpend]
      rfl

end Legacy

/-! ## Open blocks -/

theorem Lattice.Admissible.of_openBlock (ad : Λ.Admissible h e) {b : OpenBlock}
    (hb : e.block = .openBlock b) : e.owner = b.hashables.account ∧
      e.receives p = some b.hashables.source ∧ b.hashables.account ≠ 0 :=
  ad.justified.of_openBlock (ad.ne_of_stored Λ.genesis).symm hb

theorem openBlock_outcome (hr : Refines U s Λ) (hass : HashAssumptions p U) {b : OpenBlock}
    (hU : openBlock b ∈ U) :
    ∃ r, Ledger.openBlock p now s b = .ok r ∧ Outcome now s Λ (.openBlock b) r := by
  unfold Ledger.openBlock
  dsimp only
  cases hx : Λ.entry ((openBlock b).hash p) with
  | some e =>
    rw [hr.blocks.blockExists_true hx]
    exact ⟨_, rfl, .old hx⟩
  | none =>
  rw [hr.blocks.blockExists_false hx, if_neg Bool.false_ne_true]
  cases hsrc : Λ.entry b.hashables.source with
  | none =>
    rw [hr.blocks.blockExists_false hsrc]
    refine ⟨_, rfl, .rejected (by decide) (by decide) fun e hb ad => ?_⟩
    obtain ⟨src, hs, _⟩ := ad.justified.takes (ad.of_openBlock hb).2.1
    cases hsrc.symm.trans hs
  | some src₀ =>
  rw [hr.blocks.blockExists_true hsrc, if_neg (c := (!true) = true) Bool.false_ne_true]
  cases hv : p.validateMessage b.hashables.account ((openBlock b).hash p) b.signature with
  | true =>
    refine ⟨_, rfl, .rejected (by decide) (by decide) fun e hb ad => ?_⟩
    have hsig := ad.signed
    rw [(ad.of_openBlock hb).1, hb] at hsig
    cases hv.symm.trans hsig
  | false =>
  rw [if_neg Bool.false_ne_true]
  cases hi : s.accountGet b.hashables.account with
  | some info =>
    have hopen : ¬ Λ.Unopened b.hashables.account := by
      intro hun
      cases hi.symm.trans (hr.accounts.lookup_none_iff.mpr hun)
    refine ⟨_, rfl, .refused (by decide) (fun e hb ad => hopen ?_)
      (fun _ => ⟨hx, .opened rfl rfl hopen⟩)⟩
    rw [← (ad.of_openBlock hb).1]
    exact ad.unopened (by rw [hb]; rfl)
  | none =>
  cases hp : s.pendingGet ⟨b.hashables.account, b.hashables.source⟩ with
  | none =>
    refine ⟨_, rfl, .rejected (by decide) (by decide) fun e hb ad => ?_⟩
    obtain ⟨hown, hrec, _⟩ := ad.of_openBlock hb
    exact hr.not_receives hp ad hown hrec
  | some pending =>
  dsimp only
  by_cases h0 : b.hashables.account = burnAccount
  · rw [if_pos h0]
    refine ⟨_, rfl, .rejected (by decide) (by decide) fun e hb ad => ?_⟩
    exact (ad.of_openBlock hb).2.2 h0
  · obtain ⟨src, hs, hdest, hunrec, hpend⟩ := hr.of_pendingGet hp
    have hgen : b.hashables.source ≠ p.genesisAccount := by
      intro heq
      rw [heq] at hs
      cases (Λ.owner_unstored Λ.genesis).symm.trans hs
    obtain ⟨e, hj, hb, hown, hamount, hrec⟩ : ∃ e,
        Justified p Λ.entry ((openBlock b).hash p) e ∧ e.block = .openBlock b ∧
        e.owner = b.hashables.account ∧ e.amount = src.amount ∧
        e.receives p = some b.hashables.source := by
      refine ⟨_, .openAccount h0 hgen hs hdest, rfl, rfl, ?_, if_neg hgen⟩
      simp [amount]
    have ad : Λ.Admissible ((openBlock b).hash p) e := by
      refine hr.admissible hass (hb ▸ hU) (by rw [hb]) hx hj (fun hne => ?_) (fun _ => ?_)
        (fun x hn => ?_) (by rw [hown, hb]; exact hv)
      · rw [hb] at hne
        exact absurd rfl hne
      · rw [hown]
        exact hr.accounts.lookup_none_iff.mp hi
      · obtain rfl := Option.some.inj (hrec.symm.trans hn)
        exact hunrec
    obtain ⟨s', hcommit, hins⟩ := openBlockCommit_inserted hr ad hb hrec (hown ▸ hi)
      (hown ▸ hp) now
    rw [if_neg h0, hcommit]
    refine ⟨_, rfl, .accepted ad hb rfl (congrArg some hown.symm) ?_ hins⟩
    rw [hamount, hpend]
    rfl

/-! ## State blocks -/

/-- The ways a state block may change the balance `prior` of its account. -/
inductive Lattice.StateMoves (Λ : Lattice p) (b : StateBlock) (prior : ℕ) : Prop
  | sends : b.hashables.balance.toNat < prior → StateMoves Λ b prior
  | keeps : b.hashables.link = 0 → b.hashables.balance.toNat = prior → StateMoves Λ b prior
  | takes {src : Entry} : b.hashables.link ≠ 0 → Λ.entry b.hashables.link = some src →
      src.sendsTo = some b.hashables.account → ¬ Λ.Received b.hashables.link →
      b.hashables.balance.toNat = prior + src.amount → StateMoves Λ b prior

/-- The amount that `state_block_impl` has computed. -/
def stateAmount (b : StateBlock) (prior : ℕ) : ℕ :=
  if b.hashables.balance.toNat < prior then prior - b.hashables.balance.toNat
  else b.hashables.balance.toNat - prior

theorem ite_progress_iff {c : Prop} [Decidable c] :
    (if c then ProcessResult.progress else .balanceMismatch) = .progress ↔ c := by
  split
  · exact iff_of_true rfl ‹c›
  · exact iff_of_false (by decide) ‹¬ c›

/-- The second half of the checks decides `StateMoves`. -/
theorem Refines.stateBlockSource_iff (hr : Refines U s Λ) (b : StateBlock) (info : AccountInfo)
    (hprior : prior < 2 ^ 128) :
    Ledger.stateBlockSource s b ⟨.progress, info, decide (b.hashables.balance.toNat < prior),
        BitVec.ofNat 128 (stateAmount b prior)⟩ = .progress ↔ Λ.StateMoves b prior := by
  have hbal := b.hashables.balance.isLt
  unfold Ledger.stateBlockSource stateAmount
  by_cases hlt : b.hashables.balance.toNat < prior
  · rw [if_neg (by simp [hlt])]
    exact iff_of_true rfl (.sends hlt)
  · rw [if_pos (by simp [hlt]), if_neg hlt]
    have hinj : ∀ {n : ℕ}, n < 2 ^ 128 →
        (BitVec.ofNat 128 (b.hashables.balance.toNat - prior) = BitVec.ofNat 128 n ↔
          b.hashables.balance.toNat = prior + n) := by
      intro n hn
      constructor
      · intro heq
        have := congrArg BitVec.toNat heq
        rw [toNat_ofNat_of_lt (by omega), toNat_ofNat_of_lt hn] at this
        omega
      · intro heq
        rw [heq, Nat.add_sub_cancel_left]
    by_cases hlink : b.hashables.link = 0
    · rw [if_neg (not_not.mpr hlink)]
      refine ite_progress_iff.trans ((hinj (n := 0) (by norm_num)).trans ⟨.keeps hlink, ?_⟩)
      rintro (hsend | ⟨_, heq⟩ | ⟨hne, _⟩)
      · exact absurd hsend hlt
      · exact heq
      · exact absurd hlink hne
    · rw [if_pos hlink]
      have htakes : Λ.StateMoves b prior → ∃ src, Λ.entry b.hashables.link = some src ∧
          s.pendingGet ⟨b.hashables.account, b.hashables.link⟩ = some src.pendingInfo ∧
          b.hashables.balance.toNat = prior + src.amount := by
        rintro (hsend | ⟨heq, _⟩ | ⟨_, hs, hd, hun, hb⟩)
        · exact absurd hsend hlt
        · exact absurd heq hlink
        · exact ⟨_, hs, (hr.pending _ _ _).mpr ⟨_, hs, hd, hun, rfl⟩, hb⟩
      cases hs : Λ.entry b.hashables.link with
      | none =>
        rw [hr.blocks.blockExists_false hs]
        refine iff_of_false (by simp) fun hm => ?_
        obtain ⟨src, hs', _⟩ := htakes hm
        cases hs.symm.trans hs'
      | some src₀ =>
      rw [hr.blocks.blockExists_true hs, if_neg (c := (!true) = true) Bool.false_ne_true]
      cases hp : s.pendingGet ⟨b.hashables.account, b.hashables.link⟩ with
      | none =>
        refine iff_of_false (by simp) fun hm => ?_
        obtain ⟨src, _, hrow, _⟩ := htakes hm
        cases hp.symm.trans hrow
      | some pending =>
        obtain ⟨src, hs', hd, hun, rfl⟩ := hr.of_pendingGet hp
        have hamount : src.amount < 2 ^ 128 := by
          rw [← toNat_pendingInfo hs']
          exact BitVec.isLt _
        refine ite_progress_iff.trans ((hinj hamount).trans ⟨.takes hlink hs' hd hun, ?_⟩)
        intro hm
        obtain ⟨src', hs'', _, heq⟩ := htakes hm
        obtain rfl := Option.some.inj (hs'.symm.trans hs'')
        exact heq

theorem stateBlockSource_ne_fork (s : BlockStore) (b : StateBlock) (info : AccountInfo)
    (isSend : Bool) (amount : Uint128) :
    Ledger.stateBlockSource s b ⟨.progress, info, isSend, amount⟩ ≠ .fork := by
  unfold Ledger.stateBlockSource
  repeat' split
  all_goals simp

/-- What the rules say of a state block that can be added. -/
theorem Lattice.Admissible.of_stateBlock (ad : Λ.Admissible h e) (hb : e.block = .stateBlock b) :
    e.owner = b.hashables.account ∧
      ((∃ q, Λ.entry b.hashables.previous = some q ∧ e.Follows q ∧ Λ.StateMoves b q.balance) ∨
        b.hashables.previous = 0 ∧ b.hashables.link ≠ 0 ∧ Λ.StateMoves b 0) := by
  have hfirst := ad.justified.first_or_follows
  have hun := ad.unreceived
  have htakes : ∀ {c : StateBlock} {prior : ℕ} {src : Entry}, c.hashables.link ≠ 0 →
      Λ.entry c.hashables.link = some src → src.sendsTo = some c.hashables.account →
      e.block = .stateBlock c → e.prior = prior → e.balance = c.hashables.balance.toNat →
      c.hashables.balance.toNat = prior + src.amount → Λ.StateMoves c prior := by
    intro c prior src hl hs hd hc hprior hbal hsum
    refine .takes hl hs hd (hun _ ?_) hsum
    unfold receives
    rw [hc]
    exact if_neg (not_or.mpr ⟨by omega, hl⟩)
  have hj := ad.justified
  cases hj with
  | @stateSend c q hq ho hlt =>
    cases hb
    obtain ⟨q', hq', hfol⟩ := hfirst.resolve_left fun hf => Λ.ne_zero hq hf.previous
    obtain rfl := Option.some.inj (hq.symm.trans hq')
    exact ⟨rfl, Or.inl ⟨q, hq, hfol, .sends hlt⟩⟩
  | @stateChange c q hq ho hl hbal =>
    cases hb
    obtain ⟨q', hq', hfol⟩ := hfirst.resolve_left fun hf => Λ.ne_zero hq hf.previous
    obtain rfl := Option.some.inj (hq.symm.trans hq')
    exact ⟨rfl, Or.inl ⟨q, hq, hfol, .keeps hl hbal⟩⟩
  | @stateReceive c q src hq ho hl hs hd hbal =>
    cases hb
    obtain ⟨q', hq', hfol⟩ := hfirst.resolve_left fun hf => Λ.ne_zero hq hf.previous
    obtain rfl := Option.some.inj (hq.symm.trans hq')
    exact ⟨rfl, Or.inl ⟨q, hq, hfol, htakes hl hs hd rfl rfl rfl hbal⟩⟩
  | @stateOpen c src h0 hp hl hs hd hbal =>
    cases hb
    refine ⟨rfl, Or.inr ⟨hp, hl, htakes hl hs hd rfl rfl rfl ?_⟩⟩
    rw [hbal, Nat.zero_add]
  | _ => cases hb

section State

variable (hr : Refines U s Λ) (hass : HashAssumptions p U) (hU : stateBlock b ∈ U)
  (hx : Λ.entry ((stateBlock b).hash p) = none)
  (hv : p.validateMessage b.hashables.account ((stateBlock b).hash p) b.signature = false)

include hr hass hU hx hv

/-- The entry of a state block on top of the head of its account. -/
theorem Refines.admissible_state {q : Entry} (hq : Λ.entry b.hashables.previous = some q)
    (hhead : Λ.IsHead b.hashables.previous) (hown : q.owner = b.hashables.account)
    (hm : Λ.StateMoves b q.balance) :
    ∃ e, Λ.Admissible ((stateBlock b).hash p) e ∧ e.block = .stateBlock b ∧
      e.owner = b.hashables.account ∧ e.prior = q.balance ∧
      e.balance = b.hashables.balance.toNat := by
  have hgo : ∀ e, Justified p Λ.entry ((stateBlock b).hash p) e →
      e.block = .stateBlock b → e.owner = b.hashables.account →
      (∀ x, e.receives p = some x → ¬ Λ.Received x) →
      Λ.Admissible ((stateBlock b).hash p) e := by
    intro e hj hb ho hrec
    exact hr.admissible_head hass hU hb hx hj hhead (ho.trans hown.symm) hq hrec
      (by rw [hown]; exact hv)
  rcases hm with hlt | ⟨hl, hbal⟩ | ⟨hl, hs, hd, hun, hbal⟩
  · refine ⟨_, hgo _ (.stateSend hq hown hlt) rfl rfl ?_, rfl, rfl, rfl, rfl⟩
    intro x hrec
    simp [receives, hlt] at hrec
  · refine ⟨_, hgo _ (.stateChange hq hown hl hbal) rfl rfl ?_, rfl, rfl, rfl, rfl⟩
    intro x hrec
    simp [receives, hl] at hrec
  · refine ⟨_, hgo _ (.stateReceive hq hown hl hs hd hbal) rfl rfl ?_, rfl, rfl, rfl, rfl⟩
    intro x hrec
    simp only [receives] at hrec
    split at hrec
    · cases hrec
    · obtain rfl := Option.some.inj hrec
      exact hun

/-- The entry of a state block that opens its account. -/
theorem Refines.admissible_stateOpen (h0 : b.hashables.account ≠ 0)
    (hp : b.hashables.previous = 0) (hl : b.hashables.link ≠ 0)
    (hopen : Λ.Unopened b.hashables.account) (hm : Λ.StateMoves b 0) :
    ∃ e, Λ.Admissible ((stateBlock b).hash p) e ∧ e.block = .stateBlock b ∧
      e.owner = b.hashables.account ∧ e.prior = 0 ∧ e.balance = b.hashables.balance.toNat := by
  rcases hm with hlt | ⟨hl', _⟩ | ⟨_, hs, hd, hun, hbal⟩
  · exact absurd hlt (Nat.not_lt_zero _)
  · exact absurd hl' hl
  · have hj : Justified p Λ.entry ((stateBlock b).hash p) _ :=
      .stateOpen h0 hp hl hs hd (by rw [hbal, Nat.zero_add])
    refine ⟨_, hr.admissible hass hU rfl hx hj (fun hne => absurd hp hne) (fun _ => hopen) ?_ hv,
      rfl, rfl, rfl, rfl⟩
    intro x hrec
    simp only [receives] at hrec
    split at hrec
    · cases hrec
    · obtain rfl := Option.some.inj hrec
      exact hun

end State

/-- From the position on: the block is added exactly when it moves money in one
of the allowed ways. -/
theorem stateBlockFinish_outcome (hr : Refines U s Λ) (hprior : prior < 2 ^ 128)
    (hinfo : s.accounts.lookup b.hashables.account = some info ∨ s.accounts.lookup b.hashables.account = none ∧ info = .zero)
    (hgo : Λ.StateMoves b prior → ∃ e, Λ.Admissible ((stateBlock b).hash p) e ∧ e.block = .stateBlock b ∧ e.owner = b.hashables.account ∧ e.prior = prior ∧ e.balance = b.hashables.balance.toNat)
    (hno : ∀ e, e.block = .stateBlock b → Λ.Admissible ((stateBlock b).hash p) e → Λ.StateMoves b prior) :
    ∃ r, Ledger.stateBlockFinish p now s b ⟨.progress, info,
        decide (b.hashables.balance.toNat < prior),
        BitVec.ofNat 128 (stateAmount b prior)⟩ = .ok r ∧
      Outcome now s Λ (.stateBlock b) r := by
  have hiff := hr.stateBlockSource_iff b info hprior
  unfold Ledger.stateBlockFinish
  by_cases hm : Λ.StateMoves b prior
  · obtain ⟨e, ad, hb, hown, hprior', hbal⟩ := hgo hm
    rw [← hown] at hinfo
    obtain ⟨s', hcommit, hins⟩ := stateBlockCommit_inserted hr ad hb hinfo now
    have hamount : e.amount = stateAmount b prior := by
      unfold amount stateAmount
      rw [hprior', hbal]
    rw [hprior', hbal, hamount] at hcommit
    rw [hiff.mpr hm]
    dsimp only
    rw [if_pos rfl, hcommit]
    refine ⟨_, rfl, .accepted ad hb rfl (congrArg some hown.symm) ?_ hins⟩
    rw [hamount]
  · dsimp only
    rw [if_neg (mt hiff.mp hm)]
    refine ⟨_, rfl, .refused (mt hiff.mp hm) (fun e hb ad => hm (hno e hb ad)) fun hfork => ?_⟩
    exact absurd hfork (stateBlockSource_ne_fork _ _ _ _ _)

theorem stateBlockFinish_refused {c : Ledger.StateCheck} (hc : c.code ≠ .progress) :
    Ledger.stateBlockFinish p now s b c = .ok (s, ⟨c.code, none, some c.amount, none, none⟩) := by
  have hcode : Ledger.stateBlockSource s b c = c.code := if_neg fun h => hc h.1
  unfold Ledger.stateBlockFinish
  rw [hcode]
  dsimp only
  rw [if_neg hc]

theorem stateBlockPosition_eq (hi : s.accountGet b.hashables.account = some info)
    (hd : Λ.Describes b.hashables.account info e) (h0 : b.hashables.previous ≠ 0)
    (hexists : s.blockExists b.hashables.previous = true) :
    Ledger.stateBlockPosition p s b =
      .ok ⟨if b.hashables.previous = info.head then .progress else .fork, info,
        decide (b.hashables.balance.toNat < e.balance),
        BitVec.ofNat 128 (stateAmount b e.balance)⟩ := by
  have hbal : b.hashables.balance = BitVec.ofNat 128 b.hashables.balance.toNat :=
    eq_ofNat_of_toNat rfl
  have hinfo : info.balance = BitVec.ofNat 128 e.balance := eq_ofNat_of_toNat hd.balance
  have hsend : decide (b.hashables.balance < info.balance) =
      decide (b.hashables.balance.toNat < e.balance) :=
    decide_eq_decide.mpr (by rw [BitVec.lt_def, hd.balance])
  unfold Ledger.stateBlockPosition stateAmount
  rw [hi]
  dsimp only
  rw [if_neg h0, hexists, if_neg (c := (!true) = true) Bool.false_ne_true, hsend]
  by_cases hlt : b.hashables.balance.toNat < e.balance
  · have hsub : balanceSub p info.balance b.hashables.balance =
        .ok (BitVec.ofNat 128 (e.balance - b.hashables.balance.toNat)) := by
      rw [hinfo]
      exact (congrArg _ hbal).trans (balanceSub_ofNat p (Λ.sound hd.head).2.2 hlt.le)
    rw [decide_eq_true hlt, if_pos rfl, hsub, if_pos hlt]
    rfl
  · have hsub : balanceSub p b.hashables.balance info.balance =
        .ok (BitVec.ofNat 128 (b.hashables.balance.toNat - e.balance)) := by
      rw [hinfo]
      exact (congrArg (balanceSub p · _) hbal).trans
        (balanceSub_ofNat p b.hashables.balance.isLt (not_lt.mp hlt))
    rw [decide_eq_false hlt, if_neg Bool.false_ne_true, hsub, if_neg hlt]
    rfl

theorem stateBlockImpl_outcome (hr : Refines U s Λ) (hass : HashAssumptions p U)
    (hU : stateBlock b ∈ U) :
    ∃ r, Ledger.stateBlockImpl p now s b = .ok r ∧ Outcome now s Λ (.stateBlock b) r := by
  unfold Ledger.stateBlockImpl
  dsimp only
  cases hx : Λ.entry ((stateBlock b).hash p) with
  | some e =>
    rw [hr.blocks.blockExists_true hx]
    exact ⟨_, rfl, .old hx⟩
  | none =>
  rw [hr.blocks.blockExists_false hx, if_neg Bool.false_ne_true]
  cases hv : p.validateMessage b.hashables.account ((stateBlock b).hash p) b.signature with
  | true =>
    refine ⟨_, rfl, .rejected (by decide) (by decide) fun e hb ad => ?_⟩
    have hsig := ad.signed
    rw [(ad.of_stateBlock hb).1, hb] at hsig
    cases hv.symm.trans hsig
  | false =>
  rw [if_neg Bool.false_ne_true]
  by_cases h0 : b.hashables.account = 0
  · rw [if_pos h0]
    refine ⟨_, rfl, .rejected (by decide) (by decide) fun e hb ad => ?_⟩
    refine (sound (insert_entry_self ad)).1 ?_
    rw [(ad.of_stateBlock hb).1, h0]
  rw [if_neg h0]
  cases hi : s.accountGet b.hashables.account with
  | none =>
    have hun : Λ.Unopened b.hashables.account := hr.accounts.lookup_none_iff.mp hi
    -- a block of an unopened account can only be the first one
    have hfirst : ∀ e, e.block = .stateBlock b → Λ.Admissible ((stateBlock b).hash p) e →
        b.hashables.previous = 0 ∧ b.hashables.link ≠ 0 ∧ Λ.StateMoves b 0 := by
      intro e hb ad
      obtain ⟨hown, ⟨q, hq, hfol, _⟩ | hfirst⟩ := ad.of_stateBlock hb
      · exact absurd (hfol.owner.trans hown) (hun _ q hq)
      · exact hfirst
    unfold Ledger.stateBlockPosition
    rw [hi]
    dsimp only
    by_cases hp : b.hashables.previous = 0
    · rw [if_neg (not_not.mpr hp)]
      by_cases hl : b.hashables.link = 0
      · rw [if_pos hl, ok_bind]
        refine ⟨_, stateBlockFinish_refused (by simp),
          .rejected (by simp) (by simp) fun e hb ad => ?_⟩
        exact (hfirst e hb ad).2.1 hl
      · rw [if_neg hl, ok_bind]
        have hfinish : ∃ r, Ledger.stateBlockFinish p now s b ⟨.progress, .zero,
            decide (b.hashables.balance.toNat < 0), BitVec.ofNat 128 (stateAmount b 0)⟩ = .ok r ∧
            Outcome now s Λ (.stateBlock b) r :=
          stateBlockFinish_outcome hr (by norm_num) (Or.inr ⟨hi, rfl⟩)
            (hr.admissible_stateOpen hass hU hx hv h0 hp hl hun)
            (fun e hb ad => (hfirst e hb ad).2.2)
        simpa [stateAmount] using hfinish
    · rw [if_pos hp, ok_bind]
      refine ⟨_, stateBlockFinish_refused (by simp),
          .rejected (by simp) (by simp) fun e hb ad => ?_⟩
      exact hp (hfirst e hb ad).1
  | some info =>
    obtain ⟨e₀, hd⟩ := hr.accounts.sound hi
    have hopen : ¬ Λ.Unopened b.hashables.account :=
      fun hun => hun _ e₀ hd.head hd.owner
    -- a block of an open account can only stand on its head
    have hnext : ∀ e, e.block = .stateBlock b → Λ.Admissible ((stateBlock b).hash p) e →
        b.hashables.previous ≠ 0 ∧ b.hashables.previous = info.head ∧
        Λ.StateMoves b e₀.balance := by
      intro e hb ad
      obtain ⟨hown, ⟨q, hq, hfol, hm⟩ | ⟨hp, _⟩⟩ := ad.of_stateBlock hb
      · have hhead := ad.head (by rw [hb]; exact Λ.ne_zero hq)
        rw [hb] at hhead
        have heq : b.hashables.previous = info.head :=
          hhead.unique hd.isHead hq hd.head (hfol.owner.trans (hown.trans hd.owner.symm))
        obtain rfl := Option.some.inj (hq.symm.trans (heq ▸ hd.head))
        exact ⟨Λ.ne_zero hq, heq, hm⟩
      · exact absurd (hown ▸ ad.unopened (by rw [hb]; exact hp)) hopen
    by_cases hp : b.hashables.previous = 0
    · unfold Ledger.stateBlockPosition
      rw [hi]
      dsimp only
      rw [if_pos hp, ok_bind]
      refine ⟨_, stateBlockFinish_refused (by simp),
          .refused (by simp) (fun e hb ad => (hnext e hb ad).1 hp)
        (fun _ => ⟨hx, .opened hp rfl hopen⟩)⟩
    cases hq : Λ.entry b.hashables.previous with
    | none =>
      unfold Ledger.stateBlockPosition
      rw [hi]
      dsimp only
      rw [if_neg hp, hr.blocks.blockExists_false hq, if_pos (c := (!false) = true) rfl, ok_bind]
      refine ⟨_, stateBlockFinish_refused (by simp),
        .rejected (by simp) (by simp) fun e hb ad => ?_⟩
      rw [(hnext e hb ad).2.1, hd.head] at hq
      cases hq
    | some q =>
      rw [stateBlockPosition_eq hi hd hp (hr.blocks.blockExists_true hq), ok_bind]
      by_cases heq : b.hashables.previous = info.head
      · rw [if_pos heq]
        refine stateBlockFinish_outcome hr (Λ.sound hd.head).2.2 (Or.inl hi) ?_
          fun e hb ad => (hnext e hb ad).2.2
        exact hr.admissible_state hass hU hx hv (heq ▸ hd.head) (heq ▸ hd.isHead) hd.owner
      · rw [if_neg heq]
        refine ⟨_, stateBlockFinish_refused (by simp),
        .refused (by simp)
          (fun e hb ad => heq (hnext e hb ad).2.1) (fun _ => ⟨hx, ?_⟩)⟩
        by_cases hhead : Λ.IsHead b.hashables.previous
        · exact .foreign rfl hq hhead
        · exact .followed hq hhead

/-- **`ledger::process`** on a store that refines a lattice. -/
theorem process_outcome (hr : Refines U s Λ) (hass : HashAssumptions p U)
    (hsupply : s.supply < 2 ^ 128) {b : Block} (hU : b ∈ U) (now : ℕ) :
    ∃ r, Ledger.process p now s b = .ok r ∧ Outcome now s Λ b r := by
  cases b with
  | sendBlock b => exact sendBlock_outcome hr hass hU
  | receiveBlock b => exact receiveBlock_outcome hr hass hU hsupply
  | openBlock b => exact openBlock_outcome hr hass hU
  | changeBlock b => exact changeBlock_outcome hr hass hU
  | stateBlock b => exact stateBlockImpl_outcome hr hass hU

end RaiBlocks
