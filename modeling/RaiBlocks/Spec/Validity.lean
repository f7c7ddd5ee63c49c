import RaiBlocks.Spec.Bridge
import RaiBlocks.Refinement.Process

/-!
# Valid blocks are the ones a lattice can take in

`BlockSet.Valid` speaks about a set of blocks, `Lattice.Admissible` about the
entry that would be added. On a store of a run the two say the same.
-/

namespace RaiBlocks

open RaiBlocks.Lattice

variable {p : Env} {U : Set Block} {Λ : Lattice p} {s : BlockStore} {h : BlockHash} {e q : Entry}

theorem Refines.blockGet_eq (hr : Refines U s Λ) : s.blockGet = Λ.blocks :=
  funext hr.blocks.blockGet

/-! ## Admissible blocks are valid -/

namespace Lattice.Admissible

variable (ad : Λ.Admissible h e)

include ad

theorem ownerOfNew : Λ.blocks.OwnerOfNew e.block e.owner := by
  unfold BlockSet.OwnerOfNew
  cases ha : e.block.account? with
  | some a => exact account?_eq (insert_entry_self ad) ha
  | none =>
    obtain ⟨q, hq, hfol⟩ := ad.below ha
    exact owner_iff.mpr ⟨q, hq, hfol.owner⟩

theorem lastOf (hq : Λ.entry e.block.previous = some q) (hown : q.owner = e.owner) :
    Λ.blocks.LastOf e.owner e.block.previous :=
  lastOf_iff.mpr ⟨q, hq, hown, ad.head (Λ.ne_zero hq)⟩

theorem notOwner (hp : e.block.previous = 0) (x : BlockHash) : ¬ Λ.blocks.Owner x e.owner := by
  intro ho
  obtain ⟨ex, hx, hown⟩ := owner_iff.mp ho
  exact ad.unopened hp x ex hx hown

theorem unreceivedSource {x : BlockHash} {src : Entry} (hs : Λ.entry x = some src)
    (hd : src.sendsTo = some e.owner) (hrec : e.receives p = some x) :
    Λ.blocks.Unreceived p x e.owner :=
  unreceived_iff.mpr ⟨src, hs, hd, ad.unreceived x hrec⟩

theorem legacyPlace (hl : e.block.account? = none) :
    Λ.blocks.LegacyPlace e.owner e.block := by
  obtain ⟨q, hq, hfol⟩ := ad.below hl
  refine ⟨ad.lastOf hq hfol.owner, q.block, blocks_some hq, hfol.legacy ?_⟩
  cases hb : e.block with
  | openBlock b => rfl
  | stateBlock b =>
    rw [hb] at hl
    cases hl
  | _ => rfl

theorem statePlace {b : StateBlock} (hb : e.block = .stateBlock b) :
    if b.hashables.previous = 0 then ∀ x, ¬ Λ.blocks.Owner x e.owner
    else Λ.blocks.LastOf e.owner b.hashables.previous := by
  have hprev : b.hashables.previous = e.block.previous := by
    rw [hb]
    rfl
  rw [hprev]
  rcases ad.justified.first_or_follows with hf | ⟨q, hq, hfol⟩
  · rw [if_pos hf.previous]
    exact ad.notOwner hf.previous
  · rw [if_neg (Λ.ne_zero hq)]
    exact ad.lastOf hq hfol.owner

theorem fits : Λ.blocks.Fits p e.owner e.block := by
  have hlegacy := ad.legacyPlace
  have hstate := fun b => ad.statePlace (b := b)
  have hnew := ad.notOwner
  have hun : ∀ x src, Λ.entry x = some src → src.sendsTo = some e.owner →
      e.receives p = some x → Λ.blocks.Unreceived p x e.owner :=
    fun _ _ => ad.unreceivedSource
  have hj := ad.justified
  cases hj with
  | genesis hh => exact absurd hh (ad.ne_of_stored Λ.genesis).symm
  | @send b q hq hl hle => exact ⟨hlegacy rfl, q.balance, balanceAt_entry _ q hq, hle⟩
  | receive hq hl hs hd hlt => exact ⟨hlegacy rfl, hun _ _ hs hd rfl⟩
  | openAccount h0 hg hs hd => exact ⟨hnew rfl, hun _ _ hs hd (if_neg hg)⟩
  | change hq hl => exact hlegacy rfl
  | @stateSend b q hq ho hlt =>
    exact ⟨hstate b rfl, q.balance, Or.inr (balanceAt_entry _ q hq), Or.inl hlt⟩
  | @stateChange b q hq ho hl hbal =>
    exact ⟨hstate b rfl, q.balance, Or.inr (balanceAt_entry _ q hq),
      Or.inr (Or.inl ⟨⟨_, owner_iff.mpr ⟨q, hq, ho⟩⟩, hl, hbal⟩)⟩
  | @stateReceive b q src hq ho hl hs hd hbal =>
    have hrec := hun _ src hs hd (if_neg (not_or.mpr
      ⟨by show ¬ b.hashables.balance.toNat < q.balance; omega, hl⟩))
    exact ⟨hstate b rfl, q.balance, Or.inr (balanceAt_entry _ q hq),
      Or.inr (Or.inr ⟨hrec, src.amount, (takes_iff hs hd).mpr rfl, hbal⟩)⟩
  | @stateOpen b src h0 hp hl hs hd hbal =>
    have hrec := hun _ src hs hd (if_neg (not_or.mpr ⟨Nat.not_lt_zero _, hl⟩))
    exact ⟨hstate b rfl, 0, Or.inl ⟨hp, rfl⟩,
      Or.inr (Or.inr ⟨hrec, src.amount, (takes_iff hs hd).mpr rfl, by rw [hbal, Nat.zero_add]⟩)⟩

theorem valid : Λ.blocks.Valid p e.block := by
  refine ⟨?_, e.owner, ad.ownerOfNew, (sound (insert_entry_self ad)).1, ?_, ad.fits⟩
  · rw [blocks_none, ad.hash_eq]
    exact ad.fresh
  · rw [ad.hash_eq]
    exact ad.signed

end Lattice.Admissible

/-! ## Valid blocks are admissible -/

section Admissible

variable (hr : Refines U s Λ) (hass : HashAssumptions p U) {a : Account}

include hr hass

/-- A block of one of the older kinds on top of a head: what is left is to find
its rule. -/
theorem Refines.admissible_of_legacyPlace {b : Block} (hU : b ∈ U)
    (hfresh : Λ.entry (b.hash p) = none) (hplace : Λ.blocks.LegacyPlace a b)
    (hsig : p.validateMessage a (b.hash p) b.blockSignature = false)
    (hrule : ∀ q, Λ.entry b.previous = some q → Λ.IsHead b.previous → q.owner = a →
      q.block.isLegacy = true → ∃ e, Justified p Λ.entry (b.hash p) e ∧ e.block = b ∧
      e.owner = q.owner ∧ ∀ x, e.receives p = some x → ¬ Λ.Received x) :
    ∃ e, e.block = b ∧ Λ.Admissible (b.hash p) e := by
  obtain ⟨hlast, c, hc, hl⟩ := hplace
  obtain ⟨q, hq, rfl, hhead⟩ := lastOf_iff.mp hlast
  obtain ⟨q', hq', rfl⟩ := of_blocks hc
  obtain rfl := Option.some.inj (hq.symm.trans hq')
  obtain ⟨e, hj, hb, hown, hrec⟩ := hrule q hq hhead rfl hl
  exact ⟨e, hb, hr.admissible_head hass hU hb hfresh hj hhead hown hq hrec hsig⟩

theorem Refines.admissible_of_fits_open {b : OpenBlock} (hU : .openBlock b ∈ U)
    (hfresh : Λ.entry ((Block.openBlock b).hash p) = none) (hown : b.hashables.account = a)
    (hburn : a ≠ burnAccount)
    (hsig : p.validateMessage a ((Block.openBlock b).hash p) b.signature = false)
    (hfits : Λ.blocks.Fits p a (.openBlock b)) :
    ∃ e, e.block = .openBlock b ∧ Λ.Admissible ((Block.openBlock b).hash p) e := by
  subst hown
  obtain ⟨hnew, hun⟩ := hfits
  obtain ⟨src, hs, hd, hnr⟩ := unreceived_iff.mp hun
  have hgen : b.hashables.source ≠ p.genesisAccount := by
    intro heq
    rw [heq] at hs
    cases (Λ.owner_unstored Λ.genesis).symm.trans hs
  obtain ⟨e, hj, hb, hown, hrec⟩ : ∃ e, Justified p Λ.entry ((Block.openBlock b).hash p) e ∧
      e.block = .openBlock b ∧ e.owner = b.hashables.account ∧
      e.receives p = some b.hashables.source :=
    ⟨_, .openAccount hburn hgen hs hd, rfl, rfl, if_neg hgen⟩
  refine ⟨e, hb, hr.admissible hass (hb ▸ hU) (by rw [hb]) hfresh hj (fun hne => ?_)
    (fun _ x ex hx ho => ?_) (fun x hx => ?_) (by rw [hown, hb]; exact hsig)⟩
  · rw [hb] at hne
    exact absurd rfl hne
  · exact hnew x (owner_iff.mpr ⟨ex, hx, ho.trans hown⟩)
  · obtain rfl := Option.some.inj (hrec.symm.trans hx)
    exact hnr

omit hr hass in
theorem Lattice.stateMoves_of_transition {b : StateBlock} {n : ℕ}
    (ht : Λ.blocks.StateTransition p b.hashables.account b n) : Λ.StateMoves b n := by
  rcases ht with hlt | ⟨_, hl, hbal⟩ | ⟨hun, m, hm, hbal⟩
  · exact .sends hlt
  · exact .keeps hl hbal
  · obtain ⟨src, hs, hd, hnr⟩ := unreceived_iff.mp hun
    rw [← (takes_iff hs hd).mp hm] at hbal
    exact .takes (Λ.ne_zero hs) hs hd hnr hbal

theorem Refines.admissible_of_fits_state {b : StateBlock} (hU : .stateBlock b ∈ U)
    (hfresh : Λ.entry ((Block.stateBlock b).hash p) = none) (hown : b.hashables.account = a)
    (hburn : a ≠ burnAccount)
    (hsig : p.validateMessage a ((Block.stateBlock b).hash p) b.signature = false)
    (hfits : Λ.blocks.Fits p a (.stateBlock b)) :
    ∃ e, e.block = .stateBlock b ∧ Λ.Admissible ((Block.stateBlock b).hash p) e := by
  subst hown
  obtain ⟨hplace, n, hprior, htrans⟩ := hfits
  have hm := stateMoves_of_transition htrans
  by_cases hp : b.hashables.previous = 0
  · rw [if_pos hp] at hplace
    have hn : n = 0 := by
      rcases hprior with ⟨_, hn⟩ | hbal
      · exact hn
      · rw [show (Block.stateBlock b).previous = 0 from hp] at hbal
        obtain ⟨q, hq, _⟩ := balance_of_balanceAt hbal
        cases Λ.entry_zero.symm.trans hq
    subst hn
    have hl : b.hashables.link ≠ 0 := by
      intro hl
      rcases htrans with hlt | ⟨⟨x, hx⟩, _⟩ | ⟨hun, _⟩
      · exact Nat.not_lt_zero _ hlt
      · exact hplace x hx
      · obtain ⟨src, hs, _⟩ := unreceived_iff.mp hun
        exact Λ.ne_zero hs hl
    obtain ⟨e, ad, hb, _⟩ := hr.admissible_stateOpen hass hU hfresh hsig hburn hp hl
      (fun x ex hx hown => hplace x (owner_iff.mpr ⟨ex, hx, hown⟩)) hm
    exact ⟨e, hb, ad⟩
  · rw [if_neg hp] at hplace
    obtain ⟨q, hq, hown, hhead⟩ := lastOf_iff.mp hplace
    have hn : q.balance = n := by
      rcases hprior with ⟨h0, _⟩ | hbal
      · exact absurd h0 hp
      · obtain ⟨q', hq', hn⟩ := balance_of_balanceAt hbal
        rw [Option.some.inj (hq.symm.trans hq'), hn]
    obtain ⟨e, ad, hb, _⟩ := hr.admissible_state hass hU hfresh hsig hq hhead hown (hn ▸ hm)
    exact ⟨e, hb, ad⟩

theorem Refines.admissible_of_valid (hsupply : s.supply < 2 ^ 128) {b : Block} (hU : b ∈ U)
    (hv : Λ.blocks.Valid p b) : ∃ e, e.block = b ∧ Λ.Admissible (b.hash p) e := by
  obtain ⟨hfresh, a, hown, hburn, hsig, hfits⟩ := hv
  rw [blocks_none] at hfresh
  cases b with
  | sendBlock b =>
    obtain ⟨hplace, n, hn, hle⟩ := hfits
    refine hr.admissible_of_legacyPlace hass hU hfresh hplace hsig fun q hq _ _ hl => ?_
    obtain ⟨q', hq', rfl⟩ := balance_of_balanceAt hn
    obtain rfl := Option.some.inj (hq.symm.trans hq')
    exact ⟨_, .send hq hl hle, rfl, rfl, fun x hrec => by cases hrec⟩
  | receiveBlock b =>
    obtain ⟨hplace, hun⟩ := hfits
    obtain ⟨src, hs, hd, hnr⟩ := unreceived_iff.mp hun
    refine hr.admissible_of_legacyPlace hass hU hfresh hplace hsig fun q hq hhead hqa hl => ?_
    subst hqa
    -- the supply bounds the new balance
    obtain ⟨info, hi, _, hdesc⟩ := hr.accounts.of_head hq hhead
    have hle := BlockStore.balance_add_amount_le hi
      ((hr.pending q.owner b.hashables.source _).mpr ⟨src, hs, hd, hnr, rfl⟩)
    rw [hdesc.balance, toNat_pendingInfo hs] at hle
    refine ⟨_, .receive hq hl hs hd (hle.trans_lt hsupply), rfl, rfl, fun x hrec => ?_⟩
    rw [← Option.some.inj hrec]
    exact hnr
  | openBlock b => exact hr.admissible_of_fits_open hass hU hfresh hown hburn hsig hfits
  | changeBlock b =>
    refine hr.admissible_of_legacyPlace hass hU hfresh hfits hsig fun q hq _ _ hl => ?_
    exact ⟨_, .change hq hl, rfl, rfl, fun x hrec => by cases hrec⟩
  | stateBlock b => exact hr.admissible_of_fits_state hass hU hfresh hown hburn hsig hfits

end Admissible

end RaiBlocks
