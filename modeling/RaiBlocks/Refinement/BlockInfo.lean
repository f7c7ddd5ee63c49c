import RaiBlocks.Foundation.Machine
import RaiBlocks.Lib.Stream
import RaiBlocks.Refinement.Reachable
import RaiBlocks.Spec.Chain
import RaiBlocks.Spec.Validity

/-!
# Rows of the block info table

What can be wrong with the table is a row for a state block, and only a rollback that uncovers
a state block at a position divisible by 32 writes one.
-/

namespace RaiBlocks

open Foundation RaiBlocks.Lattice

variable {p : Env} {U : Set Block} {s s' : BlockStore} {Λ Λ' : Lattice p} {h : BlockHash} {now : ℕ}

/-! ## Exactness -/

/-- The row `info` belongs to the block `h`. -/
structure InfoOf (p : Env) (s : BlockStore) (h : BlockHash) (info : BlockInfo) : Prop where
  legacy : ∃ b, s.blockGet h = some b ∧ b.isLegacy = true
  position : ∃ l, BlockSet.Chain s.blockGet h l ∧ l.length % BlockStore.blockInfoMax = 0
  account : BlockSet.Owner s.blockGet h info.account
  balance : BlockSet.BalanceAt p s.blockGet h info.balance.toNat

/-- The table holds the rows that belong to blocks and no others. -/
def InfoExact (p : Env) (s : BlockStore) : Prop :=
  ∀ h info, s.blockInfoGet h = some info ↔ InfoOf p s h info

theorem Refines.infoOf_iff (hr : Refines U s Λ) {info : BlockInfo} :
    InfoOf p s h info ↔ ∃ e, Λ.entry h = some e ∧ e.block.isLegacy = true ∧
      e.height % BlockStore.blockInfoMax = 0 ∧ info = e.blockInfo := by
  have hget := hr.blockGet_eq
  constructor
  · rintro ⟨⟨b, hb, hl⟩, ⟨l, hc, hlen⟩, hown, hbal⟩
    rw [hget] at hb hc hown hbal
    obtain ⟨e, he, rfl⟩ := of_blocks hb
    obtain ⟨e₁, he₁, hown⟩ := owner_iff.mp hown
    obtain rfl := Option.some.inj (he.symm.trans he₁)
    obtain ⟨e₂, he₂, hbal⟩ := balanceAt_iff.mp hbal
    obtain rfl := Option.some.inj (he.symm.trans he₂)
    rw [chain_length hc he] at hlen
    refine ⟨e, he, hl, hlen, ?_⟩
    rw [Entry.blockInfo, hown, hbal, BitVec.ofNat_toNat, BitVec.setWidth_eq]
  · rintro ⟨e, he, hl, hlen, rfl⟩
    obtain ⟨l, hc⟩ := exists_chain _ e he
    refine ⟨⟨e.block, hr.blocks.blockGet_some he, hl⟩, ⟨l, hget ▸ hc, ?_⟩, ?_, ?_⟩
    · rw [chain_length hc he, hlen]
    · rw [hget]
      exact owner_iff.mpr ⟨e, he, rfl⟩
    · rw [hget]
      exact balanceAt_iff.mpr ⟨e, he, (toNat_ofNat_of_lt (Λ.sound he).2.2).symm⟩

/-- What can be wrong with the table is a row that is not of one of the older
kinds. -/
theorem Refines.infoExact_iff (hr : Refines U s Λ) :
    InfoExact p s ↔ ∀ x, Λ.NotLegacy x → s.blocksInfo.lookup x = none := by
  constructor
  · intro hexact x hx
    cases hrow : s.blocksInfo.lookup x with
    | none => rfl
    | some info =>
      obtain ⟨e, he, hl, _⟩ := hr.infoOf_iff.mp ((hexact x info).mp hrow)
      rw [hx e he] at hl
      cases hl
  · intro hnone h info
    rw [hr.infoOf_iff]
    constructor
    · intro hrow
      have hstored : ∃ e, Λ.entry h = some e ∧ e.block.isLegacy = true := by
        by_contra hno
        have hx : Λ.NotLegacy h := by
          intro q hq
          by_contra hl
          exact hno ⟨q, hq, Bool.not_eq_false _ ▸ hl⟩
        cases (hnone h hx).symm.trans hrow
      obtain ⟨e, he, hl⟩ := hstored
      have hrule := hr.blocksInfo.legacy he hl
      rw [show s.blocksInfo.lookup h = some info from hrow] at hrule
      split at hrule
      · exact ⟨e, he, hl, ‹_›, Option.some.inj hrule⟩
      · cases hrule
    · rintro ⟨e, he, hl, hheight, rfl⟩
      exact (hr.blocksInfo.legacy he hl).trans (if_pos hheight)

/-! ## One call -/

/-- Rolling `h` back uncovers a state block at a position that is divisible by 32:
a block goes that stands on it. -/
def Uncovers (p : Env) (s : BlockStore) (h : BlockHash) : Prop :=
  ∃ x b q l, BlockSet.Dependents p s.blockGet x h ∧ s.blockGet x = some b ∧
    s.blockGet b.previous = some q ∧ q.isLegacy = false ∧
    BlockSet.Chain s.blockGet b.previous l ∧ l.length % BlockStore.blockInfoMax = 0

theorem Refines.uncovers_iff (hr : Refines U s Λ) :
    Uncovers p s h ↔ ∃ x e q, Λ.Rests x h ∧ Λ.entry x = some e ∧
      Λ.entry e.block.previous = some q ∧ q.block.isLegacy = false ∧
      q.height % BlockStore.blockInfoMax = 0 := by
  unfold Uncovers
  rw [hr.blockGet_eq]
  constructor
  · rintro ⟨x, b, q, l, hdep, hb, hq, hstate, hc, hlen⟩
    obtain ⟨e, he, rfl⟩ := of_blocks hb
    obtain ⟨q, hentry, rfl⟩ := of_blocks hq
    rw [chain_length hc hentry] at hlen
    exact ⟨x, e, q, dependents_iff.mp hdep, he, hentry, hstate, hlen⟩
  · rintro ⟨x, e, q, hrest, he, hq, hstate, hheight⟩
    obtain ⟨l, hc⟩ := exists_chain _ q hq
    refine ⟨x, e.block, q.block, l, dependents_iff.mpr hrest, blocks_some he,
      blocks_some hq, hstate, hc, ?_⟩
    rw [chain_length hc hq, hheight]

theorem Valid.infoExact_process (hass : HashAssumptions p U) (hv : Valid U s Λ)
    (hexact : InfoExact p s) {b : Block} (hU : b ∈ U) {r : BlockStore × ProcessReturn}
    (hrun : Ledger.process p now s b = .ok r) : InfoExact p r.1 := by
  obtain ⟨r', hrun', hout⟩ := hv.process hass hU now
  obtain rfl := Except.ok.inj (hrun'.symm.trans hrun)
  cases hout with
  | refused => exact hexact
  | @accepted s' ret e ad hblock _ _ _ hi =>
    have hv' := hv.accepted hass ad (hblock ▸ hU) hi
    refine hv'.refines.infoExact_iff.mpr fun x hx => ?_
    have hold := hv.refines.infoExact_iff.mp hexact x fun q hq =>
      hx q (insert_entry_of_stored ad hq)
    rw [hi.blocksInfo, blocksInfoInsert]
    split
    · rename_i hcond
      have hne : x ≠ b.hash p := by
        rintro rfl
        rw [hx e (insert_entry_self ad)] at hcond
        cases hcond.2
      rw [Table.lookup_insert_ite, if_neg hne, hold]
    · exact hold

/-- Rolling a block back keeps the table exact unless it uncovers a state block. -/
theorem Valid.infoExact_rollback_iff (hass : HashAssumptions p U) (hv : Valid U s Λ)
    (hexact : InfoExact p s) (hg : h ≠ p.genesisHash)
    (hrun : Ledger.rollback p now s h = .ok s') : InfoExact p s' ↔ ¬ Uncovers p s h := by
  have hstored := Ledger.blockExists_of_rollback hrun
  rw [hv.refines.blocks.blockExists] at hstored
  obtain ⟨e, he⟩ := Option.isSome_iff_exists.mp hstored
  obtain ⟨_, Λ', hrun', hcut, hgone⟩ := rollback_cutBack hass now hv.refines he hg
  obtain rfl := Except.ok.inj (hrun.symm.trans hrun')
  rw [hcut.refines.infoExact_iff, hv.refines.uncovers_iff]
  have hold := hv.refines.infoExact_iff.mp hexact
  constructor
  · rintro hnone ⟨x, ex, q, hrest, hx, hq, hstate, hheight⟩
    have hnot : Λ.NotLegacy ex.block.previous := by
      intro q' hq'
      rw [← Option.some.inj (hq.symm.trans hq'), hstate]
    have hxgone : Λ'.entry x = none := by
      cases hx' : Λ'.entry x with
      | none => rfl
      | some e' => exact absurd hrest ((hcut.trimmed.entry_iff hgone).mp hx').2
    have hrow := (hcut.rows _ hnot).mpr (Or.inr ⟨x, ex, q, hx, hxgone, rfl, hq, hheight⟩)
    rw [hnone _ fun q' hq' => hnot q' (hcut.trimmed.sub hq')] at hrow
    cases hrow
  · intro hno x hx
    cases hrow : s'.blocksInfo.lookup x with
    | none => rfl
    | some info =>
      exfalso
      -- the row is under the hash of a state block, so no block of `Λ` there is older
      have hnot : Λ.NotLegacy x := by
        intro q hq
        rcases hcut.refines.blocksInfo.other hrow with ⟨q', hq', hl⟩ | ⟨b, hb, hstate, hhash⟩
        · rw [hx q' hq'] at hl
          cases hl
        · by_contra hl
          exact hass.legacy_ne_state (hv.refines.known hq) hb (Bool.not_eq_false _ ▸ hl) hstate
            ((Λ.hash_eq hq).trans hhash.symm)
      rcases (hcut.rows x hnot).mp (by rw [hrow]; rfl) with hsome | hun
      · rw [hold x hnot] at hsome
        cases hsome
      · obtain ⟨y, ey, q, hy, hygone, hp, hq, hheight⟩ := hun
        subst hp
        exact hno ⟨y, ey, q, hcut.trimmed.gone hy hygone, hy, hq, hnot q hq, hheight⟩

theorem infoExact_genesis (hass : HashAssumptions p U)
    (hinit : genesisInitialize p now .empty = .ok s) : InfoExact p s := by
  obtain ⟨s', hinit', hv⟩ := genesisInitialize_valid hass now
  obtain rfl := Except.ok.inj (hinit'.symm.trans hinit)
  obtain ⟨d, hinit', _⟩ := genesisInitialize_eq p now
  refine hv.refines.infoExact_iff.mpr fun x _ => ?_
  rw [Except.ok.inj (hinit.symm.trans hinit')]
  rfl

end RaiBlocks
