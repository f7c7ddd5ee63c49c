import RaiBlocks.Refinement.Reachable
import RaiBlocks.Spec.Chain
import RaiBlocks.Spec.Validity

/-!
# Chains, pending entries and frontiers

What the tables of a reachable ledger say, against the set of its blocks.
-/

namespace RaiBlocks

open Foundation Sample RaiBlocks.Lattice Ledger BlockSet

variable {p : Env} {U : Set Block} {s : BlockStore} {Λ : Lattice p}

/-! ## Chains -/

/-- The chain `l` of the account `a`, from the head down, is as the row `info`
says. -/
structure ChainOf (p : Env) (s : BlockStore) (a : Account) (info : AccountInfo)
    (l : List BlockHash) : Prop where
  /-- Following `previous` from the head meets the blocks of `l`. -/
  walk : Chain s.blockGet info.head l
  last : l.getLast? = some info.openBlock
  length : l.length = info.blockCount
  headSuccessor : s.blockSuccessor info.head = 0
  successor : l.IsChain fun later earlier => s.blockSuccessor earlier = later
  /-- Everything after a state block is a state block. -/
  state : l.Pairwise fun later earlier => ∀ b c, s.blockGet later = some b →
    s.blockGet earlier = some c → c.isLegacy = false → b.isLegacy = false
  signed : ∀ h ∈ l, h ≠ p.genesisHash → ∃ b, s.blockGet h = some b ∧
    p.validateMessage a h b.blockSignature = false

theorem Refines.chainOf (hr : Refines U s Λ) {a : Account} {info : AccountInfo}
    (hi : s.accountGet a = some info) : ∃ l, ChainOf p s a info l := by
  obtain ⟨e, hd⟩ := hr.accounts.sound hi
  obtain ⟨l, hc⟩ := exists_chain _ e hd.head
  have hget := hr.blockGet_eq
  refine ⟨l, hget ▸ hc, ?_, (chain_length hc hd.head).trans hd.count.symm,
    hr.blocks.successor_of_isHead hd.head hd.isHead, ?_, ?_, ?_⟩
  · obtain ⟨y, o, hy, ho, hown, hp⟩ := chain_getLast? hc hd.head
    obtain ⟨o', ho', hown', hp'⟩ := hd.opened
    have hroot : o.block.root = o'.block.root := by
      rw [(first_of_previous_eq ho hp).root, (first_of_previous_eq ho' hp').root,
        hown, hown', hd.owner]
    rw [hy, Λ.root_inj ho ho' hroot]
  · refine (chain_isChain hc hd.head).imp ?_
    rintro x y ⟨ex, hx, hp, h0⟩
    exact hr.blocks.successor_of_previous hx hp h0
  · refine (chain_pairwise_state hc hd.head).imp ?_
    intro x y hxy b c hb hc hs
    rw [hget] at hb hc
    obtain ⟨ex, hx, rfl⟩ := of_blocks hb
    obtain ⟨ey, hy, rfl⟩ := of_blocks hc
    exact hxy ex ey hx hy hs
  · intro h hh hg
    obtain ⟨eh, heh, hown, _⟩ := (mem_chain hc hd.head).mp hh
    refine ⟨eh.block, hr.blocks.blockGet_some heh, ?_⟩
    rw [← hd.owner, ← hown]
    exact Λ.signed heh hg

theorem Refines.mem_chainOf (hr : Refines U s Λ) {h : BlockHash} {e : Entry}
    (he : Λ.entry h = some e) :
    ∃ info l, s.accountGet e.owner = some info ∧ ChainOf p s e.owner info l ∧ h ∈ l := by
  obtain ⟨info, hi⟩ := hr.accounts.complete he
  obtain ⟨ex, hd⟩ := hr.accounts.sound hi
  obtain ⟨l, hl⟩ := hr.chainOf hi
  refine ⟨info, l, hi, hl, (mem_chain (hr.blockGet_eq ▸ hl.walk) hd.head).mpr ?_⟩
  exact ⟨e, he, hd.owner.symm, hd.isHead.height_le hd.head he hd.owner.symm⟩

/-- **Account chains are well formed and authorised.** In every reachable
ledger each account has a chain as in `ChainOf`; every stored block lies on the
chain of exactly one account; and no two stored blocks have the same root. -/
theorem chains_wellFormed (hass : HashAssumptions p U) (hs : Reachable p U s) :
    (∀ a info, s.accountGet a = some info → ∃ l, ChainOf p s a info l) ∧
    (∀ h, s.blockExists h = true → ∃! a, ∃ info l, s.accountGet a = some info ∧
      ChainOf p s a info l ∧ h ∈ l) ∧
    ∀ h h' b b', s.blockGet h = some b → s.blockGet h' = some b' → b.root = b'.root → h = h' := by
  obtain ⟨Λ, hv⟩ := Reachable.valid hass s hs
  have hr := hv.refines
  have hget := hr.blockGet_eq
  refine ⟨fun a info hi => hr.chainOf hi, fun h hh => ?_, fun h h' b b' hb hb' hroot => ?_⟩
  · rw [hr.blocks.blockExists] at hh
    obtain ⟨e, he⟩ := Option.isSome_iff_exists.mp hh
    refine ⟨e.owner, hr.mem_chainOf he, ?_⟩
    rintro a ⟨info', l', hi', hl', hmem'⟩
    obtain ⟨ex', hd'⟩ := hr.accounts.sound hi'
    obtain ⟨eh, heh, hown, _⟩ := (mem_chain (hget ▸ hl'.walk) hd'.head).mp hmem'
    rw [← hd'.owner, ← hown, Option.some.inj (he.symm.trans heh)]
  · rw [hget] at hb hb'
    obtain ⟨e, he, rfl⟩ := of_blocks hb
    obtain ⟨e', he', rfl⟩ := of_blocks hb'
    exact Λ.root_inj he he' hroot

theorem chains_wellFormed_sample :
    ∃! a, ∃ info l, store.accountGet a = some info ∧ ChainOf env store a info l ∧ openHash ∈ l :=
  (chains_wellFormed assumptions reachable).2.1 openHash
    open_stored.1

/-! ## Owners -/

/-- **The owner of every block is found.** In every reachable ledger and for every stored
block, `ledger::account` ends without a failed assertion and returns the account on whose
chain the block lies. -/
theorem account_of_every_block (hass : HashAssumptions p U) (hs : Reachable p U s) :
    ∀ h, s.blockExists h = true → ∃ a info l, account s h = .ok a ∧
      s.accountGet a = some info ∧ Chain s.blockGet info.head l ∧ h ∈ l := by
  intro h hh
  obtain ⟨Λ, hv⟩ := Reachable.valid hass s hs
  have hr := hv.refines
  rw [hr.blocks.blockExists] at hh
  obtain ⟨e, he⟩ := Option.isSome_iff_exists.mp hh
  obtain ⟨info, l, hi, hl, hmem⟩ := hr.mem_chainOf he
  exact ⟨e.owner, info, l, hr.blocks.account hass hr.frontiers hr.blocksInfo he, hi, hl.walk, hmem⟩

theorem account_of_every_block_sample : ∃ a info l,
    account store openHash = .ok a ∧ store.accountGet a = some info ∧
      Chain store.blockGet info.head l ∧ openHash ∈ l :=
  account_of_every_block assumptions reachable _ open_stored.1

/-! ## Pending entries -/

/-- **The pending table is exact.** In every reachable ledger there is an entry
for `(d, h)` exactly when `h` is a stored send to `d` that no stored block
receives. The entry names the owner of `h` and what `h` takes off the balance
of its predecessor. Each send is received by at most one stored block. -/
theorem pending_exact (hass : HashAssumptions p U) (hs : Reachable p U s) :
    (∀ d h, s.pendingExists ⟨d, h⟩ = true ↔ Unreceived p s.blockGet h d) ∧
    (∀ d h info, s.pendingGet ⟨d, h⟩ = some info → Owner s.blockGet h info.source ∧
      Takes p s.blockGet h info.amount.toNat) ∧
    ∀ x y y', Receives p s.blockGet y x → Receives p s.blockGet y' x →
      y = y' := by
  obtain ⟨Λ, hv⟩ := Reachable.valid hass s hs
  have hr := hv.refines
  rw [hr.blockGet_eq]
  refine ⟨fun d h => ?_, fun d h info hi => ?_, fun x y y' hy hy' => ?_⟩
  · unfold BlockStore.pendingExists
    rw [Option.isSome_iff_exists, unreceived_iff]
    constructor
    · rintro ⟨i, hi⟩
      obtain ⟨e, he, hd, hnr, _⟩ := (hr.pending d h i).mp hi
      exact ⟨e, he, hd, hnr⟩
    · rintro ⟨e, he, hd, hnr⟩
      exact ⟨_, (hr.pending d h _).mpr ⟨e, he, hd, hnr, rfl⟩⟩
  · obtain ⟨e, he, hd, _, rfl⟩ := (hr.pending d h info).mp hi
    refine ⟨owner_iff.mpr ⟨e, he, rfl⟩, (takes_iff he hd).mpr ?_⟩
    exact (toNat_pendingInfo he).symm
  · obtain ⟨e, he, hrec⟩ := receives_iff.mp hy
    obtain ⟨e', he', hrec'⟩ := receives_iff.mp hy'
    exact Λ.receives_inj he he' hrec hrec'

theorem pending_exact_sample :
    ¬ Unreceived env store.blockGet sendHash account := by
  rw [← (pending_exact assumptions reachable).1]
  decide +kernel

/-! ## Frontiers -/

/-- **The frontier table is exact and `process` is assertion-free.** In every
reachable ledger the frontier of `h` is the non-zero account `a` exactly when
`h` is the head of `a` and a block of one of the older kinds. Processing any
block ends without a failed assertion. -/
theorem frontiers_exact (hass : HashAssumptions p U) (hs : Reachable p U s) :
    (∀ h a, s.frontierGet h = a ∧ a ≠ 0 ↔ ∃ info b, s.accountGet a = some info ∧
      info.head = h ∧ s.blockGet h = some b ∧ b.isLegacy = true) ∧
    ∀ now, ∀ b ∈ U, ∃ r, process p now s b = .ok r := by
  obtain ⟨Λ, hv⟩ := Reachable.valid hass s hs
  have hr := hv.refines
  refine ⟨fun h a => ⟨?_, ?_⟩, fun now b hU => ?_⟩
  · rintro ⟨rfl, hne⟩
    obtain ⟨e, he, hown, hhead, hl⟩ := hr.frontiers.of_frontierGet_ne hne
    obtain ⟨info, hi, hinfo, _⟩ := hr.accounts.of_head he hhead
    exact ⟨info, e.block, hown ▸ hi, hinfo, hr.blocks.blockGet_some he, hl⟩
  · rintro ⟨info, b, hi, rfl, hb, hl⟩
    obtain ⟨e, hd⟩ := hr.accounts.sound hi
    rw [hr.blocks.blockGet_some hd.head] at hb
    obtain rfl := Option.some.inj hb
    rw [hr.frontiers.frontierGet hd.head hd.isHead hl, hd.owner]
    exact ⟨rfl, hd.owner ▸ (sound hd.head).1⟩
  · obtain ⟨r, hrun, _⟩ := hv.process hass hU now
    exact ⟨r, hrun⟩

theorem frontiers_exact_sample :
    (∃ info b, store.accountGet env.genesisAccount = some info ∧
      info.head = sendHash ∧ store.blockGet sendHash = some b ∧ b.isLegacy = true) ∧
    ∃ r, process env 3 store rival = .ok r := by
  obtain ⟨hfrontier, hprocess⟩ := frontiers_exact assumptions reachable
  exact ⟨(hfrontier _ _).mp send_stored.2.2, hprocess 3 _ rival_mem⟩

end RaiBlocks
