import RaiBlocks.Bootstrap.Frontiers
import RaiBlocks.Bootstrap.Requests
import RaiBlocks.Bootstrap.Segments
import RaiBlocks.Node.Arrivals
import RaiBlocks.Refinement.Agreement

/-!
# A bootstrap brings in the ledger of the peer

If the ledgers of a node and of its peer have no conflict, the frontiers of the peer ask for the
chains that have grown there, the pulls bring the blocks that are missing, and the block processor
takes all of them in, in whatever order they arrive.
-/

namespace RaiBlocks

open Foundation Bootstrap RaiBlocks.Lattice Sample FrontierReqServer

variable {p : NodeEnv} {U : Set Block} {s t : BlockStore} {Λ Λ₁ Λ₂ : Lattice p.toEnv}
  {h e x : BlockHash} {l : List BlockHash} {a : Account} {info : AccountInfo} {eh : Entry}

/-! ## One chain in two lattices -/

/-- The last block of an account, or zero if there is none. -/
def Lattice.Tops (Λ : Lattice p.toEnv) (a : Account) (e : BlockHash) : Prop :=
  (e = 0 ∧ Λ.Unopened a) ∨ ∃ el, Λ.entry e = some el ∧ el.owner = a ∧ Λ.IsHead e

/-- The blocks of `a` that the second lattice has and the first has not. -/
def Missing (Λ₁ Λ₂ : Lattice p.toEnv) (a : Account) (b : Block) : Prop :=
  Λ₁.entry (b.hash p.toEnv) = none ∧
    ∃ e, Λ₂.entry (b.hash p.toEnv) = some e ∧ e.block = b ∧ e.owner = a

/-- What the frontiers of the peer ask for. -/
def pullsFrom (s t : BlockStore) : List PullInfo :=
  ((t.accounts.rowsFrom (· ≤ ·) 0).map fun row => (row.1, row.2.head)).filterMap
    (Frontiers.pullFor s)

/-- One of the pulls brings the block. -/
def Brings (p : NodeEnv) (t : BlockStore) (pulls : List PullInfo) (b : Block) : Prop :=
  ∃ pull ∈ pulls, ∃ k, pullRequest p t pull = .ok k ∧ b ∈ k.added

section Parts

variable (h₁ : Λ₁.Within Λ) (h₂ : Λ₂.Within Λ)

include h₁ h₂

/-- The part that reaches higher in an account has all that the other has below. -/
theorem Lattice.entry_of_height_le {ex ey : Entry} {y : BlockHash} (hx : Λ₂.entry x = some ex)
    (hy : Λ₁.entry y = some ey) (howner : ex.owner = ey.owner) (hle : ex.height ≤ ey.height) :
    Λ₁.entry x = some ex := by
  obtain ⟨z, ez, hz, hzo, hzh, -⟩ :=
    exists_below ex.height (height_pos hx) y ey hy hle
  obtain rfl : z = x := height_inj _ ez (h₁ hz) _ ex (h₂ hx) (hzo.trans howner.symm) hzh
  rw [hz, ← h₁ hz, h₂ hx]

/-- The walk down to the last block of the first lattice meets what it lacks. -/
theorem mem_takeWhile_top (htop : Λ₁.Tops a e) (hc : Λ₂.blocks.Chain h l)
    (he : Λ₂.entry h = some eh) (hown : eh.owner = a) (hend : EndOf Λ₂ e eh) :
    x ∈ l.takeWhile (fun y => decide (y ≠ e)) ↔ x ∈ l ∧ Λ₁.entry x = none := by
  have hlacks : ∀ {h eh}, Λ₂.entry h = some eh → eh.owner = a → EndOf Λ₂ e eh → h ≠ e →
      Λ₁.entry h = none := by
    intro h eh he hown hend hne
    refine Option.eq_none_iff_forall_ne_some.mpr fun q hq => ?_
    obtain rfl := Option.some.inj ((h₁ hq).symm.trans (h₂ he))
    rcases htop with ⟨-, hun⟩ | ⟨el, hel, hown', hhead⟩
    · exact hun _ _ hq hown
    · rcases hend with rfl | ⟨ee, hee, -, hle⟩
      · exact Λ₁.ne_zero hel rfl
      · obtain rfl := Option.some.inj ((h₂ hee).symm.trans (h₁ hel))
        have howner := hown.trans hown'.symm
        exact hne (height_inj _ _ hq _ _ hel howner
          (le_antisymm (hhead.height_le hel hq howner) hle))
  -- one block of the chain, whatever is under it
  have hstep : ∀ {h eh l}, Λ₂.blocks.Chain h (h :: l) → Λ₂.entry h = some eh → eh.owner = a →
      EndOf Λ₂ e eh → (h ≠ e → (x ∈ l.takeWhile (fun y => decide (y ≠ e)) ↔
        x ∈ l ∧ Λ₁.entry x = none)) →
      (x ∈ (h :: l).takeWhile (fun y => decide (y ≠ e)) ↔ x ∈ h :: l ∧ Λ₁.entry x = none) := by
    intro h eh l hc he hown hend ih
    by_cases hne : h = e
    · subst hne
      rw [List.takeWhile_cons_of_neg (by simp)]
      refine iff_of_false List.not_mem_nil fun ⟨hx, hnone⟩ => ?_
      obtain ⟨ex, hex, howner, hle⟩ := (mem_chain hc he).mp hx
      rcases htop with ⟨h0, -⟩ | ⟨el, hel, -⟩
      · exact Λ₂.ne_zero he h0
      · obtain rfl := Option.some.inj ((h₁ hel).symm.trans (h₂ he))
        cases hnone.symm.trans (entry_of_height_le h₁ h₂ hex hel howner hle)
    · rw [List.takeWhile_cons_of_pos (by simpa using hne), List.mem_cons, ih hne, List.mem_cons,
        or_and_right]
      exact or_congr_left ⟨fun hx => ⟨hx, hx ▸ hlacks he hown hend hne⟩, And.left⟩
  refine chain_induction (P := fun _ eh l => eh.owner = a → EndOf Λ₂ e eh →
    (x ∈ l.takeWhile (fun y => decide (y ≠ e)) ↔ x ∈ l ∧ Λ₁.entry x = none)) ?_ ?_ hc he hown hend
  · intro h eh he hf hown hend
    exact hstep (.first (blocks_some he) hf.previous) he hown hend (by simp)
  · intro h eh q l he hq hfol hc ih hown hend
    exact hstep (.next (blocks_some he) (Λ₂.ne_zero hq) hc) he hown hend fun hne =>
      ih (hfol.owner.trans hown) (hend.before he hne hfol)

/-! ## Pulling -/

variable (hass : HashAssumptions p.toEnv U) (hv₁ : Valid U s Λ₁) (hv₂ : Valid U t Λ₂)
  (hwork : ∀ h b, t.blockGet h = some b → b.Worked p)

include hass hv₂ hwork

/-- The pull of an account down to where the node stands brings what is missing of it. -/
theorem pullRequest_missing (hi : t.accountGet a = some info) (hd : Λ₂.Describes a info eh)
    (htop : Λ₁.Tops a e) (hend : EndOf Λ₂ e eh) :
    ∃ c, pullRequest p t ⟨a, info.head, e, 0⟩ = .ok c ∧ c.requeued = none ∧
      ∀ b, b ∈ c.added ↔ Missing Λ₁ Λ₂ a b := by
  have hr := hv₂.refines
  obtain ⟨l, hc⟩ := exists_chain _ eh hd.head
  have hel : e = 0 ∨ e ∈ l := by
    refine hend.imp_right fun ⟨ee, hee, howner, hle⟩ => ?_
    exact (mem_chain hc hd.head).mpr ⟨ee, hee, howner, hle⟩
  have hfuel : l.length < t.fuel := by
    have hlength := chain_length hc hd.head
    have hheight := (hr.blocks.readable hr.blocksInfo).height_lt_fuel hd.head
    omega
  obtain ⟨v, hloop, hwritten⟩ := BulkPullServer.loop_segment (hr.blockGet_eq ▸ hc) hel t.fuel
    { current := info.head, endHash := e } hfuel rfl rfl rfl
  obtain ⟨c, hrun, hpull, hadded, hexpected⟩ :=
    BulkPullClient.run_segment (l := l) (e := e) hwork ⟨a, info.head, e, 0⟩
  have hmem : info.head ∈ l := (mem_chain hc hd.head).mpr ⟨eh, hd.head, rfl, le_rfl⟩
  refine ⟨c, ?_, ?_, fun b => ?_⟩
  · unfold pullRequest BulkPullServer.respond
    rw [BulkPullServer.setCurrentEnd_known hass hr hi hend hd.owner, ok_bind, hloop, ok_bind,
      hwritten]
    exact hrun
  · unfold BulkPullClient.requeued
    rw [hpull, if_neg (not_not.mpr
      (hexpected.trans (follow_segment hr hc hd.head _ eh hd.head hmem hend)))]
  · rw [hadded, segment, List.mem_filterMap, hr.blockGet_eq]
    constructor
    · rintro ⟨y, hy, hb⟩
      obtain ⟨hyl, hnone⟩ := (mem_takeWhile_top h₁ h₂ htop hc hd.head hd.owner hend).mp hy
      obtain ⟨ey, hey, howner, -⟩ := (mem_chain hc hd.head).mp hyl
      obtain rfl := Option.some.inj ((blocks_some hey).symm.trans hb)
      have hhash := Λ₂.hash_eq hey
      subst hhash
      exact ⟨hnone, ey, hey, rfl, howner.trans hd.owner⟩
    · rintro ⟨hnone, ey, hey, rfl, howner⟩
      have howner' := howner.trans hd.owner.symm
      refine ⟨_, (mem_takeWhile_top h₁ h₂ htop hc hd.head hd.owner hend).mpr ⟨?_, hnone⟩,
        blocks_some hey⟩
      exact (mem_chain hc hd.head).mpr
        ⟨ey, hey, howner', hd.isHead.height_le hd.head hey howner'⟩

include hv₁

/-- What a frontier of the peer asks for is what is missing of its account. -/
theorem pull_missing (hi : t.accountGet a = some info) :
    match Frontiers.pullFor s (a, info.head) with
    | none => ∀ b, ¬ Missing Λ₁ Λ₂ a b
    | some pull => ∃ k, pullRequest p t pull = .ok k ∧ k.requeued = none ∧
        ∀ b, b ∈ k.added ↔ Missing Λ₁ Λ₂ a b := by
  have hr := hv₁.refines
  obtain ⟨eh, hd⟩ := hv₂.refines.accounts.sound hi
  have hrequest := fun e => pullRequest_missing h₁ h₂ hass hv₂ hwork (e := e) hi hd
  unfold Frontiers.pullFor
  cases hget : s.accountGet a with
  | none =>
    exact hrequest 0 (.inl ⟨rfl, hr.accounts.lookup_none_iff.mp hget⟩) (.inl rfl)
  | some own =>
    obtain ⟨el, hl⟩ := hr.accounts.sound hget
    have howner := hl.owner.trans hd.owner.symm
    dsimp only
    cases hq : Λ₁.entry info.head with
    | some q =>
      rw [hr.blocks.blockExists_true hq, if_pos rfl, ite_self]
      rintro b ⟨hnone, ex, hex, -, hxo⟩
      obtain rfl := Option.some.inj ((h₁ hq).symm.trans (h₂ hd.head))
      have hxo' := hxo.trans hd.owner.symm
      cases hnone.symm.trans (entry_of_height_le h₁ h₂ hex hq hxo'
        (hd.isHead.height_le hd.head hex hxo'))
    | none =>
      have hne : info.head ≠ own.head := fun heq => by cases hq.symm.trans (heq ▸ hl.head)
      have hlt : el.height < eh.height := by
        by_contra hle
        cases hq.symm.trans (entry_of_height_le h₁ h₂ hd.head hl.head howner.symm
          (not_lt.mp hle))
      -- so the peer has the local head, and sends what is above it
      have hhead := entry_of_height_le h₂ h₁ hl.head hd.head howner hlt.le
      rw [if_neg hne, hr.blocks.blockExists_false hq]
      exact hrequest own.head (.inr ⟨el, hl.head, hl.owner, hl.isHead⟩)
        (.inr ⟨el, hhead, howner, hlt.le⟩)

theorem pulls_missing :
    (∀ pull ∈ pullsFrom s t, ∃ k, pullRequest p t pull = .ok k ∧ k.requeued = none) ∧
    ∀ b, Brings p t (pullsFrom s t) b ↔ t.blockGet (b.hash p.toEnv) = some b ∧
      s.blockExists (b.hash p.toEnv) = false := by
  have hmem : ∀ pull, pull ∈ pullsFrom s t ↔ ∃ a info, t.accountGet a = some info ∧
      Frontiers.pullFor s (a, info.head) = some pull := by
    intro pull
    unfold pullsFrom
    rw [List.filterMap_map, List.mem_filterMap]
    constructor
    · rintro ⟨row, hrow, hfor⟩
      exact ⟨row.1, row.2, (Table.mem_rowsFrom.mp hrow).1, hfor⟩
    · rintro ⟨a, info, hi, hfor⟩
      exact ⟨(a, info), Table.mem_rowsFrom.mpr ⟨hi, Nat.zero_le _⟩, hfor⟩
  -- what is pulled for an account, and that it is missing
  have hpull : ∀ pull ∈ pullsFrom s t, ∃ a k, pullRequest p t pull = .ok k ∧
      k.requeued = none ∧ ∀ b, b ∈ k.added ↔ Missing Λ₁ Λ₂ a b := by
    intro pull hpull
    obtain ⟨a, info, hi, hfor⟩ := (hmem pull).mp hpull
    have hk := pull_missing h₁ h₂ hass hv₁ hv₂ hwork hi
    rw [hfor] at hk
    exact ⟨a, hk⟩
  refine ⟨fun pull hin => ?_, fun b => ?_⟩
  · obtain ⟨-, k, hrun, hk, -⟩ := hpull pull hin
    exact ⟨k, hrun, hk⟩
  · rw [hv₂.refines.stored_iff, hv₁.refines.unstored_iff]
    constructor
    · rintro ⟨pull, hin, k, hrun, hb⟩
      obtain ⟨a, k', hrun', -, hadded⟩ := hpull pull hin
      obtain rfl := Except.ok.inj (hrun.symm.trans hrun')
      obtain ⟨hfresh, e, he, hblock, -⟩ := (hadded b).mp hb
      exact ⟨⟨e, he, hblock⟩, hfresh⟩
    · rintro ⟨⟨e, he, hblock⟩, hfresh⟩
      obtain ⟨info, hi⟩ := hv₂.refines.accounts.complete he
      have hb : Missing Λ₁ Λ₂ e.owner b := ⟨hfresh, e, he, hblock, rfl⟩
      have hmissing := pull_missing h₁ h₂ hass hv₁ hv₂ hwork hi
      cases hfor : Frontiers.pullFor s (e.owner, info.head) with
      | none =>
        rw [hfor] at hmissing
        exact absurd hb (hmissing b)
      | some pull =>
        rw [hfor] at hmissing
        obtain ⟨k, hrun, -, hk⟩ := hmissing
        exact ⟨pull, (hmem pull).mpr ⟨_, info, hi, hfor⟩, k, hrun, (hk b).mpr hb⟩

end Parts

/-- The frontier request leads to the pulls for all accounts of the peer. -/
theorem frontierRequest_pulls (hs : s.accountGet (BitVec.allOnes 256) = none)
    (ht : t.accountGet (BitVec.allOnes 256) = none) (ht0 : t.accountGet 0 = none)
    (now : BitVec 64) :
    ∃ c, frontierRequest s t now = .ok c ∧
      c.pulls = pullsFrom s t := by
  unfold pullsFrom
  generalize hrows : (t.accounts.rowsFrom (· ≤ ·) 0).map (fun row => (row.1, row.2.head)) = rows
  have hserver : run t (BitVec.allOnes 32) now 0 = .ok (rows ++ [(0, 0)]) := by
    -- no account is too old
    have hdrop : ∀ l : List (Account × AccountInfo), l.dropWhile (fun row =>
        !decide (IsYoung (BitVec.allOnes 32) now row.2)) = l := by
      intro l
      cases l with
      | nil => rfl
      | cons row l => exact List.dropWhile_cons_of_neg (by simp [IsYoung])
    rw [run_eq ht (fun h => by rw [ht0] at h; cases h.2), hdrop, ← hrows]
  have hsorted : rows.Pairwise fun x y => x.1 < y.1 := by
    rw [← hrows]
    refine List.pairwise_map.mpr ((Table.pairwise_rowsFrom t.accounts 0).imp ?_)
    exact fun h => BitVec.lt_of_le_ne h.1 h.2
  have hpos : ∀ frontier ∈ rows, 0 < frontier.1 := by
    rw [← hrows]
    intro frontier hmem
    obtain ⟨row, hrow, rfl⟩ := List.mem_map.mp hmem
    refine BitVec.lt_of_le_ne (Nat.zero_le _) fun heq => ?_
    have hget : t.accountGet row.1 = some row.2 := (Table.mem_rowsFrom.mp hrow).1
    rw [← heq, ht0] at hget
    cases hget
  obtain ⟨c, hrun, -, hpulls, -⟩ :=
    FrontierReqClient.receive_spec hs 0 rows (FrontierReqClient.at_start s) hpos hsorted
  refine ⟨c, ?_, ?_⟩
  · unfold frontierRequest
    rw [hserver]
    exact hrun
  · rw [hpulls, FrontierReqClient.start, (FrontierReqClient.next_pushed (s := s) (c := {})).2]
    rfl

/-! ## The ledger after the pulls -/

/-- **A bootstrap brings in the ledger of the peer.** Let the ledgers of a node at rest and of its
peer be reachable and have no conflict, and let the blocks of the peer have work. Then the frontier
request and all pulls that it leads to succeed, no pull is put back in the queue, and the blocks
they bring are those of the peer that the node does not have. Let these blocks be given to the block
processor in any order and any number of times, at any moments of its work. It comes to rest without
a failure, and if each block was given, the ledger then has the blocks of both. -/
theorem bootstrap_synchronizes {n : Node} (hass : HashAssumptions p.toEnv U) (hn : n.Fresh)
    (hs : Ledger.Reachable p.toEnv U n.store) (ht : Ledger.Reachable p.toEnv U t)
    (hcompatible : BlockSet.Compatible p.toEnv n.store.blockGet t.blockGet)
    (hwork : ∀ h b, t.blockGet h = some b → b.Worked p)
    (hmax : n.store.accountGet (BitVec.allOnes 256) = none)
    (hmax' : t.accountGet (BitVec.allOnes 256) = none) (hzero : t.accountGet 0 = none)
    (now : BitVec 64) :
    ∃ c, frontierRequest n.store t now = .ok c ∧
      (∀ pull ∈ c.pulls, ∃ k, pullRequest p t pull = .ok k ∧ k.requeued = none) ∧
      (∀ b, Brings p t c.pulls b ↔ t.blockGet (b.hash p.toEnv) = some b ∧
        n.store.blockExists (b.hash p.toEnv) = false) ∧
      ∀ (inputs : List Block) σ, (∀ b ∈ inputs, Brings p t c.pulls b) →
        NodeRun p ⟨n, .idle⟩ (inputs.map .add) σ →
        Leads p (fun τ => τ.AtRest ∧ ((∀ b, Brings p t c.pulls b → b ∈ inputs) → ∀ h b,
          τ.node.store.blockGet h = some b ↔
            n.store.blockGet h = some b ∨ t.blockGet h = some b)) σ := by
  obtain ⟨Λ₁, hv₁⟩ := Ledger.Reachable.valid hass n.store hs
  obtain ⟨Λ₂, hv₂⟩ := Ledger.Reachable.valid hass t ht
  have ha := (hv₁.agree_iff hass hv₂).mpr hcompatible
  obtain ⟨c, hrequest, hpulls⟩ := frontierRequest_pulls hmax hmax' hzero now
  obtain ⟨hrun, hbrings⟩ := pulls_missing ha.within_left ha.within_right hass hv₁ hv₂ hwork
  rw [← hpulls] at hrun hbrings
  refine ⟨c, hrequest, hrun, hbrings, fun inputs σ hin hrun => ?_⟩
  obtain ⟨l, hbuilds⟩ := ha.within_left.builds
  have hext := hbuilds.extends
  have hl : ∀ b, b ∈ l ↔ Brings p t c.pulls b := fun b =>
    (hv₁.lacks_iff hv₂ ha hext).trans (hbrings b).symm
  simp only [← hl] at hin ⊢
  have hstored : ∀ b ∈ l, t.blockGet (b.hash p.toEnv) = some b := fun b hb =>
    ((hv₁.lacks_iff hv₂ ha hext).mp hb).1
  have hU : ∀ b ∈ l, b ∈ U := by
    intro b hb
    obtain ⟨e, he, rfl⟩ := hv₂.refines.stored_iff.mp (hstored b hb)
    exact hv₂.refines.known he
  have hleads := hn.leads hass hv₁ hext.within hext.finite (fun b hb =>
    hext.offered hU (fun b hb => hwork _ b (hstored b hb)) (hin b hb)) hrun
  refine hleads.mono fun τ ⟨hrest, htame, hlist⟩ => ⟨hrest, fun hall h b => ?_⟩
  have hdone := hlist.complete hrest.worklist (fun a ha x hx hkey =>
    .inl (hext.eq_of_hash (hin x hx) (hext.mem_genuine.mp ha) hkey)) hv₁.closed
    fun a ha => hall a (hext.mem_genuine.mp ha)
  obtain ⟨Λ, hv, hbelow, habove⟩ := htame.between
  have hblocks : Λ.blocks h = some b ↔ ha.union.blocks h = some b := by
    refine ⟨fun hb => ?_, fun hb => ?_⟩ <;> obtain ⟨e, he, rfl⟩ := of_blocks hb
    · exact blocks_some (habove he)
    · rcases hext.only h e he with he | hb
      · exact blocks_some (hbelow he)
      · have hget := htame.blockGet (hext.mem_genuine.mpr hb)
          (hdone e.block (hext.mem_genuine.mpr hb)).1
        rwa [ha.union.hash_eq he, hv.refines.blockGet_eq] at hget
  rw [hv.refines.blockGet_eq, hv₁.refines.blockGet_eq, hv₂.refines.blockGet_eq, hblocks]
  exact ha.union_blocks

/-- A node with the genesis block only pulls the open block of a peer. -/
theorem bootstrap_synchronizes_open :
    ∃ c, frontierRequest first store 0 = .ok c ∧
      Brings nodeEnv store c.pulls opens := by
  obtain ⟨c, hrequest, -, hbrings, -⟩ := bootstrap_synchronizes
    (p := nodeEnv) (n := ⟨first, [], [], [], [], []⟩) assumptions
    ⟨rfl, rfl, rfl, rfl⟩
    first_reachable reachable compatible (fun _ b _ => worked b)
    (by decide +kernel) (by decide +kernel) (by decide +kernel) 0
  exact ⟨c, hrequest, (hbrings _).mpr (by decide +kernel)⟩

end RaiBlocks
