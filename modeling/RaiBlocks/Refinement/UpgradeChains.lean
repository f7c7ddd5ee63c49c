import RaiBlocks.Refinement.UpgradeRows

/-!
# The upgrades that write along the chains

Version 5 writes the successor of every block, from the head of each chain down, and
version 10 the rows of block info, from the first block up. Both loops keep what is
right already: a block whose successor is known is left as it is, and a row of block
info that has been written shortens the walks that compute the next ones.
-/

namespace RaiBlocks

open Foundation BlockStore RaiBlocks.Lattice

variable {p : Env} {U : Set Block} {s t : BlockStore} {Λ : Lattice p} {h : BlockHash} {e : Entry}

/-! ## Version 5 -/

/-- `t` has the blocks of `s`, some of them without their successor. -/
structure Linking (s t : BlockStore) : Prop where
  coherent : Database.Coherent t.blockDatabase
  stored : ∀ h, Database.stored t.blockDatabase h = Database.stored s.blockDatabase h ∨
    Database.stored t.blockDatabase h =
      (Database.stored s.blockDatabase h).map fun v => { v with successor := 0 }

namespace Linking

/-- The blocks are those of `s`, and successors are missing at most. -/
theorem of_blocks (hc : Database.Coherent t.blockDatabase)
    (hblocks : ∀ h, t.blockGet h = s.blockGet h)
    (hsucc : ∀ h, t.blockSuccessor h = 0 ∨ t.blockSuccessor h = s.blockSuccessor h) :
    Linking s t := by
  refine ⟨hc, fun h => ?_⟩
  have hblock := hblocks h
  have hnext := hsucc h
  rw [blockGet_eq, blockGet_eq] at hblock
  rw [blockSuccessor_eq, blockSuccessor_eq] at hnext
  cases ht : Database.stored t.blockDatabase h with
  | none =>
    rw [ht] at hblock
    rw [Option.map_eq_none_iff.mp hblock.symm]
    exact Or.inl rfl
  | some v =>
    rw [ht] at hblock
    obtain ⟨v', hv', hb⟩ := Option.map_eq_some_iff.mp hblock.symm
    rw [ht, hv'] at hnext
    rw [hv']
    obtain ⟨b, y⟩ := v
    obtain ⟨b', y'⟩ := v'
    obtain rfl : b' = b := hb
    rcases hnext with hy | hy
    · exact Or.inr (by rw [show y = 0 from hy]; rfl)
    · exact Or.inl (by rw [show y = y' from hy])

variable (hl : Linking s t)

include hl

theorem blockGet (h : BlockHash) : t.blockGet h = s.blockGet h := by
  rw [blockGet_eq, blockGet_eq]
  rcases hl.stored h with hs | hs
  · rw [hs]
  · rw [hs, Option.map_map]
    rfl

theorem blockExists (h : BlockHash) : t.blockExists h = s.blockExists h := by
  rw [Bool.eq_iff_iff, blockExists_iff, blockExists_iff, hl.blockGet]

/-- A block whose successor is known is stored as it should be. -/
theorem stored_of_successor (hs : t.blockSuccessor h ≠ 0 ∨ s.blockSuccessor h = 0) :
    Database.stored t.blockDatabase h = Database.stored s.blockDatabase h := by
  rcases hl.stored h with hst | hst
  · exact hst
  · rw [blockSuccessor_eq, blockSuccessor_eq, hst] at hs
    rw [hst]
    cases hv : Database.stored s.blockDatabase h with
    | none => rfl
    | some v =>
      rw [hv] at hs
      obtain ⟨b, y⟩ := v
      rcases hs with hs | hs
      · exact absurd rfl hs
      · rw [show y = 0 from hs]
        rfl

end Linking

theorem BlocksOk.blockSuccessor_previous (hb : BlocksOk s.blockDatabase Λ)
    (he : Λ.entry h = some e) {q : Entry} (hq : Λ.entry e.block.previous = some q) :
    s.blockSuccessor e.block.previous = h :=
  (hb.blockSuccessor hq).unique hq (Or.inr ⟨e, he, rfl⟩)

theorem BlocksOk.blockSuccessor_head (hb : BlocksOk s.blockDatabase Λ)
    (he : Λ.entry h = some e) (hh : Λ.IsHead h) : s.blockSuccessor h = 0 :=
  (hb.blockSuccessor he).unique he (Or.inl ⟨hh, rfl⟩)

/-- The block `h` of `s` is in `t` with its successor. -/
def Linked (s t : BlockStore) (h : BlockHash) : Prop :=
  Database.stored t.blockDatabase h = Database.stored s.blockDatabase h

namespace Linking

variable (hl : Linking s t)

include hl

/-- Writing a block with its successor links it, and its predecessor too. -/
theorem put (hb : BlocksOk s.blockDatabase Λ) (he : Λ.entry h = some e)
    (hy : s.blockSuccessor h ≠ 0) :
    ∃ d, t.blockPut p h e.block (s.blockSuccessor h) = .ok { t with blockDatabase := d } ∧
      Linking s { t with blockDatabase := d } ∧ Linked s { t with blockDatabase := d } h ∧
      ∀ x, Linked s t x → Linked s { t with blockDatabase := d } x := by
  have hget : ∀ {x q}, Λ.entry x = some q →
      ∃ y, Database.stored t.blockDatabase x = some ⟨q.block, y⟩ := by
    intro x q hq
    have hblock := hl.blockGet x
    rw [hb.blockGet_some hq, blockGet_eq] at hblock
    obtain ⟨v, hv, hvb⟩ := Option.map_eq_some_iff.mp hblock
    exact ⟨v.successor, by rw [hv, ← hvb]⟩
  have hold : ∀ v, Database.stored t.blockDatabase h = some v → v.block.type = e.block.type := by
    intro v hv
    obtain ⟨y, hy⟩ := hget he
    rw [← Option.some.inj (hy.symm.trans hv)]
  have hprev : (e.block.previous = 0 ∧ e.block.account? ≠ none) ∨ (e.block.previous ≠ h ∧
      e.block.previous ≠ 0 ∧ ∃ v, Database.stored t.blockDatabase e.block.previous = some v) := by
    rcases first_or_follows he with hf | ⟨q, hq, hfol⟩
    · exact Or.inl ⟨hf.previous, by rw [hf.account]; exact Option.some_ne_none _⟩
    · refine Or.inr ⟨fun heq => ?_, Λ.ne_zero hq, _, (hget hq).choose_spec⟩
      rw [heq, he] at hq
      exact lt_irrefl _ (Option.some.inj hq ▸ hfol.rank)
  have hnext : t.blockExists (s.blockSuccessor h) = true := by
    rw [hl.blockExists]
    rcases hb.blockSuccessor he with ⟨_, h0⟩ | ⟨e', he', _⟩
    · exact absurd h0 hy
    · exact hb.blockExists_true he'
  obtain ⟨d, hput, hcoh, hstored⟩ := blockPut_successor_eq hl.coherent (Λ.hash_eq he)
    hold hprev (Or.inr hnext)
  -- what is written is what `s` has there
  have hcases : ∀ x, Linked s { t with blockDatabase := d } x ∨
      x ≠ h ∧ Database.stored d x = Database.stored t.blockDatabase x := by
    intro x
    have hx := hstored x
    by_cases hpx : e.block.previous ≠ 0 ∧ x = e.block.previous
    · obtain ⟨q, hq, _⟩ := follows_of_previous_ne he hpx.1
      obtain ⟨y, hy'⟩ := hget hq
      obtain ⟨hp, rfl⟩ := hpx
      rw [if_pos ⟨hp, rfl⟩, hy'] at hx
      refine Or.inl (hx.trans ?_)
      rw [hb.stored_eq hq, hb.blockSuccessor_previous he hq]
      rfl
    · rw [if_neg hpx] at hx
      by_cases hxh : x = h
      · rw [if_pos hxh] at hx
        exact Or.inl (hx.trans (by rw [hxh, hb.stored_eq he]))
      · rw [if_neg hxh] at hx
        exact Or.inr ⟨hxh, hx⟩
  refine ⟨d, hput, ⟨hcoh, fun x => ?_⟩, ?_, fun x hx => ?_⟩
  · rcases hcases x with hx | ⟨_, hx⟩
    · exact Or.inl hx
    · rw [show Database.stored _ x = _ from hx]
      exact hl.stored x
  · rcases hcases h with hx | ⟨hne, _⟩
    · exact hx
    · exact absurd rfl hne
  · rcases hcases x with hx' | ⟨_, hx'⟩
    · exact hx'
    · exact hx'.trans hx

/-- One iteration: the block is linked, whether it was before or not. -/
theorem link (hb : BlocksOk s.blockDatabase Λ) (he : Λ.entry h = some e) :
    ∃ d, (if t.blockSuccessor h = 0 ∧ s.blockSuccessor h ≠ 0 then
        t.blockPut p h e.block (s.blockSuccessor h) else .ok t) =
          .ok { t with blockDatabase := d } ∧
      Linking s { t with blockDatabase := d } ∧ Linked s { t with blockDatabase := d } h ∧
      ∀ x, Linked s t x → Linked s { t with blockDatabase := d } x := by
  by_cases hc : t.blockSuccessor h = 0 ∧ s.blockSuccessor h ≠ 0
  · rw [if_pos hc]
    exact hl.put hb he hc.2
  · rw [if_neg hc]
    refine ⟨t.blockDatabase, rfl, hl, hl.stored_of_successor ?_, fun _ hx => hx⟩
    by_cases h0 : t.blockSuccessor h = 0
    · exact Or.inr (not_not.mp fun hne => hc ⟨h0, hne⟩)
    · exact Or.inl h0

end Linking

namespace StoreFile

/-- A state of the walk of `upgrade_v4_to_v5` down the chain of `a`: the blocks above the
current one are linked. `k` bounds the iterations that are left. -/
structure SuccessorWalk.On (s t : BlockStore) (Λ : Lattice p) (a : Account) (k : ℕ)
    (w : SuccessorWalk) : Prop where
  store : ∃ d, w.store = { t with blockDatabase := d }
  linking : Linking s w.store
  kept : ∀ {x}, Linked s t x → Linked s w.store x
  current : (w.block = none ∧ ∀ {x ex}, Λ.entry x = some ex → ex.owner = a → Linked s w.store x) ∨
    ∃ h e, Λ.entry h = some e ∧ e.owner = a ∧ w.block = some e.block ∧
      w.successor = s.blockSuccessor h ∧ e.height ≤ k ∧
      ∀ {x ex}, Λ.entry x = some ex → ex.owner = a → e.height < ex.height → Linked s w.store x

theorem SuccessorWalk.On.step (hb : BlocksOk s.blockDatabase Λ) {a : Account} {k : ℕ}
    {w : SuccessorWalk} (hw : w.On s t Λ a k) (hc : w.block.isSome = true) :
    ∃ k' w', w.step p = .ok w' ∧ k' < k ∧ SuccessorWalk.On s t Λ a k' w' := by
  rcases hw.current with ⟨hnone, _⟩ | ⟨h, e, he, ho, hblock, hsucc, hk, habove⟩
  · rw [hnone] at hc
    cases hc
  have hpos := height_pos he
  obtain ⟨d₀, hstore⟩ := hw.store
  obtain ⟨d, hlink, hl, hh, hkeep⟩ := hw.linking.link hb he
  refine ⟨k - 1, ⟨{ w.store with blockDatabase := d }, h,
    blockGet { w.store with blockDatabase := d } e.block.previous⟩, ?_, by omega,
    ⟨d, by rw [hstore]⟩, hl, fun hx => hkeep _ (hw.kept hx), ?_⟩
  · simp only [SuccessorWalk.step, hblock, Λ.hash_eq he, hsucc, hlink, ok_bind]
    rfl
  · -- the blocks from the current one up are linked now
    have hfrom : ∀ {x ex}, Λ.entry x = some ex → ex.owner = a → e.height ≤ ex.height →
        Linked s { w.store with blockDatabase := d } x := by
      intro x ex hx hxo hle
      rcases Nat.eq_or_lt_of_le hle with heq | hlt
      · rwa [← height_inj h e he x ex hx (ho.trans hxo.symm) heq]
      · exact hkeep x (habove hx hxo hlt)
    simp only
    rw [hl.blockGet, hb.blockGet]
    rcases first_or_follows he with hf | ⟨q, hq, hfol⟩
    · refine Or.inl ⟨by rw [hf.previous, Λ.entry_zero]; rfl, fun hx hxo => hfrom hx hxo ?_⟩
      rw [hf.height]
      exact height_pos hx
    · have hheight := hfol.height
      refine Or.inr ⟨_, q, hq, hfol.owner.trans ho, by rw [hq]; rfl,
        (hb.blockSuccessor_previous he hq).symm, by omega, fun hx hxo hlt => hfrom hx hxo ?_⟩
      omega

/-- A state of the loop of `upgrade_v4_to_v5` that has met the accounts `D`. -/
structure LinkingAccounts (f : StoreFile) (s : BlockStore) (Λ : Lattice p) (D : Finset Account)
    (g : StoreFile) : Prop where
  file : ∃ d, g = { f with version := 5, store := { f.store with blockDatabase := d } }
  linking : Linking s g.store
  done : ∀ {x e}, Λ.entry x = some e → e.owner ∈ D → Linked s g.store x

section

/-- If the rows are made of those of the ledger, every owner of a block has one. -/
theorem owner_mem_keys {β : Type} {rows : Table Account β} {row : ℕ → AccountInfo → β}
    (hv : Valid U s Λ) {h : BlockHash} {e : Entry} (he : Λ.entry h = some e)
    (hrows : ∀ a, ∃ modified, rows.lookup a = (s.accountGet a).map (row modified)) :
    e.owner ∈ rows.keys := by
  obtain ⟨info, hi⟩ := hv.refines.accounts.complete he
  obtain ⟨modified, hrow⟩ := hrows e.owner
  rw [show s.accountGet e.owner = some info from hi] at hrow
  rw [Finmap.mem_keys, ← Finmap.lookup_isSome, hrow]
  rfl

variable {f : StoreFile}

variable (hrows : ∀ a, ∃ modified, f.oldAccounts.lookup a =
  (s.accountGet a).map fun info => info.toV5 info.repBlock modified)

include hrows

theorem LinkingAccounts.next (hv : Valid U s Λ) {D : Finset Account} {g : StoreFile}
    (hg : f.LinkingAccounts s Λ D g) (hr : Readable g.store Λ) {a : Account}
    {row : OldAccountInfo} (hrow : f.oldAccounts.lookup a = some row) :
    ∃ g', upgradeV4ToV5Step p g (a, row) = .ok g' ∧ f.LinkingAccounts s Λ (insert a D) g' := by
  have hb := hv.refines.blocks
  obtain ⟨modified, hrow'⟩ := hrows a
  rw [hrow] at hrow'
  obtain ⟨info, hi, rfl⟩ := Option.map_eq_some_iff.mp hrow'.symm
  obtain ⟨e, hd⟩ := hv.refines.accounts.sound hi
  have hstart : SuccessorWalk.On s g.store Λ a e.height ⟨g.store, 0, g.store.blockGet info.head⟩ :=
    ⟨⟨g.store.blockDatabase, rfl⟩, hg.linking, id,
      Or.inr ⟨info.head, e, hd.head, hd.owner, hr.blockGet hd.head,
        (hb.blockSuccessor_head hd.head hd.isHead).symm, le_rfl, fun hx hxo hlt =>
          absurd (hd.isHead.height_le hd.head hx (hxo.trans hd.owner.symm)) (by omega)⟩⟩
  have hfuel := hr.height_lt_fuel hd.head
  obtain ⟨k, w, hloop, hw, hexit⟩ := @whileLoop_total _ _ Fault.outOfFuel
    (fun w : SuccessorWalk => w.block.isSome) (SuccessorWalk.step p)
      (SuccessorWalk.On s g.store Λ a)
    (fun k w hw hc => hw.step hb hc) g.store.fuel _ _ (by omega) hstart
  obtain ⟨d₀, rfl⟩ := hg.file
  obtain ⟨d, hd'⟩ := hw.store
  refine ⟨_, ?_, ⟨d, rfl⟩, ?_, fun {x ex} hx hxo => ?_⟩
  · simp only [upgradeV4ToV5Step, AccountInfo.toV5, OldAccountInfo.asV5, ok_bind]
    rw [hloop, ok_bind, hd']
    rfl
  · have := hw.linking
    rw [hd'] at this
    exact this
  · have hlinked : Linked s w.store x := by
      rcases Finset.mem_insert.mp hxo with hxa | hxD
      · rcases hw.current with ⟨_, hall⟩ | ⟨_, _, _, _, hblock, _⟩
        · exact hall hx hxa
        · rw [hblock] at hexit
          cases hexit
      · exact hw.kept (hg.done hx hxD)
    rw [hd'] at hlinked
    exact hlinked

/-- **Version 5.** The blocks get their successors. -/
theorem upgradeV4ToV5_ok (hv : Valid U s Λ) (hr : Readable f.store Λ)
    (hcurrent : f.store.accounts = ∅) (hl : Linking s f.store) :
    ∃ d, f.upgradeV4ToV5 p = .ok
        { f with version := 5, store := { f.store with blockDatabase := d } } ∧
      Database.Coherent d ∧ ∀ h, Database.stored d h = Database.stored s.blockDatabase h := by
  have hstart : f.LinkingAccounts s Λ ∅ { f with version := 5 } :=
    ⟨⟨f.store.blockDatabase, rfl⟩, hl, fun _ h => absurd h (Finset.notMem_empty _)⟩
  have hread : ∀ {D g}, f.LinkingAccounts s Λ D g → Readable g.store Λ := by
    intro D g hg
    obtain ⟨d, rfl⟩ := hg.file
    refine ⟨fun {h e} he => ?_, ?_, hr.blockInfo⟩
    · rw [hg.linking.blockGet, hv.refines.blocks.blockGet_some he]
    · rw [hg.linking.blockGet, ← hl.blockGet]
      exact hr.genesisAccount
  obtain ⟨g, hrun, hg⟩ := Table.foldlM_rows (r := (· ≤ ·)) (I := f.LinkingAccounts s Λ)
    (fun D g a row hrow _ hg => LinkingAccounts.next hrows hv hg (hread hg) hrow) hstart
  obtain ⟨d, rfl⟩ := hg.file
  refine ⟨d, ?_, hg.linking.coherent, fun h => ?_⟩
  · unfold upgradeV4ToV5 latestRows
    rw [hcurrent]
    exact hrun
  · cases he : Λ.entry h with
    | none =>
      have hnone := hv.refines.blocks.stored_none he
      rcases hg.linking.stored h with hh | hh
      · exact hh
      · rw [hnone] at hh ⊢
        exact hh
    | some e => exact hg.done he (owner_mem_keys hv he hrows)

end

end StoreFile

/-! ## Version 10 -/

/-- The row of block info of `h` is the one of `s`. -/
def Noted (s t : BlockStore) (h : BlockHash) : Prop := t.blocksInfo.lookup h = s.blocksInfo.lookup h

/-- `t` has rows of block info of `s` only. -/
def Noting (s t : BlockStore) : Prop :=
  ∀ h i, t.blocksInfo.lookup h = some i → s.blocksInfo.lookup h = some i

theorem Noting.noted_of_none (hn : Noting s t) (h0 : s.blocksInfo.lookup h = none) :
    Noted s t h := by
  unfold Noted
  rw [h0]
  by_contra hsome
  obtain ⟨i, hi⟩ := Option.ne_none_iff_exists'.mp hsome
  cases h0.symm.trans (hn h i hi)

namespace StoreFile

/-- The walks can be done with the rows that are there already. -/
theorem readable_of_noting (hv : Valid U s Λ) (hstored : ∀ h, Database.stored t.blockDatabase h =
    Database.stored s.blockDatabase h) (hn : Noting s t) : Readable t Λ := by
  have hget : ∀ h, t.blockGet h = s.blockGet h := by
    intro h
    rw [blockGet_eq, blockGet_eq, hstored]
  have hs := hv.refines.blocks.readable hv.refines.blocksInfo
  refine ⟨fun he => (hget _).trans (hs.blockGet he), (hget _).trans hs.genesisAccount,
    fun he hl hrow => hs.blockInfo he hl (hn _ _ hrow)⟩

section

variable (hv : Valid U s Λ) (hlegacy : ∀ b ∈ U, b.isLegacy = true)

include hv hlegacy

theorem blocksInfo_eq (he : Λ.entry h = some e) : s.blocksInfo.lookup h =
    if e.height % blockInfoMax = 0 then some e.blockInfo else none :=
  hv.refines.blocksInfo.legacy he (hlegacy _ (hv.refines.known he))

/-- The row that one iteration writes, or does not write. -/
theorem note (hstored : ∀ h, Database.stored t.blockDatabase h =
      Database.stored s.blockDatabase h) (hn : Noting s t) (he : Λ.entry h = some e) :
    ∃ rows, (if e.height % blockInfoMax = 0 then do
          let balance ← t.blockBalance p h
          return t.blockInfoPut h ⟨e.owner, balance⟩
        else .ok t) = .ok { t with blocksInfo := rows } ∧
      Noting s { t with blocksInfo := rows } ∧ Noted s { t with blocksInfo := rows } h ∧
      ∀ x, Noted s t x → Noted s { t with blocksInfo := rows } x := by
  have hinfo := blocksInfo_eq hv hlegacy he
  by_cases hc : e.height % blockInfoMax = 0
  · rw [if_pos hc] at hinfo
    have hbalance : t.blockBalance p h = .ok (BitVec.ofNat 128 e.balance) :=
      (readable_of_noting hv hstored hn).balance he
    have hlookup : ∀ x, (t.blocksInfo.insert h e.blockInfo).lookup x =
        if x = h then s.blocksInfo.lookup x else t.blocksInfo.lookup x := by
      intro x
      rw [Table.lookup_insert_ite]
      refine ite_congr rfl (fun hx => ?_) fun _ => rfl
      rw [hx, hinfo]
    refine ⟨t.blocksInfo.insert h e.blockInfo, ?_, fun x i hx => ?_, ?_, fun x hx => ?_⟩
    · rw [if_pos hc, hbalance]
      rfl
    · rw [hlookup] at hx
      split at hx
      · exact hx
      · exact hn x i hx
    · exact (hlookup h).trans (if_pos rfl)
    · refine (hlookup x).trans ?_
      split
      · rfl
      · exact hx
  · rw [if_neg hc] at hinfo ⊢
    exact ⟨t.blocksInfo, rfl, hn, hn.noted_of_none hinfo, fun _ hx => hx⟩

end

/-- A state of the walk of `upgrade_v9_to_v10` up the chain of `a`, whose head has the
height `n`: the blocks below the current one have their rows. `k` bounds the
iterations that are left. -/
structure InfoWalk.On (s t : BlockStore) (Λ : Lattice p) (a : Account) (n k : ℕ)
    (w : InfoWalk) : Prop where
  store : ∃ rows, w.store = { t with blocksInfo := rows }
  noting : Noting s w.store
  kept : ∀ {x}, Noted s t x → Noted s w.store x
  current : (w.hash = 0 ∧ ∀ {x ex}, Λ.entry x = some ex → ex.owner = a → Noted s w.store x) ∨
    ∃ e, Λ.entry w.hash = some e ∧ e.owner = a ∧ e.height = w.blockCount ∧ e.height ≤ n ∧
      n < e.height + k ∧
      ∀ {x ex}, Λ.entry x = some ex → ex.owner = a → ex.height < e.height → Noted s w.store x

section

variable (hv : Valid U s Λ) (hlegacy : ∀ b ∈ U, b.isLegacy = true)
  (hstored : ∀ h, Database.stored t.blockDatabase h = Database.stored s.blockDatabase h)

include hv hlegacy hstored

theorem InfoWalk.On.step {a : Account} {n k : ℕ} {w : InfoWalk}
    (hle : ∀ {x ex}, Λ.entry x = some ex → ex.owner = a → ex.height ≤ n)
    (hw : w.On s t Λ a n k) (hc : w.hash ≠ 0) :
    ∃ k' w', InfoWalk.step p a w = .ok w' ∧ k' < k ∧ InfoWalk.On s t Λ a n k' w' := by
  rcases hw.current with ⟨h0, _⟩ | ⟨e, he, ho, hcount, hn, hk, hbelow⟩
  · exact absurd h0 hc
  obtain ⟨rows₀, hstore⟩ := hw.store
  have hstored' : ∀ h, Database.stored w.store.blockDatabase h =
      Database.stored s.blockDatabase h := by
    rw [hstore]
    exact hstored
  obtain ⟨rows, hnote, hnoting, hh, hkeep⟩ := note hv hlegacy hstored' hw.noting he
  rw [ho, hcount] at hnote
  refine ⟨k - 1, ⟨{ w.store with blocksInfo := rows }, s.blockSuccessor w.hash,
    w.blockCount + 1⟩, ?_, by omega, ⟨rows, by rw [hstore]⟩, hnoting,
    fun hx => hkeep _ (hw.kept hx), ?_⟩
  · have hsucc : blockSuccessor { w.store with blocksInfo := rows } w.hash =
        s.blockSuccessor w.hash := by
      rw [blockSuccessor_eq, blockSuccessor_eq]
      exact congrArg (fun v => (v.map BlockEntry.successor).getD 0) (hstored' w.hash)
    unfold InfoWalk.step
    rw [hnote, ok_bind, hsucc]
    rfl
  · -- the blocks up to the current one have their rows now
    have hupto : ∀ {x ex}, Λ.entry x = some ex → ex.owner = a → ex.height ≤ e.height →
        Noted s { w.store with blocksInfo := rows } x := by
      intro x ex hx hxo hxle
      rcases Nat.eq_or_lt_of_le hxle with heq | hlt
      · rwa [height_inj x ex hx _ e he (hxo.trans ho.symm) heq]
      · exact hkeep x (hbelow hx hxo hlt)
    simp only
    have hnext := hv.refines.blocks.blockSuccessor he
    generalize s.blockSuccessor w.hash = y at hnext ⊢
    rcases hnext with ⟨hhead, rfl⟩ | ⟨e', he', hprev⟩
    · exact Or.inl ⟨rfl, fun hx hxo =>
        hupto hx hxo (hhead.height_le he hx (hxo.trans ho.symm))⟩
    · obtain ⟨q, hq, hfol⟩ := follows_of_previous_ne he' (hprev ▸ hc)
      rw [hprev, he] at hq
      obtain rfl := Option.some.inj hq
      have hheight := hfol.height
      have howner := hfol.owner.symm.trans ho
      refine Or.inr ⟨e', he', howner, by omega, hle he' howner, by omega, fun hx hxo hlt =>
        hupto hx hxo (by omega)⟩

end

/-- A state of the loop of `upgrade_v9_to_v10` that has met the accounts `D`. -/
structure NotingAccounts (f : StoreFile) (s : BlockStore) (Λ : Lattice p) (D : Finset Account)
    (g : StoreFile) : Prop where
  file : ∃ rows, g = { f with version := 10, store := { f.store with blocksInfo := rows } }
  noting : Noting s g.store
  done : ∀ {x e}, Λ.entry x = some e → e.owner ∈ D → Noted s g.store x

section

variable {f : StoreFile} (hv : Valid U s Λ) (hlegacy : ∀ b ∈ U, b.isLegacy = true)
  (hstored : ∀ h, Database.stored f.store.blockDatabase h = Database.stored s.blockDatabase h)
  (hrows : ∀ a, ∃ modified, f.store.accounts.lookup a =
    (s.accountGet a).map fun info => { info with modified := modified })

include hv hlegacy hstored hrows

theorem NotingAccounts.next {D : Finset Account} {g : StoreFile}
    (hg : f.NotingAccounts s Λ D g) {a : Account} {row : AccountInfo}
    (hrow : f.store.accounts.lookup a = some row) :
    ∃ g', upgradeV9ToV10Step p g (a, row) = .ok g' ∧ f.NotingAccounts s Λ (insert a D) g' := by
  obtain ⟨modified, hrow'⟩ := hrows a
  rw [hrow] at hrow'
  obtain ⟨info, hi, rfl⟩ := Option.map_eq_some_iff.mp hrow'.symm
  obtain ⟨e, hd⟩ := hv.refines.accounts.sound hi
  have hle : ∀ {x ex}, Λ.entry x = some ex → ex.owner = a → ex.height ≤ info.blockCount := by
    intro x ex hx hxo
    rw [hd.count]
    exact hd.isHead.height_le hd.head hx (hxo.trans hd.owner.symm)
  obtain ⟨rows₀, hfile⟩ := hg.file
  have hstored' : ∀ h, Database.stored g.store.blockDatabase h =
      Database.stored s.blockDatabase h := by
    rw [hfile]
    exact hstored
  unfold upgradeV9ToV10Step
  by_cases hmax : blockInfoMax ≤ info.blockCount
  · rw [if_pos hmax]
    obtain ⟨o, ho, howner, hprev⟩ := hd.opened
    have hfirst := first_of_previous_eq ho hprev
    have hread := readable_of_noting hv hstored' hg.noting
    have hfuel := hread.height_lt_fuel hd.head
    have hcount := hd.count
    have hpos := height_pos hd.head
    have hheight := hfirst.height
    have hstart : InfoWalk.On s g.store Λ a info.blockCount info.blockCount
        ⟨g.store, info.openBlock, 1⟩ :=
      ⟨⟨g.store.blocksInfo, rfl⟩, hg.noting, id, Or.inr ⟨o, ho, howner, hheight, by omega, by omega,
        fun hx _ hlt => absurd (height_pos hx) (by omega)⟩⟩
    obtain ⟨k, w, hloop, hw, hexit⟩ := @whileLoop_total _ _ Fault.outOfFuel
      (fun w : InfoWalk => decide (w.hash ≠ 0)) (InfoWalk.step p a)
      (InfoWalk.On s g.store Λ a info.blockCount)
      (fun k w hw hc => hw.step hv hlegacy hstored' hle (of_decide_eq_true hc)) g.store.fuel _ _
      (by omega) hstart
    obtain ⟨rows, hrows'⟩ := hw.store
    refine ⟨{ g with store := w.store }, ?_, ⟨rows, ?_⟩, hw.noting, fun {x ex} hx hxo => ?_⟩
    · exact congrArg (· >>= fun w : InfoWalk => Except.ok { g with store := w.store }) hloop
    · rw [hrows', hfile]
    · rcases Finset.mem_insert.mp hxo with hxa | hxD
      · rcases hw.current with ⟨_, hall⟩ | ⟨e', he', _⟩
        · exact hall hx hxa
        · exact absurd (Λ.ne_zero he') (by simpa using hexit)
      · exact hw.kept (hg.done hx hxD)
  · -- a short chain has no rows
    rw [if_neg hmax]
    refine ⟨g, rfl, hg.file, hg.noting, fun {x ex} hx hxo => ?_⟩
    rcases Finset.mem_insert.mp hxo with hxa | hxD
    · refine hg.noting.noted_of_none ?_
      have hshort := hle hx hxa
      have hpos := height_pos hx
      rw [blocksInfo_eq hv hlegacy hx, if_neg]
      rw [Nat.mod_eq_of_lt (by omega)]
      omega
    · exact hg.done hx hxD

/-- **Version 10.** The blocks get their rows of block info. -/
theorem upgradeV9ToV10_ok (hold : f.oldAccounts = ∅) (hinfo : f.store.blocksInfo = ∅) :
    ∃ rows, f.upgradeV9ToV10 p = .ok
        { f with version := 10, store := { f.store with blocksInfo := rows } } ∧
      ∀ h, rows.lookup h = s.blocksInfo.lookup h := by
  have hstart : f.NotingAccounts s Λ ∅ { f with version := 10 } := by
    refine ⟨⟨f.store.blocksInfo, rfl⟩, fun h i hi => ?_, fun _ h =>
      absurd h (Finset.notMem_empty _)⟩
    rw [show ({ f with version := 10 } : StoreFile).store.blocksInfo = ∅ from hinfo,
      Finmap.lookup_empty] at hi
    cases hi
  obtain ⟨g, hrun, hg⟩ := Table.foldlM_rows (r := (· ≤ ·)) (I := f.NotingAccounts s Λ)
    (fun D g a row hrow _ hg => hg.next hv hlegacy hstored hrows hrow) hstart
  obtain ⟨rows, rfl⟩ := hg.file
  refine ⟨rows, ?_, fun h => ?_⟩
  · unfold upgradeV9ToV10
    rw [decide_eq_true hold]
    exact hrun
  · cases he : Λ.entry h with
    | none =>
      refine hg.noting.noted_of_none ?_
      by_contra hsome
      obtain ⟨i, hi⟩ := Option.ne_none_iff_exists'.mp hsome
      rcases hv.refines.blocksInfo.other hi with ⟨e, he', _⟩ | ⟨b, hb, hstate, _⟩
      · cases he.symm.trans he'
      · cases hstate.symm.trans (hlegacy b hb)
    | some e => exact hg.done he (owner_mem_keys hv he hrows)

end

end StoreFile

end RaiBlocks
