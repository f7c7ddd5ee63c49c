import RaiBlocks.Ledger.Pending
import RaiBlocks.Refinement.UpgradeChains

/-!
# Migrating and replaying

A file of version 1 knows the blocks, the head and the balance of every account, the
frontiers and the pending entries by hash. Opening it with the current code upgrades
it step by step. The result has the tables of a new ledger to which the same blocks
were given one after the other. The last upgrade does not write its version, so it
runs again whenever the file is opened.
-/

namespace RaiBlocks

open Foundation StoreFile Table

variable {p : Env} {U : Set Block} {s s' : BlockStore} {Λ : Lattice p} {f : StoreFile}

/-- `f` is a file of version 1 with the blocks of the ledger `s`. Heads, balances,
frontiers and pending entries are those of `s`. Representative blocks, times and
weights may be anything, and successors may be missing. There are no rows of block info
and none in a later format. -/
structure StoreFile.VersionOne (f : StoreFile) (s : BlockStore) : Prop where
  version : f.version = 1
  coherent : Database.Coherent f.store.blockDatabase
  blocks : ∀ h, f.store.blockGet h = s.blockGet h
  successor : ∀ h, f.store.blockSuccessor h = 0 ∨ f.store.blockSuccessor h = s.blockSuccessor h
  accounts : ∀ a, ∃ repBlock modified,
    f.oldAccounts.lookup a = (s.accountGet a).map (AccountInfo.toV1 repBlock modified)
  frontiers : ∀ h, f.store.frontiers.lookup h = s.frontiers.lookup h
  pending : ∀ d h source amount, f.oldPending.lookup h = some ⟨source, amount, d⟩ ↔
    s.pendingGet ⟨d, h⟩ = some ⟨source, amount⟩
  noAccounts : f.store.accounts = ∅
  noPending : f.store.pending = ∅
  noBlocksInfo : f.store.blocksInfo = ∅

namespace StoreFile.VersionOne

/-- A file of one ledger is a file of every ledger with the same tables. -/
theorem of_sameTables (hf : f.VersionOne s) (ht : SameTables s s')
    (hblocks : ∀ h, s.blockGet h = s'.blockGet h) : f.VersionOne s' where
  version := hf.version
  coherent := hf.coherent
  blocks h := (hf.blocks h).trans (hblocks h)
  successor h := ht.successor h ▸ hf.successor h
  accounts a := by
    obtain ⟨repBlock, modified, hrow⟩ := hf.accounts a
    refine ⟨repBlock, modified, hrow.trans ?_⟩
    -- the row of version 1 does not show what may differ
    have htimeless := congrArg (Option.map (AccountInfo.toV1 repBlock modified)) (ht.accounts a)
    rwa [Option.map_map, Option.map_map] at htimeless
  frontiers h := (hf.frontiers h).trans (ht.frontiers h)
  pending d h source amount := by rw [hf.pending, ht.pending]
  noAccounts := hf.noAccounts
  noPending := hf.noPending
  noBlocksInfo := hf.noBlocksInfo

theorem readable (hf : f.VersionOne s) (hv : Valid U s Λ) : Readable f.store Λ := by
  have hs := hv.refines.blocks.readable hv.refines.blocksInfo
  refine ⟨fun he => (hf.blocks _).trans (hs.blockGet he), (hf.blocks _).trans hs.genesisAccount,
    fun _ _ hrow => ?_⟩
  rw [BlockStore.blockInfoGet, hf.noBlocksInfo, Finmap.lookup_empty] at hrow
  cases hrow

theorem doUpgrades_ok (sign : Uint256 → Signature) (hf : f.VersionOne s) (hv : Valid U s Λ)
    (hlegacy : ∀ b ∈ U, b.isLegacy = true) :
    ∃ f', f.doUpgrades p sign = .ok f' ∧ SameTables f'.store s ∧
      ∀ h, f'.store.blockInfoGet h = s.blockInfoGet h := by
  have hr := hf.readable hv
  have hl := Linking.of_blocks hf.coherent hf.blocks hf.successor
  obtain ⟨t₂, h₂, hrows₂⟩ := upgradeV1ToV2_ok hf.accounts hv hr hf.noAccounts
  obtain ⟨t₃, reps, h₃, hrows₃, hreps⟩ := upgradeV2ToV3_ok
    (f := { f with version := 2, oldAccounts := t₂ }) hrows₂ hv hr hf.noAccounts
  obtain ⟨pending, h₄, hpending⟩ := upgradeV3ToV4_ok
    (f := { f with version := 3, oldAccounts := t₃,
                   store := { f.store with representation := reps } }) hf.noPending hf.pending
  have hr₄ : Readable { f.store with representation := reps, pending := pending } Λ :=
    ⟨hr.blockGet, hr.genesisAccount, hr.blockInfo⟩
  obtain ⟨d, h₅, _, hstored⟩ := upgradeV4ToV5_ok
    (f := { f with version := 4, oldAccounts := t₃, oldPending := ∅,
                   store := { f.store with representation := reps, pending := pending } })
    hrows₃ hv hr₄ hf.noAccounts ⟨hl.coherent, hl.stored⟩
  have hr₅ : Readable
      { f.store with representation := reps, pending := pending, blockDatabase := d } Λ := by
    refine readable_of_noting hv hstored fun h i hi => ?_
    simp only [hf.noBlocksInfo, Finmap.lookup_empty] at hi
    cases hi
  obtain ⟨accounts, h₆, hrows₆⟩ := upgradeV5ToV6_ok
    (f := { f with version := 5, oldAccounts := t₃, oldPending := ∅,
                   store := { f.store with representation := reps, pending := pending,
                                           blockDatabase := d } }) hrows₃ hv hr₅ hf.noAccounts
  obtain ⟨vote, hvote⟩ : ∃ vote, f.sequence.foldl (fun vote row =>
    vote.put (Vote.make p sign row.1 row.2 p.genesisBlock)) f.vote = vote := ⟨_, rfl⟩
  obtain ⟨rows, h₁₀, hinfo⟩ := upgradeV9ToV10_ok
    (f := { f with version := 9, oldAccounts := ∅, oldPending := ∅, unchecked := ∅, vote := vote,
                   sequence := [],
                   store := { f.store with representation := reps, pending := pending,
                                           blockDatabase := d, accounts := accounts } })
    hv hlegacy hstored hrows₆ rfl hf.noBlocksInfo
  let store : BlockStore :=
    { f.store with representation := reps, pending := pending, blockDatabase := d,
                   accounts := accounts, blocksInfo := rows }
  refine ⟨⟨10, store, ∅, ∅, ∅, vote, [], none⟩, ?_,
    ⟨fun a => ?_, hf.frontiers, hpending, fun h => ?_, hreps⟩, hinfo⟩
  · unfold doUpgrades steps
    rw [hf.version, if_pos (by omega)]
    simp only [upgrades, Nat.sub_self, List.drop_zero, List.foldlM_cons, List.foldlM_nil, h₂, h₃,
      h₄, h₅, h₆, ok_bind, upgradeV6ToV7, upgradeV7ToV8, upgradeV8ToV9, hvote, h₁₀, upgradeV10ToV11]
    rfl
  · obtain ⟨modified, hrow⟩ := hrows₆ a
    refine (congrArg (Option.map AccountInfo.timeless) hrow).trans ?_
    rw [Option.map_map]
    rfl
  · rw [BlockStore.blockSuccessor_eq, BlockStore.blockSuccessor_eq]
    exact congrArg (fun v => (v.map BlockEntry.successor).getD 0) (hstored h)

end StoreFile.VersionOne

/-- **Migrating is replaying.** Let `f` be a file of version 1 with the legacy blocks of
a ledger. `do_upgrades` succeeds on it. Afterwards the account rows up to `modified`,
the pending entries, the successors, the weights, the frontiers and the rows of block
info are those of every ledger that holds the same blocks, in whatever order they
were processed. -/
theorem migration_equals_replay (sign : Uint256 → Signature) (hass : HashAssumptions p U)
    (hlegacy : ∀ b ∈ U, b.isLegacy = true) (hs : Ledger.Reachable p U s)
    (hf : f.VersionOne s) :
    ∃ f', f.doUpgrades p sign = .ok f' ∧ ∀ s', Ledger.Reachable p U s' →
      (∀ h, s'.blockGet h = f.store.blockGet h) →
      SameTables f'.store s' ∧ ∀ h, f'.store.blockInfoGet h = s'.blockInfoGet h := by
  obtain ⟨Λ, hv⟩ := Ledger.Reachable.valid hass s hs
  obtain ⟨f', hrun, _⟩ := hf.doUpgrades_ok sign hv hlegacy
  refine ⟨f', hrun, fun s' hs' hblocks => ?_⟩
  obtain ⟨Λ', hv'⟩ := Ledger.Reachable.valid hass s' hs'
  have hsame : ∀ h, s.blockGet h = s'.blockGet h :=
    fun h => (hf.blocks h).symm.trans (hblocks h).symm
  have hf' := hf.of_sameTables (hv.sameTables hv' (funext hsame)) hsame
  obtain ⟨f'', hrun', hresult⟩ := hf'.doUpgrades_ok sign hv' hlegacy
  obtain rfl := Except.ok.inj (hrun.symm.trans hrun')
  exact hresult

/-! ## A file for every ledger -/

/-- The file of version 1 for a ledger, without representatives and weights. -/
def BlockStore.asVersionOne (s : BlockStore) : StoreFile where
  version := 1
  store := { s with accounts := ∅, pending := ∅, blocksInfo := ∅, representation := ∅ }
  oldAccounts := (∅ : Table Account OldAccountInfo).putAll
    ((s.accounts.rows (· ≤ ·)).map fun row => (row.1, row.2.toV1 0 row.2.modified))
  oldPending := (∅ : Table BlockHash PendingInfoV3).putAll
    ((s.pending.rows PendingKey.le).map fun row =>
      (row.1.hash, ⟨row.2.source, row.2.amount, row.1.account⟩))
  unchecked := ∅
  vote := .empty
  sequence := []
  unsynced := some []

theorem Valid.asVersionOne (hv : Valid U s Λ) : s.asVersionOne.VersionOne s where
  version := rfl
  coherent := hv.refines.blocks.coherent
  blocks _ := rfl
  successor _ := Or.inr rfl
  accounts a := by
    have hnodup : (((s.accounts.rows (· ≤ ·)).map fun row : Account × AccountInfo =>
        (row.1, row.2.toV1 0 row.2.modified)).map Prod.fst).Nodup := by
      rw [List.map_map, List.Nodup, List.pairwise_map]
      exact (pairwise_rows (r := (· ≤ ·)) s.accounts).imp fun hne => hne.2
    cases hi : s.accountGet a with
    | none =>
      refine ⟨0, 0, lookup_putAll_of_notMem ?_ _⟩
      rw [List.map_map]
      intro ha
      obtain ⟨⟨a', info⟩, hrow, rfl⟩ := List.mem_map.mp ha
      cases hi.symm.trans (mem_rows.mp hrow)
    | some info =>
      refine ⟨0, info.modified, lookup_putAll_of_mem hnodup ?_ _⟩
      exact List.mem_map.mpr ⟨(a, info), mem_rows.mpr hi, rfl⟩
  frontiers _ := rfl
  pending d h source amount := by
    -- a send has one destination, so the hash is a key
    have hkey : ∀ {k k' i i'}, s.pending.lookup k = some i → s.pending.lookup k' = some i' →
        k.hash = k'.hash → k = k' := by
      rintro ⟨d, h⟩ ⟨d', h'⟩ i i' hk hk' rfl
      obtain ⟨e, he, hd, _⟩ := (hv.refines.pending d h i).mp hk
      obtain ⟨e', he', hd', _⟩ := (hv.refines.pending d' h i').mp hk'
      obtain rfl := Option.some.inj (he.symm.trans he')
      rw [Option.some.inj (hd.symm.trans hd')]
    have hnodup : (((s.pending.rows PendingKey.le).map fun row : PendingKey × PendingInfo =>
        (row.1.hash, (⟨row.2.source, row.2.amount, row.1.account⟩ : PendingInfoV3))).map
          Prod.fst).Nodup := by
      rw [List.map_map, List.Nodup, List.pairwise_map]
      refine (pairwise_rows (r := PendingKey.le) s.pending).imp_of_mem fun hx hy hne heq => ?_
      exact hne.2 (hkey (mem_rows.mp hx) (mem_rows.mp hy) heq)
    refine (lookup_empty_putAll hnodup).trans ?_
    rw [List.mem_map]
    constructor
    · rintro ⟨⟨⟨d', h'⟩, ⟨source', amount'⟩⟩, hrow, heq⟩
      cases heq
      exact mem_rows.mp hrow
    · exact fun hi => ⟨(⟨d, h⟩, ⟨source, amount⟩), mem_rows.mpr hi, rfl⟩
  noAccounts := rfl
  noPending := rfl
  noBlocksInfo := rfl

namespace Sample

/-- The legacy blocks of the sample run. -/
def legacy : Set Block := {b | b ∈ blocks ∧ b.isLegacy = true}

theorem legacy_assumptions : HashAssumptions env legacy :=
  assumptions.mono (fun _ hb => hb.1) ⟨assumptions.genesis_mem, rfl⟩

theorem legacy_reachable : Ledger.Reachable env legacy store := by
  have hfirst : Ledger.Reachable env legacy first :=
    ⟨0, first, eq_ok_getD runs_isOk.1 .empty, .refl⟩
  have hmem : send ∈ legacy ∧ opens ∈ legacy :=
    ⟨⟨send_mem, rfl⟩, show opens ∈ all by simp [all], rfl⟩
  have hU : ∀ x ∈ [(1, send), (2, opens)], x.2 ∈ legacy := by simp [hmem]
  exact hfirst.processAll hU (eq_ok_getD runs_isOk.2 (.empty, []))

end Sample

/-- The sample ledger in the format of version 1 is migrated. -/
theorem migration_equals_replay_sample :
    ∃ f', Sample.store.asVersionOne.doUpgrades Sample.env (fun _ => 0) = .ok f' ∧
      SameTables f'.store Sample.store := by
  obtain ⟨Λ, hv⟩ := Ledger.Reachable.valid Sample.legacy_assumptions _ Sample.legacy_reachable
  obtain ⟨f', hrun, hall⟩ := migration_equals_replay (fun _ => 0)
    Sample.legacy_assumptions (fun b hb => hb.2) Sample.legacy_reachable hv.asVersionOne
  exact ⟨f', hrun, (hall _ Sample.legacy_reachable fun _ => rfl).1⟩

/-! ## Opening the file again -/

namespace StoreFile

variable {sign : Uint256 → Signature} {f' : StoreFile}

theorem version_of_upgradeV9ToV10 (hrun : f.upgradeV9ToV10 p = .ok f') : f'.version = 10 := by
  unfold upgradeV9ToV10 at hrun
  obtain ⟨_, _, hrun⟩ := bind_eq_ok hrun
  refine foldlM_invariant (P := fun g : StoreFile => g.version = 10) ?_ rfl hrun
  intro g g' row _ hg hstep
  unfold upgradeV9ToV10Step at hstep
  split at hstep
  · obtain ⟨w, _, hstep⟩ := bind_eq_ok hstep
    obtain rfl := Except.ok.inj hstep
    exact hg
  · obtain rfl := Except.ok.inj hstep
    exact hg

theorem doUpgrades_eleven (hversion : f.version = 11) : f.doUpgrades p sign = .ok f := by
  unfold doUpgrades steps
  rw [hversion]
  rfl

/-- Only the last upgrade runs on a file of version 10. -/
theorem doUpgrades_ten (hversion : f.version = 10) :
    f.doUpgrades p sign = .ok { f with unsynced := none } := by
  have hsteps : f.steps p sign = [upgradeV10ToV11] := by
    unfold steps
    rw [hversion]
    rfl
  unfold doUpgrades
  rw [if_pos (by omega), hsteps]
  rfl

/-- An upgraded file has version 10, and the last upgrade has run on it. -/
theorem of_doUpgrades (hrun : f.doUpgrades p sign = .ok f') :
    f.version = 11 ∧ f' = f ∨ f.version ≠ 11 ∧ f'.version = 10 ∧ f'.unsynced = none := by
  rcases Nat.lt_trichotomy f.version 10 with hlt | heq | hgt
  · unfold doUpgrades steps at hrun
    split at hrun
    · -- what runs ends with the last two upgrades
      have hdrop : (upgrades p sign).drop (f.version - 1) =
          ((upgrades p sign).take 8).drop (f.version - 1) ++
            [upgradeV9ToV10 p, upgradeV10ToV11] := by
        rw [← List.drop_append_of_le_length]
        · rfl
        · show f.version - 1 ≤ 8
          omega
      rw [hdrop, List.foldlM_append] at hrun
      obtain ⟨f₉, _, hrun⟩ := bind_eq_ok hrun
      rw [List.foldlM_cons] at hrun
      obtain ⟨f₁₀, h₁₀, hrun⟩ := bind_eq_ok hrun
      have h₁₁ : { f₁₀ with unsynced := none } = f' := Except.ok.inj hrun
      subst h₁₁
      exact Or.inr ⟨by omega, (version_of_upgradeV9ToV10 h₁₀ :), rfl⟩
    · cases hrun
  · rw [doUpgrades_ten heq] at hrun
    obtain rfl := Except.ok.inj hrun
    exact Or.inr ⟨by omega, heq, rfl⟩
  · by_cases heq : f.version = 11
    · rw [doUpgrades_eleven heq] at hrun
      exact Or.inl ⟨heq, (Except.ok.inj hrun).symm⟩
    · unfold doUpgrades at hrun
      rw [if_neg (by omega)] at hrun
      cases hrun

/-- Once upgraded, a file is not changed by the upgrades. -/
theorem doUpgrades_again {sign' : Uint256 → Signature} (hrun : f.doUpgrades p sign = .ok f') :
    f'.doUpgrades p sign' = .ok f' := by
  rcases of_doUpgrades hrun with ⟨h11, rfl⟩ | ⟨_, h10, hunsynced⟩
  · exact doUpgrades_eleven h11
  · rw [doUpgrades_ten h10, ← hunsynced]

end StoreFile

/-- **Only a file of version 11 is done with upgrading.** No upgrade writes a version
above 10. After `do_upgrades` the version is 11, and opening the file again runs no
upgrade, exactly if the file had version 11 to begin with. Opening it again changes
nothing but the checksum in any case. -/
theorem upgrades_run_once_iff {sign sign' : Uint256 → Signature} {f' : StoreFile}
    (hrun : f.doUpgrades p sign = .ok f') :
    f'.openStore p sign' = .ok { f' with store := f'.store.checksumPut 0 } ∧
    (f'.version = 11 ∧ f'.steps p sign' = [] ↔ f.version = 11) := by
  refine ⟨?_, fun h => ?_, fun h => ?_⟩
  · unfold openStore
    rw [doUpgrades_again hrun]
    rfl
  · rcases of_doUpgrades hrun with ⟨h11, _⟩ | ⟨_, h10, _⟩
    · exact h11
    · omega
  · rw [doUpgrades_eleven h] at hrun
    obtain rfl := Except.ok.inj hrun
    refine ⟨h, ?_⟩
    unfold steps
    rw [h]
    rfl

/-- A new file. Without an entry for the version it counts as version 1. -/
def StoreFile.new : StoreFile where
  version := 1
  store := .empty
  oldAccounts := ∅
  oldPending := ∅
  unchecked := ∅
  vote := .empty
  sequence := []
  unsynced := none

/-- A new file is upgraded to version 10, and one upgrade is left to run the next
time. -/
theorem new_store_upgraded_again :
    ∃ f', new.doUpgrades Sample.env (fun _ => 0) = .ok f' ∧
      f'.version = 10 ∧ (f'.steps Sample.env fun _ => 0).length = 1 :=
  ⟨{ new with version := 10 }, rfl, rfl, rfl⟩

/-- A file of version 11 with the sample ledger. -/
def StoreFile.current : StoreFile := { new with version := 11, store := Sample.store }

/-- No upgrade runs, neither now nor the next time. -/
theorem upgrades_run_once_iff_current : current.doUpgrades Sample.env (fun _ => 0) = .ok current ∧
    current.openStore Sample.env (fun _ => 0) =
      .ok { current with store := Sample.store.checksumPut 0 } ∧
    current.version = 11 ∧ current.steps Sample.env (fun _ => 0) = [] := by
  have hrun : current.doUpgrades Sample.env (fun _ => 0) = .ok current :=
    doUpgrades_eleven rfl
  obtain ⟨hopen, hiff⟩ := upgrades_run_once_iff hrun
  exact ⟨hrun, hopen, hiff.mpr rfl⟩

end RaiBlocks
