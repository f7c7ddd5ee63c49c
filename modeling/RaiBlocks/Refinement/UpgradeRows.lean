import RaiBlocks.Store.Upgrade
import RaiBlocks.Refinement.Determined

/-!
# The upgrades that rewrite rows

A file of an older version is compared with a store `s` that holds the same blocks and
is valid, with the lattice `Λ`. One lemma for each upgrade says that it does not fail,
which tables it writes and that what it writes is what `s` has. Here are versions 2, 3
and 6, which complete the rows of accounts, and version 4, which gives the pending
entries their keys.

The walks over a chain need the blocks of `Λ` to be readable and nothing else, so they
can be done with the tables of any version.
-/

namespace RaiBlocks

open Foundation Table AccountInfo RaiBlocks.Lattice

variable {p : Env} {U : Set Block} {s t : BlockStore} {Λ : Lattice p} {h : BlockHash} {e : Entry}

/-! ## Walking a chain -/

abbrev openLoop (t : BlockStore) : ℕ → Block → Except Fault Block :=
  whileLoop .outOfFuel (fun block : Block => block.previous ≠ 0)
    (fun block => t.blockAt block.previous)

abbrev countLoop (t : BlockStore) : ℕ → StoreFile.CountWalk → Except Fault StoreFile.CountWalk :=
  whileLoop .outOfFuel (fun w : StoreFile.CountWalk => w.hash ≠ 0) (StoreFile.CountWalk.step t)

namespace Readable

theorem blockAt (hr : Readable t Λ) (he : Λ.entry h = some e) : t.blockAt h = .ok e.block := by
  unfold BlockStore.blockAt
  rw [hr.blockGet he]

theorem findOpen_loop (hr : Readable t Λ) : ∀ h e, Λ.entry h = some e → ∀ n, e.height ≤ n →
    ∃ x o, Λ.entry x = some o ∧ o.owner = e.owner ∧ o.block.previous = 0 ∧
      openLoop t n e.block = .ok o.block := by
  refine rank_induction ?_
  intro h e he ih n hn
  rcases first_or_follows he with hf | ⟨q, hq, hfol⟩
  · refine ⟨h, e, he, rfl, hf.previous, whileLoop_done ?_ n⟩
    simp [hf.previous]
  · have hheight := hfol.height
    obtain ⟨m, rfl⟩ : ∃ m, n = m + 1 := ⟨n - 1, by omega⟩
    obtain ⟨x, o, ho, howner, hprev, hloop⟩ := ih _ q hq hfol.rank m (by omega)
    refine ⟨x, o, ho, howner.trans hfol.owner, hprev, ?_⟩
    rw [← hloop]
    refine whileLoop_step ?_ (hr.blockAt hq) m
    exact decide_eq_true (Λ.ne_zero hq)

theorem findOpen (hr : Readable t Λ) {a : Account} {info : AccountInfo}
    (hd : Λ.Describes a info e) : StoreFile.findOpen p t info.head = .ok info.openBlock := by
  have hfuel := hr.height_lt_fuel hd.head
  obtain ⟨x, o, ho, howner, hprev, hloop⟩ := hr.findOpen_loop _ e hd.head t.fuel (by omega)
  obtain ⟨o', ho', howner', hprev'⟩ := hd.opened
  obtain rfl := first_unique ho ho' hprev hprev'
    (howner.trans (hd.owner.trans howner'.symm))
  unfold StoreFile.findOpen
  rw [hr.blockAt hd.head, ok_bind]
  refine (congrArg (· >>= fun block : Block => Except.ok (block.hash p)) hloop).trans ?_
  exact congrArg Except.ok (Λ.hash_eq ho)

/-- The count of the blocks from one down is its height. -/
theorem countBlocks_loop (hr : Readable t Λ) : ∀ h e, Λ.entry h = some e → ∀ n k, e.height ≤ n →
    countLoop t n ⟨h, k⟩ = .ok ⟨0, k + e.height⟩ := by
  refine rank_induction ?_
  intro h e he ih n k hn
  have hpos := height_pos he
  obtain ⟨m, rfl⟩ : ∃ m, n = m + 1 := ⟨n - 1, by omega⟩
  have hstep : countLoop t (m + 1) ⟨h, k⟩ = countLoop t m ⟨e.block.previous, k + 1⟩ := by
    refine whileLoop_step ?_ ?_ m
    · exact decide_eq_true (Λ.ne_zero he)
    · unfold StoreFile.CountWalk.step
      rw [hr.blockGet he]
  rw [hstep]
  rcases first_or_follows he with hf | ⟨q, hq, hfol⟩
  · rw [hf.previous, hf.height]
    exact whileLoop_done rfl m
  · have hheight := hfol.height
    rw [ih _ q hq hfol.rank m (k + 1) (by omega), hheight, Nat.add_assoc, Nat.add_comm 1]

theorem countBlocks (hr : Readable t Λ) (he : Λ.entry h = some e) :
    StoreFile.countBlocks t h = .ok e.height := by
  have hfuel := hr.height_lt_fuel he
  have hloop := hr.countBlocks_loop h e he t.fuel 0 (by omega)
  rw [Nat.zero_add] at hloop
  exact congrArg (· >>= fun w : StoreFile.CountWalk => Except.ok w.blockCount) hloop

end Readable

/-! ## Version 2 -/

/-- The row of version 1. Its representative block and time are left open. -/
def AccountInfo.toV1 (repBlock : BlockHash) (modified : ℕ) (info : AccountInfo) : OldAccountInfo :=
  .v1 ⟨info.head, repBlock, info.balance, modified⟩

def AccountInfo.toV5 (repBlock : BlockHash) (modified : ℕ) (info : AccountInfo) : OldAccountInfo :=
  .v5 ⟨info.head, repBlock, info.openBlock, info.balance, modified⟩

namespace StoreFile

/-- A state of the loop of `upgrade_v1_to_v2`: the rows below the account have their
open block, the others are as they were. `k` bounds the iterations that are left. -/
structure Opening (f : StoreFile) (s : BlockStore) (k : ℕ) (x : StoreFile × Account) : Prop where
  file : ∃ t, x.1 = { f with version := 2, oldAccounts := t }
  done : ∀ {a}, x.2 = 0 ∨ a < x.2 → ∃ repBlock modified,
    x.1.oldAccounts.lookup a = (s.accountGet a).map (toV5 repBlock modified)
  rest : ∀ {a}, x.2 ≠ 0 → x.2 ≤ a → x.1.oldAccounts.lookup a = f.oldAccounts.lookup a
  bound : x.2 ≠ 0 → (f.oldAccounts.keys.filter (x.2 ≤ ·)).card + 1 ≤ k

section

variable {f : StoreFile} {k : ℕ} {x : StoreFile × Account}

theorem lt_add_one_or {a b : Account} : b + 1 = 0 ∨ a < b + 1 ↔ a ≤ b := by
  constructor
  · intro h
    bv_omega
  · intro h
    bv_omega

variable (hrows : ∀ a, ∃ repBlock modified,
  f.oldAccounts.lookup a = (s.accountGet a).map (toV1 repBlock modified))

include hrows

/-- What is not in the table of the file is no account. -/
theorem accountGet_none {a : Account} (ha : f.oldAccounts.lookup a = none) :
    s.accountGet a = none := by
  obtain ⟨repBlock, modified, hrow⟩ := hrows a
  rw [ha] at hrow
  exact Option.map_eq_none_iff.mp hrow.symm

theorem Opening.finish (ho : f.Opening s k x) (h0 : x.2 ≠ 0)
    (hend : x.1.oldAccounts.firstFrom (· ≤ ·) x.2 = none) : f.Opening s 0 (x.1, 0) where
  file := ho.file
  done {a} _ := by
    by_cases ha : a < x.2
    · exact ho.done (Or.inr ha)
    · have hle := BitVec.not_lt.mp ha
      have hnone : x.1.oldAccounts.lookup a = none := by
        by_contra hsome
        obtain ⟨row, hrow⟩ := Option.ne_none_iff_exists'.mp hsome
        exact of_firstFrom_eq_none hend hrow hle
      have hold := hnone
      rw [ho.rest h0 hle] at hold
      rw [hnone, accountGet_none hrows hold]
      exact ⟨0, 0, rfl⟩
  rest h := absurd rfl h
  bound h := absurd rfl h

theorem Opening.next (ho : f.Opening s k x) (h0 : x.2 ≠ 0) {a : Account} {row : OldAccountInfo}
    (hfirst : x.1.oldAccounts.firstFrom (· ≤ ·) x.2 = some (a, row)) {info : AccountInfo}
    (hi : s.accountGet a = some info) (repBlock : BlockHash) (modified : ℕ) :
    f.Opening s (k - 1)
      ({ x.1 with oldAccounts := x.1.oldAccounts.insert a (info.toV5 repBlock modified) },
        a + 1) := by
  obtain ⟨hrow, hle, hleast⟩ := of_firstFrom_eq_some hfirst
  obtain ⟨t, ht⟩ := ho.file
  have hk := ho.bound h0
  refine ⟨⟨_, by rw [ht]⟩, fun {b} hb => ?_, fun {b} hne hb => ?_, fun hne => ?_⟩
  · rw [lt_add_one_or] at hb
    simp only [lookup_insert_ite]
    by_cases hba : b = a
    · subst hba
      rw [if_pos rfl, hi]
      exact ⟨repBlock, modified, rfl⟩
    · rw [if_neg hba]
      by_cases hbx : b < x.2
      · exact ho.done (Or.inr hbx)
      · -- there is no row between the account and the first one found
        have hxb := BitVec.not_lt.mp hbx
        have hnone : x.1.oldAccounts.lookup b = none := by
          by_contra hsome
          obtain ⟨row', hrow'⟩ := Option.ne_none_iff_exists'.mp hsome
          exact hba (BitVec.le_antisymm hb (hleast hrow' hxb))
        have hold := hnone
        rw [ho.rest h0 hxb] at hold
        rw [hnone, accountGet_none hrows hold]
        exact ⟨0, 0, rfl⟩
  · have hba : b ≠ a ∧ x.2 ≤ b := by
      simp only at hne hb
      constructor <;> bv_omega
    simp only [lookup_insert_ite, if_neg hba.1]
    exact ho.rest h0 hba.2
  · have hlt : (f.oldAccounts.keys.filter (a + 1 ≤ ·)).card <
        (f.oldAccounts.keys.filter (x.2 ≤ ·)).card := by
      have hmem : a ∈ f.oldAccounts.keys := by
        rw [Finmap.mem_keys, ← Finmap.lookup_isSome, ← ho.rest h0 hle, hrow]
        rfl
      refine Finset.card_lt_card ((Finset.ssubset_iff_of_subset fun b hb => ?_).mpr
        ⟨a, Finset.mem_filter.mpr ⟨hmem, hle⟩, fun ha => ?_⟩)
      · rw [Finset.mem_filter] at hb ⊢
        refine ⟨hb.1, ?_⟩
        have := hb.2
        simp only at hne
        bv_omega
      · have := (Finset.mem_filter.mp ha).2
        simp only at hne
        bv_omega
    simp only
    omega

/-- **Version 2.** The rows get their open blocks. -/
theorem upgradeV1ToV2_ok (hv : Valid U s Λ) (hr : Readable f.store Λ)
    (hcurrent : f.store.accounts = ∅) :
    ∃ t, f.upgradeV1ToV2 p = .ok { f with version := 2, oldAccounts := t } ∧
      ∀ a, ∃ repBlock modified,
        t.lookup a = (s.accountGet a).map (toV5 repBlock modified) := by
  have hzero : s.accountGet 0 = none :=
    hv.refines.accounts.lookup_none_iff.mpr fun h e he => (Λ.sound he).1
  have hstart : f.Opening s (f.oldAccounts.keys.card + 1) ({ f with version := 2 }, 1) := by
    refine ⟨⟨f.oldAccounts, rfl⟩, fun {a} ha => ?_, fun _ _ => rfl, fun _ => ?_⟩
    · obtain rfl : a = 0 := by
        simp only at ha
        bv_omega
      obtain ⟨repBlock, modified, hrow⟩ := hrows 0
      rw [hzero] at hrow ⊢
      exact ⟨0, 0, hrow⟩
    · exact Nat.succ_le_succ (Finset.card_filter_le _ _)
  have hstep : ∀ k x, f.Opening s k x → decide (x.2 ≠ 0) = true →
      ∃ k' x', upgradeV1ToV2Step p x = .ok x' ∧ k' < k ∧ f.Opening s k' x' := by
    rintro k ⟨g, account⟩ ho hc
    have h0 : account ≠ 0 := of_decide_eq_true hc
    have hk := ho.bound h0
    cases hfirst : g.oldAccounts.firstFrom (· ≤ ·) account with
    | none =>
      refine ⟨0, _, ?_, by omega, ho.finish hrows h0 hfirst⟩
      simp only [upgradeV1ToV2Step, hfirst]
    | some found =>
      obtain ⟨a, row⟩ := found
      obtain ⟨hrow, hle, _⟩ := of_firstFrom_eq_some hfirst
      have hold := ho.rest h0 hle
      obtain ⟨repBlock, modified, hrow'⟩ := hrows a
      rw [← hold, hrow] at hrow'
      obtain ⟨info, hi, rfl⟩ := Option.map_eq_some_iff.mp hrow'.symm
      obtain ⟨e, hd⟩ := hv.refines.accounts.sound hi
      obtain ⟨t, ht⟩ := ho.file
      have hstore : g.store = f.store := by rw [show g = _ from ht]
      refine ⟨k - 1, _, ?_, by omega, ho.next hrows h0 hfirst hi repBlock modified⟩
      simp only [upgradeV1ToV2Step, hfirst, toV1, OldAccountInfo.asV1, ok_bind,
        hstore, hr.findOpen hd]
      rfl
  obtain ⟨k, x, hloop, hx, hexit⟩ := @whileLoop_total _ _ Fault.outOfFuel _ _ _ hstep
    (f.oldAccounts.keys.card + 1) _ _ le_rfl hstart
  obtain ⟨t, ht⟩ := hx.file
  refine ⟨t, ?_, fun a => ?_⟩
  · unfold upgradeV1ToV2
    rw [hcurrent, hloop]
    simp [ht]
  · have hdone := hx.done (a := a) (Or.inl (by simpa using hexit))
    rw [ht] at hdone
    exact hdone

end

end StoreFile

/-! ## Version 3 -/

/-- What the account `a` adds to the weight of `r`. -/
def share (s : BlockStore) (Λ : Lattice p) (r a : Account) : ℕ :=
  (s.accounts.lookup a).elim 0 fun info =>
    if Λ.repAccount info.repBlock = some r then info.balance.toNat else 0

theorem Valid.representationGet_eq_shares (hv : Valid U s Λ) (r : Account) :
    s.representationGet r = BitVec.ofNat 128 (∑ a ∈ s.accounts.keys, share s Λ r a) := by
  have hweight : weight s.accounts Λ r = ∑ a ∈ s.accounts.keys, share s Λ r a :=
    sum_eq_keys _ _
  rw [← hweight]
  exact sub_eq_zero.mp (hv.drift r)

namespace StoreFile

section

variable {f : StoreFile}

/-- A state of the loop of `upgrade_v2_to_v3` that has met the accounts `D`. -/
structure Weighing (f : StoreFile) (s : BlockStore) (Λ : Lattice p) (D : Finset Account)
    (g : StoreFile) : Prop where
  file : ∃ t reps, g =
    { f with version := 3, oldAccounts := t, store := { f.store with representation := reps } }
  done : ∀ {a}, a ∈ D → ∃ modified, g.oldAccounts.lookup a =
    (s.accountGet a).map fun info => info.toV5 info.repBlock modified
  rest : ∀ {a}, a ∉ D → g.oldAccounts.lookup a = f.oldAccounts.lookup a
  weight : ∀ r, g.store.representationGet r = BitVec.ofNat 128 (∑ a ∈ D, share s Λ r a)

variable (hrows : ∀ a, ∃ repBlock modified,
  f.oldAccounts.lookup a = (s.accountGet a).map (toV5 repBlock modified))

include hrows

theorem Weighing.next (hv : Valid U s Λ) (hr : Readable f.store Λ) {D : Finset Account}
    {g : StoreFile} (hw : f.Weighing s Λ D g) {a : Account} {row : OldAccountInfo}
    (hrow : f.oldAccounts.lookup a = some row) (hD : a ∉ D) :
    ∃ g', upgradeV2ToV3Step p g (a, row) = .ok g' ∧ f.Weighing s Λ (insert a D) g' := by
  obtain ⟨repBlock, modified, hrow'⟩ := hrows a
  rw [hrow] at hrow'
  obtain ⟨info, hi, rfl⟩ := Option.map_eq_some_iff.mp hrow'.symm
  obtain ⟨e, hd⟩ := hv.refines.accounts.sound hi
  obtain ⟨r, hrep, _⟩ := rep_entry _ e hd.head
  obtain ⟨t, reps, rfl⟩ := hw.file
  have hr' : Readable { f.store with representation := reps } Λ :=
    ⟨hr.blockGet, hr.genesisAccount, hr.blockInfo⟩
  obtain ⟨reps', hadd, hget⟩ := BlockStore.representationAdd_eq (hr'.blockGet hrep) info.balance
  refine ⟨_, ?_, ⟨t.insert a (info.toV5 info.repBlock modified), reps', rfl⟩, fun {b} hb => ?_,
    fun {b} hb => ?_, fun x => ?_⟩
  · simp only [upgradeV2ToV3Step, toV5, OldAccountInfo.asV5, ok_bind,
      hr'.representativeCompute hd.head, decide_eq_true (Λ.ne_zero hrep), assertThat_true, hadd,
      hd.rep]
    rfl
  · rw [lookup_insert_ite]
    by_cases hba : b = a
    · subst hba
      rw [if_pos rfl]
      exact ⟨modified, by rw [hi]; rfl⟩
    · rw [if_neg hba]
      exact hw.done ((Finset.mem_insert.mp hb).resolve_left hba)
  · rw [Finset.mem_insert, not_or] at hb
    rw [lookup_insert_ite, if_neg hb.1]
    exact hw.rest hb.2
  · rw [Finset.sum_insert hD, BitVec.ofNat_add, BitVec.add_comm, ← hw.weight x, hget x]
    congr 1
    have hshare : share s Λ x a =
        if Λ.repAccount info.repBlock = some x then info.balance.toNat else 0 := by
      unfold share
      rw [show s.accounts.lookup a = some info from hi]
      rfl
    rw [hshare, hd.rep, repAccount, hrep, Option.map_some]
    by_cases hx : r.block.representative = x
    · rw [if_pos hx, if_pos (congrArg some hx)]
      simp
    · rw [if_neg hx, if_neg (fun h => hx (Option.some.inj h))]
      rfl

/-- **Version 3.** The rows get their representative blocks, and the representatives
their weights. -/
theorem upgradeV2ToV3_ok (hv : Valid U s Λ) (hr : Readable f.store Λ)
    (hcurrent : f.store.accounts = ∅) :
    ∃ t reps, f.upgradeV2ToV3 p = .ok
      { f with version := 3, oldAccounts := t, store := { f.store with representation := reps } } ∧
      (∀ a, ∃ modified, t.lookup a =
        (s.accountGet a).map fun info => info.toV5 info.repBlock modified) ∧
      ∀ r, (reps.lookup r).getD 0 = s.representationGet r := by
  have hstart : f.Weighing s Λ ∅
      { f with version := 3, store := { f.store with representation := ∅ } } :=
    ⟨⟨f.oldAccounts, ∅, rfl⟩, fun ha => absurd ha (Finset.notMem_empty _), fun _ => rfl,
      fun _ => rfl⟩
  obtain ⟨g, hrun, hw⟩ := foldlM_rows (r := (· ≤ ·)) (I := f.Weighing s Λ)
    (fun D g a row hrow hD hw => Weighing.next hrows hv hr hw hrow hD) hstart
  obtain ⟨t, reps, rfl⟩ := hw.file
  have hkeys : f.oldAccounts.keys = s.accounts.keys := by
    ext a
    obtain ⟨repBlock, modified, hrow⟩ := hrows a
    rw [Finmap.mem_keys, Finmap.mem_keys, ← Finmap.lookup_isSome, ← Finmap.lookup_isSome, hrow,
      Option.isSome_map]
    rfl
  refine ⟨t, reps, ?_, fun a => ?_, fun r => ?_⟩
  · unfold upgradeV2ToV3 latestRows
    rw [hcurrent]
    exact hrun
  · by_cases ha : a ∈ f.oldAccounts.keys
    · exact hw.done ha
    · have hnone : f.oldAccounts.lookup a = none := by
        rwa [Finmap.mem_keys, ← Finmap.lookup_eq_none] at ha
      have hrow := hw.rest ha
      obtain ⟨repBlock, modified, hrow'⟩ := hrows a
      rw [hnone] at hrow hrow'
      rw [Option.map_eq_none_iff.mp hrow'.symm]
      exact ⟨0, hrow⟩
  · have hweight := hw.weight r
    rw [hkeys, ← hv.representationGet_eq_shares] at hweight
    exact hweight

end

end StoreFile

/-! ## Version 4 -/

theorem BlockStore.foldl_pendingPut (items : List (PendingKey × PendingInfo)) :
    ∀ t : BlockStore, items.foldl (fun s item => s.pendingPut item.1 item.2) t =
      { t with pending := t.pending.putAll items } := by
  induction items with
  | nil => exact fun _ => rfl
  | cons item items ih => exact fun t => ih _

namespace StoreFile

/-- **Version 4.** The pending entries get their new keys. -/
theorem upgradeV3ToV4_ok {f : StoreFile} (hcurrent : f.store.pending = ∅)
    (hpending : ∀ d h source amount, f.oldPending.lookup h = some ⟨source, amount, d⟩ ↔
      s.pendingGet ⟨d, h⟩ = some ⟨source, amount⟩) :
    ∃ t, f.upgradeV3ToV4 = .ok
        { f with version := 4, oldPending := ∅, store := { f.store with pending := t } } ∧
      ∀ k, t.lookup k = s.pendingGet k := by
  set items := (f.oldPending.rows (· ≤ ·)).map pendingItem with hitems
  have hnodup : (items.map Prod.fst).Nodup := by
    rw [hitems, List.map_map, List.Nodup, List.pairwise_map]
    refine (pairwise_rows (r := (· ≤ ·)) f.oldPending).imp fun hne heq => hne.2 ?_
    exact congrArg PendingKey.hash heq
  have hmem : ∀ k i, (k, i) ∈ items ↔ s.pendingGet k = some i := by
    rintro ⟨d, h⟩ ⟨source, amount⟩
    rw [← hpending, ← mem_rows (r := (· ≤ ·)), hitems, List.mem_map]
    constructor
    · rintro ⟨⟨x, info⟩, hrow, heq⟩
      obtain ⟨hkey, hinfo⟩ := Prod.mk.inj heq
      obtain ⟨rfl, rfl⟩ := PendingKey.mk.inj hkey
      obtain ⟨rfl, rfl⟩ := PendingInfo.mk.inj hinfo
      exact hrow
    · exact fun hrow => ⟨_, hrow, rfl⟩
  refine ⟨(∅ : Table PendingKey PendingInfo).putAll items, ?_, fun k => Option.ext fun i => ?_⟩
  · simp only [upgradeV3ToV4, hcurrent, BlockStore.foldl_pendingPut]
    rfl
  · rw [← hmem]
    exact lookup_empty_putAll hnodup

end StoreFile

/-! ## Version 6 -/

namespace StoreFile

theorem foldl_accountPut (headers : List (Account × AccountInfo)) :
    ∀ f : StoreFile, headers.foldl (fun f header => f.accountPut header.1 header.2) f =
      { f with
        oldAccounts := f.oldAccounts.eraseAll (headers.map Prod.fst)
        store := { f.store with accounts := f.store.accounts.putAll headers } } := by
  induction headers with
  | nil => exact fun _ => rfl
  | cons header headers ih => exact fun f => ih _

/-- The row of version 6, with the rest of the row of `s`. -/
def headerOf (s : BlockStore) (row : Account × OldAccountInfo) : Account × AccountInfo :=
  match row.2 with
  | .v1 _ => (row.1, .zero)
  | .v5 old => (row.1, { (s.accountGet row.1).getD .zero with modified := old.modified })

section

variable {f : StoreFile}

variable (hrows : ∀ a, ∃ modified, f.oldAccounts.lookup a =
  (s.accountGet a).map fun info => info.toV5 info.repBlock modified)

include hrows

theorem header_eq (hv : Valid U s Λ) (hr : Readable f.store Λ) {a : Account}
    {row : OldAccountInfo} (hrow : f.oldAccounts.lookup a = some row) :
    header f.store (a, row) = .ok (headerOf s (a, row)) ∧
      ∃ info modified, s.accountGet a = some info ∧
        headerOf s (a, row) = (a, { info with modified := modified }) := by
  obtain ⟨modified, hrow'⟩ := hrows a
  rw [hrow] at hrow'
  obtain ⟨info, hi, rfl⟩ := Option.map_eq_some_iff.mp hrow'.symm
  obtain ⟨e, hd⟩ := hv.refines.accounts.sound hi
  have hheader : headerOf s (a, info.toV5 info.repBlock modified) =
      (a, { info with modified := modified }) := by
    simp only [headerOf, toV5, hi, Option.getD_some]
  refine ⟨?_, info, modified, hi, hheader⟩
  rw [hheader]
  simp only [header, toV5, OldAccountInfo.asV5, ok_bind, hr.countBlocks hd.head, ← hd.count]
  rfl

/-- **Version 6.** The rows get their block counts. -/
theorem upgradeV5ToV6_ok (hv : Valid U s Λ) (hr : Readable f.store Λ)
    (hcurrent : f.store.accounts = ∅) :
    ∃ t, f.upgradeV5ToV6 = .ok
        { f with version := 6, oldAccounts := ∅, store := { f.store with accounts := t } } ∧
      ∀ a, ∃ modified, t.lookup a =
        (s.accountGet a).map fun info => { info with modified := modified } := by
  set rows := f.oldAccounts.rows (· ≤ ·) with hdef
  have hmem : ∀ {a row}, (a, row) ∈ rows ↔ f.oldAccounts.lookup a = some row := mem_rows
  have hkeys : (rows.map (headerOf s)).map Prod.fst = rows.map Prod.fst := by
    rw [List.map_map]
    refine List.map_congr_left fun row hrow => ?_
    obtain ⟨_, info, modified, _, hheader⟩ := header_eq hrows hv hr (hmem.mp hrow)
    exact congrArg Prod.fst hheader
  have hnodup : ((rows.map (headerOf s)).map Prod.fst).Nodup := by
    rw [hkeys, List.Nodup, List.pairwise_map]
    exact (pairwise_rows (r := (· ≤ ·)) f.oldAccounts).imp fun hne => hne.2
  have hold : f.oldAccounts.eraseAll (rows.map Prod.fst) = ∅ := by
    refine Finmap.ext_lookup fun a => ?_
    rw [lookup_eraseAll, Finmap.lookup_empty]
    split
    · rfl
    · rename_i ha
      by_contra hsome
      obtain ⟨row, hrow⟩ := Option.ne_none_iff_exists'.mp hsome
      exact ha (List.mem_map.mpr ⟨_, hmem.mpr hrow, rfl⟩)
  refine ⟨(∅ : Table Account AccountInfo).putAll (rows.map (headerOf s)), ?_, fun a => ?_⟩
  · have hheaders : rows.mapM (header f.store) = .ok (rows.map (headerOf s)) :=
      mapM_eq_ok fun row hrow => (header_eq hrows hv hr (hmem.mp hrow)).1
    unfold upgradeV5ToV6 latestRows
    rw [hcurrent]
    refine (congrArg (· >>= fun headers => Except.ok (headers.foldl
      (fun f header => f.accountPut header.1 header.2) { f with version := 6 })) hheaders).trans ?_
    rw [ok_bind, foldl_accountPut, hkeys, hold, hcurrent]
  · cases hrow : f.oldAccounts.lookup a with
    | none =>
      obtain ⟨modified, hrow'⟩ := hrows a
      rw [hrow] at hrow'
      rw [lookup_putAll_of_notMem, Option.map_eq_none_iff.mp hrow'.symm]
      · exact ⟨0, rfl⟩
      · rw [hkeys]
        rintro ha
        obtain ⟨⟨a', row⟩, hrow'', rfl⟩ := List.mem_map.mp ha
        cases hrow.symm.trans (hmem.mp hrow'')
    | some row =>
      obtain ⟨_, info, modified, hi, hheader⟩ := header_eq hrows hv hr hrow
      refine ⟨modified, ?_⟩
      rw [hi, lookup_putAll_of_mem hnodup]
      · rfl
      · exact List.mem_map.mpr ⟨_, hmem.mpr hrow, hheader⟩

end

end StoreFile

end RaiBlocks
