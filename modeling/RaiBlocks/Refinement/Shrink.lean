import RaiBlocks.Refinement.Growth

/-!
# Removing an entry, table by table

The counterpart of `Growth`: what has to happen to each table when the head of
a chain is rolled back, and that the store then refines the smaller lattice.
The weights are left out of `Removed`, since rolling back a state block moves
them long before the block goes; `weight_erase` says by how much they have to
move.
-/

namespace RaiBlocks

open Foundation RaiBlocks.Lattice Table

variable {p : Env} {U : Set Block} {Λ : Lattice p} {h x : BlockHash} {e : Entry}

/-! ## The tables after a removal

The argument `below` is the entry of the predecessor, if there is one. -/

def accountsErase (now : ℕ) (t : Table Account AccountInfo) (e : Entry) (below : Option Entry) :
    Table Account AccountInfo :=
  match below with
  | some q => t.insert e.owner (accountRow now t e.block.previous q)
  | none => t.erase e.owner

def frontiersErase (t : Table BlockHash Account) (h : BlockHash) (e : Entry)
    (below : Option Entry) : Table BlockHash Account :=
  match below with
  | some q => if q.block.isLegacy then (t.erase h).insert e.block.previous e.owner else t.erase h
  | none => t.erase h

def pendingErase (Λ : Lattice p) (t : Table PendingKey PendingInfo) (h : BlockHash) (e : Entry) :
    Table PendingKey PendingInfo :=
  match e.sendsTo with
  | some d => t.erase ⟨d, h⟩
  | none =>
    match e.receives p with
    | some x => (Λ.entry x).elim t fun src => t.insert ⟨e.owner, x⟩ src.pendingInfo
    | none => t

/-- `change_latest` writes the row of the predecessor again. -/
def blocksInfoBelow (t : Table BlockHash BlockInfo) (e : Entry) (below : Option Entry) :
    Table BlockHash BlockInfo :=
  match below with
  | some q => if q.height % BlockStore.blockInfoMax = 0 then t.insert e.block.previous q.blockInfo
      else t
  | none => t

def blocksInfoErase (t : Table BlockHash BlockInfo) (h : BlockHash) (e : Entry)
    (below : Option Entry) : Table BlockHash BlockInfo :=
  if e.height % BlockStore.blockInfoMax = 0 ∧ e.block.isLegacy = true
  then (blocksInfoBelow t e below).erase h else blocksInfoBelow t e below

/-- The block values after a removal: the predecessor loses its successor. -/
def erasedStored (old : BlockHash → Option BlockEntry) (h previous x : BlockHash) :
    Option BlockEntry :=
  if x = h then none
  else if x = previous then (old x).map fun v => { v with successor := 0 }
  else old x

/-- What happens to the tables when the entry `e` at `h` is removed. -/
structure Removed (now : ℕ) (s s' : BlockStore) (Λ : Lattice p) (h : BlockHash) (e : Entry) :
    Prop where
  coherent : Database.Coherent s'.blockDatabase
  stored : ∀ x, Database.stored s'.blockDatabase x =
    erasedStored (Database.stored s.blockDatabase) h e.block.previous x
  accounts : s'.accounts = accountsErase now s.accounts e (Λ.entry e.block.previous)
  frontiers : s'.frontiers = frontiersErase s.frontiers h e (Λ.entry e.block.previous)
  pending : s'.pending = pendingErase Λ s.pending h e
  blocksInfo : s'.blocksInfo = blocksInfoErase s.blocksInfo h e (Λ.entry e.block.previous)
  checksum : ∃ c, s'.checksum.lookup 0 = some c

/-! ## Preservation, table by table -/

section Preservation

variable (rm : Λ.Removable h e) {q : Entry} {t : Table Account AccountInfo}

include rm

theorem Lattice.Removable.previous_ne : e.block.previous ≠ h := by
  intro hp
  rcases first_or_follows rm.stored with hf | ⟨q, hq, hfol⟩
  · exact Λ.ne_zero rm.stored (hp.symm.trans hf.previous)
  · rw [hp, rm.stored] at hq
    obtain rfl := Option.some.inj hq
    exact lt_irrefl _ hfol.rank

theorem Lattice.Removable.stored_previous : (Λ.erase rm).entry e.block.previous =
    Λ.entry e.block.previous :=
  erase_entry_of_ne rm rm.previous_ne

theorem BlocksOk.erase {d d' : Database} (hb : BlocksOk d Λ) (hc : d'.Coherent)
    (hst : ∀ x, d'.stored x = erasedStored d.stored h e.block.previous x) :
    BlocksOk d' (Λ.erase rm) := by
  refine ⟨hc, fun x => ?_, ?_⟩
  · rw [hst, erasedStored, erase_entry]
    split
    · rfl
    · split
      · rw [← hb.block, Option.map_map]
        rfl
      · exact hb.block x
  · intro x v hv
    rw [hst, erasedStored] at hv
    split at hv
    · cases hv
    · split at hv
      · -- the predecessor is the head now
        rename_i hxp
        obtain ⟨v₀, hv₀, rfl⟩ := Option.map_eq_some_iff.mp hv
        obtain ⟨q, hq⟩ := hb.entry_some hv₀
        exact Or.inl ⟨(erase_isHead rm (Λ.ne_zero hq)).mpr (Or.inr hxp.symm), rfl⟩
      · rename_i hxp
        rcases hb.next hv with ⟨hhead, hy⟩ | ⟨e', he', hp⟩
        · obtain ⟨q, hq⟩ := hb.entry_some hv
          exact Or.inl ⟨(erase_isHead rm (Λ.ne_zero hq)).mpr (Or.inl hhead), hy⟩
        · refine Or.inr ⟨e', (erase_entry_some rm).mpr ⟨?_, he'⟩, hp⟩
          intro hy
          rw [hy, rm.stored] at he'
          obtain rfl := Option.some.inj he'
          exact hxp hp.symm

theorem Lattice.Describes.erase {a : Account} {info : AccountInfo} (hd : Λ.Describes a info q)
    (ha : a ≠ e.owner) : (Λ.erase rm).Describes a info q := by
  -- blocks of other accounts stay
  have keep : ∀ {y : BlockHash} {o : Entry}, Λ.entry y = some o → o.owner = a →
      (Λ.erase rm).entry y = some o := by
    intro y o hy ho
    refine (erase_entry_some rm).mpr ⟨?_, hy⟩
    rintro rfl
    obtain rfl := Option.some.inj (hy.symm.trans rm.stored)
    exact ha ho.symm
  obtain ⟨o, ho, hown, hprev⟩ := hd.opened
  exact ⟨keep hd.head hd.owner, hd.owner,
    (erase_isHead rm (Λ.ne_zero hd.head)).mpr (Or.inl hd.isHead), hd.rep, hd.balance,
    hd.count, o, keep ho hown, hown, hprev⟩

theorem AccountsOk.describes_below (ha : AccountsOk t Λ)
    (hq : Λ.entry e.block.previous = some q) (hfol : e.Follows q) (now : ℕ) :
    (Λ.erase rm).Describes e.owner (accountRow now t e.block.previous q) q where
  head := rm.stored_previous.trans hq
  owner := hfol.owner
  isHead := (erase_isHead rm (Λ.ne_zero hq)).mpr (Or.inr rfl)
  rep := rfl
  balance := toNat_ofNat_of_lt (Λ.sound hq).2.2
  count := rfl
  opened := by
    obtain ⟨info, hi⟩ := ha.complete rm.stored
    obtain ⟨_, hd⟩ := ha.sound hi
    obtain ⟨o, ho, hown, hprev⟩ := hd.opened
    unfold accountRow
    rw [hfol.owner, hi, Option.elim_some]
    refine ⟨o, (erase_entry_some rm).mpr ⟨?_, ho⟩, hown, hprev⟩
    intro heq
    rw [heq, rm.stored] at ho
    obtain rfl := Option.some.inj ho
    exact Λ.ne_zero hq hprev

theorem AccountsOk.erase (ha : AccountsOk t Λ) (now : ℕ) :
    AccountsOk (accountsErase now t e (Λ.entry e.block.previous)) (Λ.erase rm) := by
  rcases first_or_follows rm.stored with hf | ⟨q, hq, hfol⟩
  · rw [hf.previous, Λ.entry_zero]
    constructor
    · intro a info hl
      rw [accountsErase, lookup_erase_ite] at hl
      split at hl
      · cases hl
      · obtain ⟨q, hd⟩ := ha.sound hl
        exact ⟨q, hd.erase rm ‹_›⟩
    · intro y o hy
      obtain ⟨hne, hy⟩ := (erase_entry_some rm).mp hy
      rw [accountsErase, lookup_erase_ite, if_neg]
      · exact ha.complete hy
      · -- the first block was the only one of its account
        intro hown
        have hle := rm.head.height_le rm.stored hy hown
        have hpos := height_pos hy
        have hone := hf.height
        exact hne (height_inj _ o hy _ e rm.stored hown (by omega))
  · rw [hq]
    constructor
    · intro a info hl
      rw [accountsErase, lookup_insert_ite] at hl
      split at hl
      · rename_i hown
        obtain rfl := Option.some.inj hl
        rw [hown]
        exact ⟨q, ha.describes_below rm hq hfol now⟩
      · obtain ⟨q', hd⟩ := ha.sound hl
        exact ⟨q', hd.erase rm ‹_›⟩
    · intro y o hy
      rw [accountsErase, lookup_insert_ite]
      split
      · exact ⟨_, rfl⟩
      · exact ha.complete ((erase_entry_some rm).mp hy).2

theorem FrontiersOk.erase {t : Table BlockHash Account} (hf : FrontiersOk t Λ) :
    FrontiersOk (frontiersErase t h e (Λ.entry e.block.previous)) (Λ.erase rm) := by
  intro x a
  have hlook : (frontiersErase t h e (Λ.entry e.block.previous)).lookup x = if x = h then none
      else if x = e.block.previous then
        (Λ.entry x).bind fun q => if q.block.isLegacy then some e.owner else none
      else t.lookup x := by
    have hp := rm.previous_ne
    unfold frontiersErase
    by_cases hx : x = h
    · rw [if_pos hx, hx]
      split
      · split
        · rw [lookup_insert_ite, if_neg hp.symm, lookup_erase_ite, if_pos rfl]
        · rw [lookup_erase_ite, if_pos rfl]
      · rw [lookup_erase_ite, if_pos rfl]
    · rw [if_neg hx]
      by_cases hxp : x = e.block.previous
      · rw [if_pos hxp, hxp]
        cases hq : Λ.entry e.block.previous with
        | none => exact (lookup_erase_ite _ _ _).trans ((if_neg hp).trans (hf.lookup_none hq))
        | some q =>
          dsimp only [Option.bind_some]
          by_cases hl : q.block.isLegacy = true
          · rw [if_pos hl, if_pos hl, lookup_insert_ite, if_pos rfl]
          · rw [if_neg hl, if_neg hl, lookup_erase_ite, if_neg hp]
            cases hrow : t.lookup e.block.previous with
            | none => rfl
            | some a' =>
              obtain ⟨q', hq', _, _, hl'⟩ := (hf _ _).mp hrow
              obtain rfl := Option.some.inj (hq.symm.trans hq')
              exact absurd hl' hl
      · rw [if_neg hxp]
        split
        · split
          · rw [lookup_insert_ite, if_neg hxp, lookup_erase_ite, if_neg hx]
          · rw [lookup_erase_ite, if_neg hx]
        · rw [lookup_erase_ite, if_neg hx]
  rw [hlook]
  by_cases hx : x = h
  · rw [if_pos hx, hx, erase_entry_self]
    refine iff_of_false (by simp) ?_
    rintro ⟨_, he', _⟩
    cases he'
  rw [if_neg hx, erase_entry_of_ne rm hx]
  by_cases hxp : x = e.block.previous
  · rw [if_pos hxp]
    constructor
    · intro hb
      obtain ⟨q, hq, hl⟩ := Option.bind_eq_some_iff.mp hb
      split at hl
      · rename_i hlegacy
        obtain rfl := Option.some.inj hl
        obtain ⟨q', hq', hfol⟩ := follows_of_previous_ne rm.stored (hxp ▸ Λ.ne_zero hq)
        obtain rfl := Option.some.inj (hq.symm.trans (hxp ▸ hq'))
        exact ⟨q, hq, hfol.owner, (erase_isHead rm (Λ.ne_zero hq)).mpr (Or.inr hxp.symm), hlegacy⟩
      · cases hl
    · rintro ⟨q, hq, hown, _, hl⟩
      obtain ⟨q', hq', hfol⟩ := follows_of_previous_ne rm.stored (hxp ▸ Λ.ne_zero hq)
      obtain rfl := Option.some.inj (hq.symm.trans (hxp ▸ hq'))
      rw [hq, Option.bind_some, if_pos hl, ← hown, hfol.owner]
  · rw [if_neg hxp, hf]
    constructor
    · rintro ⟨q, hq, hown, hhead, hl⟩
      exact ⟨q, hq, hown, (erase_isHead rm (Λ.ne_zero hq)).mpr (Or.inl hhead), hl⟩
    · rintro ⟨q, hq, hown, hhead, hl⟩
      refine ⟨q, hq, hown, ?_, hl⟩
      exact ((erase_isHead rm (Λ.ne_zero hq)).mp hhead).resolve_right fun h => hxp h.symm

theorem Lattice.Removable.moves : e.Moves p Λ.entry :=
  (Λ.justified rm.stored).moves rm.ne_genesis

omit rm in
theorem pendingErase_sends {d : Account} (hs : e.sendsTo = some d)
    (t : Table PendingKey PendingInfo) : pendingErase Λ t h e = t.erase ⟨d, h⟩ := by
  unfold pendingErase
  rw [hs]

omit rm in
theorem pendingErase_receives {src : Entry} (hr : e.receives p = some x)
    (hs : Λ.entry x = some src) (t : Table PendingKey PendingInfo) :
    pendingErase Λ t h e = t.insert ⟨e.owner, x⟩ src.pendingInfo := by
  unfold pendingErase
  rw [Entry.sendsTo_of_receives hr, hr]
  dsimp only
  rw [hs]
  rfl

omit rm in
theorem pendingErase_keeps (hs : e.sendsTo = none) (hr : e.receives p = none)
    (t : Table PendingKey PendingInfo) : pendingErase Λ t h e = t := by
  unfold pendingErase
  rw [hs, hr]

theorem PendingOk.lookup_received {t : Table PendingKey PendingInfo} (hp : PendingOk t Λ)
    (hr : e.receives p = some x) (d : Account) : t.lookup ⟨d, x⟩ = none := by
  cases hl : t.lookup ⟨d, x⟩ with
  | none => rfl
  | some i =>
    obtain ⟨_, _, _, hun, _⟩ := (hp d x i).mp hl
    exact absurd ⟨h, e, rm.stored, hr⟩ hun

theorem PendingOk.erase {t : Table PendingKey PendingInfo} (hp : PendingOk t Λ) :
    PendingOk (pendingErase Λ t h e) (Λ.erase rm) := by
  intro d x i
  -- the removed block has no row any more
  have hself : ¬ ∃ e', (Λ.erase rm).entry h = some e' ∧ e'.sendsTo = some d ∧
      ¬ (Λ.erase rm).Received h ∧ i = e'.pendingInfo := by
    rw [erase_entry_self]
    rintro ⟨e', he', _⟩
    cases he'
  -- the other blocks have theirs, and the source of the removed block gets it back
  have hother : x ≠ h → ((∃ e', (Λ.erase rm).entry x = some e' ∧ e'.sendsTo = some d ∧
      ¬ (Λ.erase rm).Received x ∧ i = e'.pendingInfo) ↔
      t.lookup ⟨d, x⟩ = some i ∨ e.receives p = some x ∧
        ∃ e', Λ.entry x = some e' ∧ e'.sendsTo = some d ∧ i = e'.pendingInfo) := by
    intro hx
    rw [erase_entry_of_ne rm hx, erase_received, hp]
    constructor
    · rintro ⟨e', he', hd, hr, hi⟩
      by_cases hrec : e.receives p = some x
      · exact Or.inr ⟨hrec, e', he', hd, hi⟩
      · exact Or.inl ⟨e', he', hd, fun h => hr ⟨h, hrec⟩, hi⟩
    · rintro (⟨e', he', hd, hr, hi⟩ | ⟨hrec, e', he', hd, hi⟩)
      · exact ⟨e', he', hd, fun h => hr h.1, hi⟩
      · exact ⟨e', he', hd, fun h => h.2 hrec, hi⟩
  cases rm.moves with
  | @sends d' hsend hrec hbal =>
    rw [pendingErase_sends hsend, lookup_erase_ite]
    by_cases hx : x = h
    · subst hx
      refine iff_of_false ?_ hself
      split
      · intro hn
        cases hn
      · rename_i hk
        intro hl
        obtain ⟨e', he', hd, _⟩ := (hp d x i).mp hl
        obtain rfl := Option.some.inj (rm.stored.symm.trans he')
        exact hk (by rw [Option.some.inj (hd.symm.trans hsend)])
    · rw [hother hx, hrec, if_neg (fun hk => hx (congrArg PendingKey.hash hk))]
      simp
  | @takes y src hsend hrec hs ht =>
    have hyh : y ≠ h := by
      rintro rfl
      obtain rfl := Option.some.inj (rm.stored.symm.trans hs)
      exact lt_irrefl _ ht.rank
    rw [pendingErase_receives hrec hs, lookup_insert_ite]
    by_cases hx : x = h
    · subst hx
      refine iff_of_false ?_ hself
      rw [if_neg (fun hk => hyh (congrArg PendingKey.hash hk).symm)]
      intro hl
      obtain ⟨e', he', hd, _⟩ := (hp d x i).mp hl
      obtain rfl := Option.some.inj (rm.stored.symm.trans he')
      cases hsend.symm.trans hd
    · rw [hother hx, hrec]
      split
      · rename_i hk
        obtain ⟨rfl, rfl⟩ := PendingKey.mk.inj hk
        rw [hp.lookup_received rm hrec]
        constructor
        · intro hi
          exact Or.inr ⟨rfl, src, hs, ht.dest, (Option.some.inj hi).symm⟩
        · rintro (hn | ⟨_, e', he', _, rfl⟩)
          · cases hn
          · rw [Option.some.inj (hs.symm.trans he')]
      · rename_i hk
        refine (or_iff_left ?_).symm
        rintro ⟨hxy, e', he', hd, _⟩
        obtain rfl := Option.some.inj hxy
        obtain rfl := Option.some.inj (he'.symm.trans hs)
        exact hk (by rw [Option.some.inj (hd.symm.trans ht.dest)])
  | keeps hsend hrec hbal =>
    rw [pendingErase_keeps hsend hrec]
    by_cases hx : x = h
    · subst hx
      refine iff_of_false (fun hl => ?_) hself
      obtain ⟨e', he', hd, _⟩ := (hp d x i).mp hl
      obtain rfl := Option.some.inj (rm.stored.symm.trans he')
      cases hsend.symm.trans hd
    · rw [hother hx, hrec]
      simp

theorem BlocksInfoOk.erase {t : Table BlockHash BlockInfo} (hi : BlocksInfoOk U t Λ)
    (hknown : ∀ {x q}, Λ.entry x = some q → q.block ∈ U) :
    BlocksInfoOk U (blocksInfoErase t h e (Λ.entry e.block.previous)) (Λ.erase rm) := by
  -- a stored block has a row of the right kind, or none
  have hkind : ∀ {x : BlockHash} {q : Entry}, Λ.entry x = some q →
      (∃ e, Λ.entry x = some e ∧ e.block.isLegacy = true) ∨
        ∃ b ∈ U, b.isLegacy = false ∧ b.hash p = x := by
    intro x q hq
    cases hl : q.block.isLegacy with
    | true => exact Or.inl ⟨q, hq, hl⟩
    | false => exact Or.inr ⟨q.block, hknown hq, hl, Λ.hash_eq hq⟩
  -- writing the row of the predecessor again keeps the table right
  have hbelow : BlocksInfoOk U (blocksInfoBelow t e (Λ.entry e.block.previous)) Λ := by
    unfold blocksInfoBelow
    cases hq : Λ.entry e.block.previous with
    | none => exact hi
    | some q =>
      dsimp only
      split
      · rename_i hmod
        constructor
        · intro x ex hx hl
          rw [lookup_insert_ite]
          split
          · rename_i hxp
            rw [hxp] at hx
            obtain rfl := Option.some.inj (hq.symm.trans hx)
            rw [if_pos hmod]
          · exact hi.legacy hx hl
        · intro x i hrow
          rw [lookup_insert_ite] at hrow
          split at hrow
          · rename_i hxp
            rw [hxp]
            exact hkind hq
          · exact hi.other hrow
      · exact hi
  have hlook : ∀ x, x ≠ h → (blocksInfoErase t h e (Λ.entry e.block.previous)).lookup x =
      (blocksInfoBelow t e (Λ.entry e.block.previous)).lookup x := by
    intro x hx
    unfold blocksInfoErase
    split
    · rw [lookup_erase_ite, if_neg hx]
    · rfl
  constructor
  · intro x ex hx hl
    obtain ⟨hne, hx⟩ := (erase_entry_some rm).mp hx
    rw [hlook x hne]
    exact hbelow.legacy hx hl
  · intro x i hrow
    by_cases hx : x = h
    · subst hx
      -- a row left under the removed hash can only be that of a state block
      refine Or.inr ((hkind rm.stored).resolve_left ?_)
      rintro ⟨e', he', hl⟩
      obtain rfl := Option.some.inj (rm.stored.symm.trans he')
      have hrule := hbelow.legacy rm.stored hl
      unfold blocksInfoErase at hrow
      split at hrow
      · rw [lookup_erase_ite, if_pos rfl] at hrow
        cases hrow
      · rename_i hmod
        rw [hrule, if_neg (fun hm => hmod ⟨hm, hl⟩)] at hrow
        cases hrow
    · rw [hlook x hx] at hrow
      rcases hbelow.other hrow with ⟨e', he', hl⟩ | hstate
      · exact Or.inl ⟨e', (erase_entry_some rm).mpr ⟨hx, he'⟩, hl⟩
      · exact Or.inr hstate

/-! ## Supply and weights -/

theorem AccountsOk.sum_erase (ha : AccountsOk t Λ) (now : ℕ) :
    e.balance + totalBalance (accountsErase now t e (Λ.entry e.block.previous)) =
      e.prior + totalBalance t := by
  obtain ⟨info, hi, _, hd⟩ := ha.of_head rm.stored rm.head
  rcases first_or_follows rm.stored with hf | ⟨q, hq, hfol⟩
  · rw [hf.previous, Λ.entry_zero, hf.prior, Nat.zero_add, ← hd.balance]
    exact sum_erase_of_lookup_some hi fun _ info => info.balance.toNat
  · rw [hq, hfol.prior, ← hd.balance, ← (ha.describes_below rm hq hfol now).balance]
    exact sum_insert_of_lookup_some hi _ fun _ info => info.balance.toNat

theorem supply_erase {s : BlockStore} (ha : AccountsOk s.accounts Λ)
    (hp : PendingOk s.pending Λ) (now : ℕ) :
    totalBalance (accountsErase now s.accounts e (Λ.entry e.block.previous)) +
      totalPending (pendingErase Λ s.pending h e) = s.supply := by
  have hacc := ha.sum_erase rm now
  unfold BlockStore.supply
  cases rm.moves with
  | @sends d hsend hrec hbal =>
    have hrow : s.pending.lookup ⟨d, h⟩ = some e.pendingInfo :=
      (hp d h _).mpr ⟨e, rm.stored, hsend, rm.unreceived, rfl⟩
    have hpend : e.pendingInfo.amount.toNat + totalPending (s.pending.erase ⟨d, h⟩) =
        totalPending s.pending :=
      sum_erase_of_lookup_some hrow fun _ info => info.amount.toNat
    rw [toNat_pendingInfo rm.stored] at hpend
    rw [pendingErase_sends hsend]
    omega
  | @takes y src hsend hrec hs ht =>
    have hpend : totalPending (s.pending.insert ⟨e.owner, y⟩ src.pendingInfo) =
        src.pendingInfo.amount.toNat + totalPending s.pending :=
      sum_insert_of_lookup_none (hp.lookup_received rm hrec e.owner) _ _
    rw [toNat_pendingInfo hs] at hpend
    rw [pendingErase_receives hrec hs]
    have := ht.balance
    omega
  | keeps hsend hrec hbal =>
    rw [pendingErase_keeps hsend hrec]
    omega

omit rm in
/-- The share of an account in the weight of `r` while `e` is its head. -/
def entryWeight (Λ : Lattice p) (r : Account) (e : Entry) : ℕ :=
  if Λ.repAccount e.rep = some r then e.balance else 0

omit rm in
theorem Lattice.Describes.rowWeight_eq {a : Account} {info : AccountInfo}
    (hd : Λ.Describes a info e) (r : Account) : rowWeight Λ r info = entryWeight Λ r e := by
  unfold rowWeight entryWeight
  rw [hd.rep, hd.balance]

theorem Lattice.repAccount_erase (hq : (Λ.erase rm).entry x = some q) :
    (Λ.erase rm).repAccount x = Λ.repAccount x := by
  unfold repAccount
  rw [hq, ((erase_entry_some rm).mp hq).2]

/-- The weights give up the share of the removed head and take up that of the
new one. -/
theorem weight_erase (ha : AccountsOk t Λ) (now : ℕ) (r : Account) :
    entryWeight Λ r e + weight (accountsErase now t e (Λ.entry e.block.previous)) (Λ.erase rm) r =
      (Λ.entry e.block.previous).elim 0 (entryWeight Λ r) + weight t Λ r := by
  obtain ⟨info, hi, _, hd⟩ := ha.of_head rm.stored rm.head
  -- the shares of the other accounts do not change
  have hrest : sum (t.erase e.owner) (fun _ info => rowWeight Λ r info) =
      sum (t.erase e.owner) fun _ info => rowWeight (Λ.erase rm) r info := by
    refine sum_congr fun a info' hl => ?_
    rw [lookup_erase_ite] at hl
    split at hl
    · cases hl
    · obtain ⟨q', hd'⟩ := ha.sound hl
      obtain ⟨b, hb, _⟩ := (hd'.erase rm ‹_›).rep_stored
      unfold rowWeight
      rw [repAccount_erase rm hb]
  have hold : entryWeight Λ r e +
      sum (t.erase e.owner) (fun _ info => rowWeight (Λ.erase rm) r info) =
      weight t Λ r := by
    rw [← hrest, ← hd.rowWeight_eq]
    exact sum_erase_of_lookup_some hi fun _ info => rowWeight Λ r info
  rcases first_or_follows rm.stored with hf | ⟨q, hq, hfol⟩
  · rw [hf.previous, Λ.entry_zero, Option.elim_none, Nat.zero_add]
    exact hold
  · have hnew := ha.describes_below rm hq hfol now
    have hrep : entryWeight (Λ.erase rm) r q = entryWeight Λ r q := by
      obtain ⟨b, hb, _⟩ := rep_entry _ q hnew.head
      unfold entryWeight
      rw [repAccount_erase rm hb]
    have hsum : weight (accountsErase now t e (some q)) (Λ.erase rm) r = entryWeight Λ r q +
        sum (t.erase e.owner) (fun _ info => rowWeight (Λ.erase rm) r info) := by
      rw [← hrep, ← hnew.rowWeight_eq]
      exact sum_insert_eq _ _ _ _
    rw [hq, hsum, Option.elim_some]
    omega

end Preservation

/-- **Shrinking.** A store whose tables have given up the entry refines the
smaller lattice, with the same supply; its weights differ by the shares of the
two heads. -/
theorem Refines.erase {now : ℕ} {s s' : BlockStore} (hr : Refines U s Λ)
    (rm : Λ.Removable h e) (hrem : Removed now s s' Λ h e) :
    Refines U s' (Λ.erase rm) ∧ s'.supply = s.supply ∧
      ∀ r, entryWeight Λ r e + weight s'.accounts (Λ.erase rm) r =
        (Λ.entry e.block.previous).elim 0 (entryWeight Λ r) + weight s.accounts Λ r := by
  refine ⟨⟨hr.blocks.erase rm hrem.coherent hrem.stored, ?_, ?_, ?_, ?_, hrem.checksum, ?_⟩, ?_, ?_⟩
  · rw [hrem.accounts]
    exact hr.accounts.erase rm now
  · rw [hrem.frontiers]
    exact hr.frontiers.erase rm
  · rw [hrem.pending]
    exact hr.pending.erase rm
  · rw [hrem.blocksInfo]
    exact hr.blocksInfo.erase rm hr.known
  · intro x ex hx
    exact hr.known ((erase_entry_some rm).mp hx).2
  · rw [← supply_erase rm hr.accounts hr.pending now, BlockStore.supply, hrem.accounts,
      hrem.pending]
  · intro r
    rw [hrem.accounts]
    exact weight_erase rm hr.accounts now r

end RaiBlocks
