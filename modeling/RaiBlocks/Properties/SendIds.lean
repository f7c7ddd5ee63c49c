import RaiBlocks.Foundation.Machine
import RaiBlocks.Spec.Validity
import RaiBlocks.Wallet.Blocks

/-!
# Send ids

A caller of `send_action` may give an id, to be able to repeat the call. The table
`send_action_ids` keeps the hash of the last block made for each id, and a call whose
block is in the ledger returns that block. If it is not there, because it was rolled
back, a new block is made and takes its place in the table. The old block may still
come back into the ledger; then the table no longer knows it.
-/

namespace RaiBlocks

open Foundation WalletStore Spending Ledger

/-- A node with its ledger and the table of ids. `made` is not stored anywhere: these
are the blocks made so far, each with the id of the call. -/
structure SendState where
  ledger : BlockStore
  ids : Table String BlockHash
  made : List (String × Block)

/-- The new block of a call, with its id. -/
def WalletStore.SendResult.produced (result : SendResult) (id : Option String) :
    Option (String × Block) :=
  if result.created then do return (← id, ← result.block) else none

namespace SendState

variable {id : Option String} {source destination : Account} {amount : Uint128} {s : BlockStore}
  {ids : Table String BlockHash} {i : String} {h : BlockHash} {b : Block} {now : ℕ}

/-- A call of `send_action` with any wallet, or a call of the ledger. -/
inductive Move (e : ActionEnv) (U : Set Block) : Type
  | send (w : WalletStore e.toWalletEnv) (source destination : Account) (amount : Uint128)
      (id : Option String)
  | ledger (call : Ledger.Call e.toEnv U)

variable {e : ActionEnv} {U : Set Block} {Λ : Lattice e.toEnv} {st st' : SendState}

def apply (st : SendState) : Move e U → Except Fault SendState
  | .send w source destination amount id => do
    let result ← w.sendAction st.ledger st.ids source destination amount id
    return { st with ids := result.ids, made := (result.produced id).toList ++ st.made }
  | .ledger call => return { st with ledger := ← call.apply st.ledger }

/-- At most one of the blocks made for an id is in the ledger, and while one is, every
call with the id returns it and makes none. -/
def PaysOnce (e : ActionEnv) (st : SendState) : Prop :=
  ∀ x ∈ st.made, ∀ c, st.ledger.blockGet (x.2.hash e.toEnv) = some c →
    (∀ y ∈ st.made, y.1 = x.1 → st.ledger.blockExists (y.2.hash e.toEnv) = true →
      y.2.hash e.toEnv = x.2.hash e.toEnv) ∧
    ∀ (w : WalletStore e.toWalletEnv) (source destination : Account) (amount : Uint128),
      w.sendAction st.ledger st.ids source destination amount (some x.1) =
        .ok ⟨some c, false, st.ids⟩

/-- A block that was made for an id enters the ledger only while the table has it. -/
def Current (st : SendState) : Move e U → Prop
  | .ledger (.process now b _) =>
    (process e.toEnv now st.ledger b).map (fun r => r.2.code) = .ok .progress →
    ∀ x ∈ st.made, x.2.hash e.toEnv = b.hash e.toEnv → st.ids.lookup x.1 = some (b.hash e.toEnv)
  | _ => True

instance decidableCurrent (st : SendState) (m : Move e U) : Decidable (Current st m) :=
  match m with
  | .send .. => .isTrue trivial
  | .ledger (.process _ _ _) => inferInstanceAs (Decidable (_ → _))
  | .ledger (.rollback _ _ _) => .isTrue trivial

/-! ## The table -/

/-- The table has the blocks that are in the ledger. -/
def Recorded (e : ActionEnv) (st : SendState) : Prop :=
  ∀ x ∈ st.made, st.ledger.blockExists (x.2.hash e.toEnv) = true →
    st.ids.lookup x.1 = some (x.2.hash e.toEnv)

theorem cachedBlock_eq (hi : ids.lookup i = some h) :
    cachedBlock s ids (some i) = s.blockGet h := by
  simp only [cachedBlock, hi, Option.bind_eq_bind, Option.bind_some]

theorem of_cachedBlock {c : Block} (hc : cachedBlock s ids (some i) = some c) :
    ∃ h, ids.lookup i = some h ∧ s.blockGet h = some c := by
  simpa [cachedBlock, Option.bind_eq_some_iff] using hc

/-- Every block was made for an id that can be written. -/
def Written (st : SendState) : Prop := ∀ x ∈ st.made, writableId (some x.1) = true

theorem readableId_of_writableId (h : writableId id = true) : readableId id = true := by
  cases id with
  | none => rfl
  | some id => exact (Bool.and_eq_true_iff.mp h).1

theorem paysOnce_iff_recorded (hr : Refines U st.ledger Λ) (hwritten : st.Written) :
    PaysOnce e st ↔ Recorded e st := by
  constructor
  · intro honce x hx hexists
    obtain ⟨c, hc⟩ := BlockStore.blockExists_iff.mp hexists
    have hid := readableId_of_writableId (hwritten x hx)
    have hcall := (honce x hx c hc).2 (.create _ ⟨.single 0, .single 0, 0, 0, 0, 0⟩) 0 0 0
    have hhash : ∀ {h}, st.ledger.blockGet h = some c → c.hash e.toEnv = h := by
      intro h hh
      rw [hr.blockGet_eq] at hh
      obtain ⟨q, hq, rfl⟩ := Lattice.of_blocks hh
      exact Λ.hash_eq hq
    cases hcached : cachedBlock st.ledger st.ids (some x.1) with
    | some c' =>
      rw [sendAction_cached hid hcached] at hcall
      obtain rfl : c' = c := Option.some.inj (congrArg SendResult.block
        (Except.ok.inj hcall))
      obtain ⟨h, hrow, hget⟩ := of_cachedBlock hcached
      rw [hrow, ← hhash hget, hhash hc]
    | none =>
      -- without a cached block the call returns none or a new one
      exfalso
      by_cases hmay : MaySend st.ledger
          (.create e.toWalletEnv ⟨.single 0, .single 0, 0, 0, 0, 0⟩) 0 0
      · rw [sendAction_new hid hcached hmay] at hcall
        obtain ⟨b, -, hcall⟩ := bind_eq_ok hcall
        rcases finishSend_cases (e := e) st.ids (some x.1) b with ⟨-, hfinish⟩ | hfinish
        · rw [hfinish] at hcall
          cases congrArg SendResult.created (Except.ok.inj hcall)
        · rw [hfinish] at hcall
          cases congrArg SendResult.block (Except.ok.inj hcall)
      · rw [sendAction_idle hcached hmay] at hcall
        cases congrArg SendResult.block (Except.ok.inj hcall)
  · intro hrec x hx c hc
    have hrow := hrec x hx (BlockStore.blockExists_iff.mpr ⟨c, hc⟩)
    refine ⟨fun y hy hid hexists => ?_, fun w source destination amount => ?_⟩
    · have hrow' := hrec y hy hexists
      rw [hid, hrow] at hrow'
      exact (Option.some.inj hrow').symm
    · exact sendAction_cached (readableId_of_writableId (hwritten x hx))
        ((cachedBlock_eq hrow).trans hc)

/-! ## Calls of `send_action` -/

/-- A call makes a block for an id whose block is not in the ledger, or leaves
everything as it is. -/
theorem apply_send {w : WalletStore e.toWalletEnv}
    (h : st.apply (.send w source destination amount id : Move e U) = .ok st') :
    st' = st ∨ ∃ i b, writableId (some i) = true ∧ cachedBlock st.ledger st.ids (some i) = none ∧
      w.sendBlock st.ledger source destination amount = .ok b ∧
      st' = { st with ids := st.ids.insert i (b.hash e.toEnv), made := (i, b) :: st.made } := by
  obtain ⟨result, hresult, h⟩ := bind_eq_ok h
  obtain rfl := Except.ok.inj h
  cases hid : readableId id with
  | false =>
    rw [sendAction_unreadable hid] at hresult
    obtain rfl := Except.ok.inj hresult
    exact Or.inl rfl
  | true =>
    cases hcached : cachedBlock st.ledger st.ids id with
    | some c =>
      rw [sendAction_cached hid hcached] at hresult
      obtain rfl := Except.ok.inj hresult
      exact Or.inl rfl
    | none =>
      by_cases hmay : MaySend st.ledger w source amount
      · rw [sendAction_new hid hcached hmay] at hresult
        obtain ⟨b, hb, hresult⟩ := bind_eq_ok hresult
        obtain rfl := Except.ok.inj hresult
        rcases finishSend_cases (e := e) st.ids id b with ⟨hwritable, hfinish⟩ | hfinish
        · rw [hfinish]
          cases id with
          | none => exact Or.inl rfl
          | some i => exact Or.inr ⟨i, b, hwritable, hcached, hb, rfl⟩
        · rw [hfinish]
          exact Or.inl rfl
      · rw [sendAction_idle hcached hmay] at hresult
        obtain rfl := Except.ok.inj hresult
        exact Or.inl rfl

theorem Written.apply (hwritten : st.Written) {m : Move e U} (h : st.apply m = .ok st') :
    st'.Written := by
  cases m with
  | send w source destination amount id =>
    rcases apply_send h with rfl | ⟨i, b, hwritable, -, -, rfl⟩
    · exact hwritten
    · intro x hx
      rcases List.mem_cons.mp hx with rfl | hx
      · exact hwritable
      · exact hwritten x hx
  | ledger call =>
    obtain ⟨s', -, h⟩ := bind_eq_ok h
    obtain rfl := Except.ok.inj h
    exact hwritten

theorem blockExists_sendBlock (hr : Refines U st.ledger Λ) (hass : HashAssumptions e.toEnv U)
    {w : WalletStore e.toWalletEnv}
    (hb : w.sendBlock st.ledger source destination amount = .ok b) (hU : b ∈ U) :
    st.ledger.blockExists (b.hash e.toEnv) = false := by
  obtain ⟨info, hi, hrest⟩ := bind_eq_ok hb
  obtain ⟨prv, hprv, -⟩ := bind_eq_ok hrest
  have hi := assertSome_eq_ok hi
  obtain ⟨rep, -, hblock⟩ :=
    sendBlock_eq hr hi (assertSome_eq_ok hprv) destination amount
  have hprevious : b.previous = info.head := by
    rw [← Except.ok.inj (hblock.symm.trans hb)]
    obtain ⟨work, hwork⟩ := ActionEnv.ensureWork_eq (e.stateBlock _ prv source _)
    rw [hwork]
    rfl
  obtain ⟨q, hd⟩ := hr.accounts.sound hi
  exact hr.blocks.blockExists_false (hr.fresh_of_isHead hass hU (hprevious ▸ hd.isHead))

theorem recorded_send (hr : Refines U st.ledger Λ) (hass : HashAssumptions e.toEnv U)
    {w : WalletStore e.toWalletEnv} (hrec : Recorded e st)
    (h : st.apply (.send w source destination amount id : Move e U) = .ok st')
    (hU : ∀ x ∈ st'.made, x.2 ∈ U) : Recorded e st' := by
  rcases apply_send h with rfl | ⟨i, b, -, hcached, hb, rfl⟩
  · exact hrec
  · intro x hx hexists
    rcases List.mem_cons.mp hx with rfl | hold
    · have hfresh := blockExists_sendBlock hr hass hb (hU _ hx)
      exact absurd (hfresh.symm.trans hexists) Bool.false_ne_true
    · have hrow := hrec x hold hexists
      by_cases hi : x.1 = i
      · -- an older block of the id would have been found
        obtain ⟨c, hc⟩ := BlockStore.blockExists_iff.mp hexists
        rw [← hi, cachedBlock_eq hrow] at hcached
        cases hcached.symm.trans hc
      · exact (Finmap.lookup_insert_of_ne _ hi).trans hrow

/-! ## Calls of the ledger -/

theorem recorded_rollback (hv : Valid U st.ledger Λ) (hass : HashAssumptions e.toEnv U)
    {hg : h ≠ e.toEnv.genesisHash} (hrec : Recorded e st)
    (hrun : st.apply (.ledger (.rollback now h hg) : Move e U) = .ok st') : Recorded e st' := by
  obtain ⟨s', hs', hrun⟩ := bind_eq_ok hrun
  obtain rfl := Except.ok.inj hrun
  obtain ⟨s₁, Λ', hroll, hv', htrim, -⟩ :=
    hv.rollback hass (blockExists_of_rollback hs') hg now
  obtain rfl := Except.ok.inj (hroll.symm.trans hs')
  intro x hx hexists
  rw [hv'.refines.blocks.blockExists] at hexists
  obtain ⟨q, hq⟩ := Option.isSome_iff_exists.mp hexists
  exact hrec x hx (hv.refines.blocks.blockExists_true (htrim.sub hq))

/-- A block that is added has to be known to the table. -/
theorem recorded_process_iff (hv : Valid U st.ledger Λ) (hass : HashAssumptions e.toEnv U)
    (hb : b ∈ U) (hrec : Recorded e st) :
    st.Current (.ledger (.process now b hb) : Move e U) ↔
      ∀ st', st.apply (.ledger (.process now b hb) : Move e U) = .ok st' → Recorded e st' := by
  obtain ⟨⟨s', ret⟩, hrun, hout⟩ := hv.process hass hb now
  have happly : st.apply (.ledger (.process now b hb) : Move e U) =
      .ok { st with ledger := s' } := by
    simp only [apply, Ledger.Call.apply, hrun, ok_bind]
    rfl
  have hnext : (∀ st', st.apply (.ledger (.process now b hb) : Move e U) = .ok st' →
      Recorded e st') ↔ Recorded e { st with ledger := s' } := by
    rw [happly]
    exact ⟨fun h => h _ rfl, fun h st' heq => Except.ok.inj heq ▸ h⟩
  have hcode : (process e.toEnv now st.ledger b).map (fun r => r.2.code) =
      .ok ret.code := by rw [hrun]; rfl
  rw [hnext]
  simp only [Current, hcode, Except.ok.injEq]
  cases hout with
  | refused hno => exact iff_of_true (fun heq => absurd heq hno) hrec
  | @accepted _ _ q ad hq hprogress _ _ hins =>
    have hr' := (hv.refines.insert hass ad (hq ▸ hb) hins).1
    have hexists : ∀ h, s'.blockExists h = true ↔
        h = b.hash e.toEnv ∨ st.ledger.blockExists h = true := by
      intro h
      rw [hr'.blocks.blockExists, hv.refines.blocks.blockExists, Lattice.insert_entry]
      by_cases hh : h = b.hash e.toEnv <;> simp [hh]
    constructor
    · intro hcurrent x hx hex
      rcases (hexists _).mp hex with hnew | hold
      · exact hnew ▸ hcurrent hprogress x hx hnew
      · exact hrec x hx hold
    · intro hrec' _ x hx hnew
      exact hnew ▸ hrec' x hx ((hexists _).mpr (Or.inl hnew))

end SendState

/-- **When a send id pays once.** In every run of `send_action` calls, with any wallets
and arguments, that are mixed with calls of `ledger::process` and `ledger::rollback`:
at every point at most one of the blocks made for an id is in the ledger, and while
one is, calls with the id return it; if and only if every block that was made for an
id enters the ledger only while the table has it under the id. -/
theorem send_id_pays_once_iff {e : ActionEnv} {U : Set Block} (hass : HashAssumptions e.toEnv U)
    {s : BlockStore} (hs : Reachable e.toEnv U s) (ids : Table String BlockHash)
    (moves : List (SendState.Move e U))
    (hmade : Machine.Always SendState.apply (fun t => ∀ x ∈ t.made, x.2 ∈ U) ⟨s, ids, []⟩ moves) :
    Machine.Always SendState.apply (SendState.PaysOnce e) ⟨s, ids, []⟩ moves ↔
      Machine.Guarded SendState.apply SendState.Current ⟨s, ids, []⟩ moves := by
  have hreach : Machine.Always SendState.apply
      (fun t => Reachable e.toEnv U t.ledger ∧ t.Written) ⟨s, ids, []⟩ moves := by
    refine Machine.Always.of_step
      (I := fun t : SendState => Reachable e.toEnv U t.ledger ∧ t.Written)
      (fun t m t' ht hstep => ⟨?_, ht.2.apply hstep⟩) ⟨hs, fun x hx => by cases hx⟩ moves
    replace ht := ht.1
    cases m with
    | send w source destination amount id =>
      obtain ⟨result, -, hstep⟩ := bind_eq_ok hstep
      obtain rfl := Except.ok.inj hstep
      exact ht
    | ledger call =>
      obtain ⟨s', hcall, hstep⟩ := bind_eq_ok hstep
      obtain rfl := Except.ok.inj hstep
      exact ht.step (Ledger.Call.step hcall)
  refine Machine.always_iff_guarded_within ?_ (hreach.and hmade) (fun x hx => by cases hx)
  rintro t m ⟨⟨ht, hwritten⟩, -⟩ hnext honce
  obtain ⟨Λ, hv⟩ := Reachable.valid hass t.ledger ht
  have hrec := (SendState.paysOnce_iff_recorded hv.refines hwritten).mp honce
  have hiff : (∀ t', t.apply m = .ok t' → SendState.PaysOnce e t') ↔
      ∀ t', t.apply m = .ok t' → SendState.Recorded e t' := by
    refine forall₂_congr fun t' ht' => ?_
    obtain ⟨Λ', hv'⟩ := Reachable.valid hass t'.ledger (hnext t' ht').1.1
    exact SendState.paysOnce_iff_recorded hv'.refines (hnext t' ht').1.2
  rw [hiff]
  cases m with
  | send w source destination amount id =>
    exact iff_of_true trivial fun t' ht' =>
      SendState.recorded_send hv.refines hass hrec ht' (hnext t' ht').2
  | ledger call =>
    cases call with
    | process now b hb => exact SendState.recorded_process_iff hv hass hb hrec
    | rollback now h hg =>
      exact iff_of_true trivial fun t' ht' => SendState.recorded_rollback hv hass hrec ht'

namespace Paying

def first : Block := spend Sample.genesisHash (genesisAmount - 1)

/-- It has the same predecessor. -/
def second : Block := spend Sample.genesisHash (genesisAmount - 2)

/-- It stands on the first. -/
def third : Block := spend (first.hash env.toEnv) (genesisAmount - 3)

theorem first_mem : first ∈ all := .tail _ (.head _)

theorem second_mem : second ∈ all := .tail _ (.tail _ (.head _))

theorem third_mem : third ∈ all := .tail _ (.tail _ (.tail _ (.head _)))

def start : SendState := ⟨ledger, ∅, []⟩

/-- A call with the id x. -/
def pay (amount : Uint128) : SendState.Move env blocks :=
  .send keyed account 9 amount (some "x")

def process (b : Block) (hb : b ∈ all) : SendState.Move env blocks :=
  .ledger (.process 0 b hb)

def rollback (b : Block) (hb : b.hash env.toEnv ≠ env.toEnv.genesisHash) :
    SendState.Move env blocks :=
  .ledger (.rollback 0 (b.hash env.toEnv) hb)

/-- The first send is rolled back, and the call is made again with another amount. -/
def retried : List (SendState.Move env blocks) :=
  [pay 1, process first first_mem, rollback first (by decide +kernel), pay 2,
    process second second_mem]

/-- Then the first send comes back in place of the second. -/
def resurrected : List (SendState.Move env blocks) :=
  [rollback second (by decide +kernel), process first first_mem]

end Paying

/-- While the first send is in the ledger, a call with its id makes a new one, and both
get into the ledger. Every new block is processed right after the call. -/
theorem send_id_pays_twice :
    (Machine.run SendState.apply Paying.start (Paying.retried ++ Paying.resurrected)).map
      (fun t => (t.ledger.blockExists (Paying.first.hash env.toEnv), t.made)) =
        .ok (true, [("x", Paying.second), ("x", Paying.first)]) ∧
    (Machine.run SendState.apply Paying.start (Paying.retried ++ Paying.resurrected ++
      [Paying.pay 2, Paying.process Paying.third Paying.third_mem])).map
      (fun t => ([Paying.first, Paying.third].map fun b =>
        t.ledger.blockExists (b.hash env.toEnv), t.made)) =
        .ok ([true, true], [("x", Paying.third), ("x", Paying.second), ("x", Paying.first)]) ∧
    Paying.first.hash env.toEnv ≠ Paying.third.hash env.toEnv := by
  decide +kernel

/-- As long as the first send does not come back, the id pays once. -/
theorem send_id_pays_once_iff_retried :
    Machine.Always SendState.apply (SendState.PaysOnce env) Paying.start
      Paying.retried := by
  have hmade : Machine.Always SendState.apply (fun t => ∀ x ∈ t.made, x.2 ∈ all)
      Paying.start Paying.retried := by decide +kernel
  have hcurrent : Machine.Guarded SendState.apply SendState.Current Paying.start
      Paying.retried := by decide +kernel
  exact (send_id_pays_once_iff assumptions ledger_reachable ∅ Paying.retried
    hmade).mpr hcurrent

end RaiBlocks
