import RaiBlocks.Foundation.Thread
import RaiBlocks.Wallet.Entries

/-!
# Writers of the wallet's table among other threads

`insert_adhoc`, `seed_set` and `deterministic_insert` (`rai/node/wallet.cpp`) in the
pieces that other threads can come between. `valid_password` and `wallet_key` each take
the mutex of the store and release it, so each is a piece. What is read from and written
to the table in between belongs to the transaction of the caller.

Without interruption the pieces make up the functions of `WalletStore`.
-/

namespace RaiBlocks

open Foundation Thread

/-- The table and, beside it, what was put into it: the private keys by account, the
last one first, and the last seed. No function reads the last two. -/
structure Session (e : WalletEnv) where
  store : WalletStore e
  inserted : List (Uint256 × Uint256) := []
  seed : Option Uint256 := none

/-- What a piece of a writer does. -/
inductive Access
  | adhocKey (prv : Uint256)
  | seedKey
  | seedPut
  | deterministicKey
  | other

abbrev Writer (e : WalletEnv) (α : Type) : Type := Thread Access (Session e) Fault α

namespace Writer

variable {e : WalletEnv}

/-- `assert (valid_password (transaction_a))` -/
def validPassword : Writer e Unit := .require .other .assertion fun s => s.store.validPassword

def insertAdhoc (prv : Uint256) : Writer e Uint256 := do
  validPassword
  let pub := e.publicKey prv
  let key ← .look (.adhocKey prv) fun s => s.store.walletKey
  .change .other (fun s =>
    { s with
      store := s.store.encryptPut pub ⟨key, oword s.store.salt, prv⟩
      inserted := (pub, prv) :: s.inserted }) pub

def seedSet (prv : Uint256) : Writer e Unit := do
  let key ← .look .seedKey fun s => s.store.walletKey
  .change .seedPut (fun s =>
    { s with
      store := (s.store.encryptPut seedSpecial ⟨key, oword s.store.salt, prv⟩).deterministicClear
      seed := some prv }) ()

/-- `wallet_store::deterministic_key` -/
def deterministicPrv (index : BitVec 32) : Writer e Uint256 := do
  validPassword
  .look .deterministicKey fun s => deterministicKey e.toEnv s.store.seed index

/-- The entry and the next index. -/
def putDeterministic (index : BitVec 32) (prv : Uint256) (s : Session e) : Session e :=
  { s with
    store := s.store.putMarker (e.publicKey prv) index
    inserted := (e.publicKey prv, prv) :: s.inserted }

/-- The loop of `deterministic_insert` and what follows it. -/
def insertFrom : ℕ → BitVec 32 → Uint256 → Writer e Uint256
  | 0, index, prv =>
    .piece .other (fun s =>
      if s.store.exists' (e.publicKey prv) then .error .outOfFuel
      else .ok (putDeterministic index prv s)) fun _ => .ret (e.publicKey prv)
  | n + 1, index, prv =>
    .piece .other (fun s =>
      if s.store.exists' (e.publicKey prv) then .ok s
      else .ok (putDeterministic index prv s)) fun s =>
        if s.store.exists' (e.publicKey prv) then
          deterministicPrv (index + 1) >>= insertFrom n (index + 1)
        else .ret (e.publicKey prv)

def deterministicInsert : Writer e Uint256 := do
  let index ← .look .other fun s => s.store.deterministicIndexGet
  let prv ← deterministicPrv index
  insertFrom (2 ^ 32) index prv

/-! ## Without interruption -/

/-- Runs to the same result as the function `f` of the store. -/
def Computes {α : Type} (t : Writer e α)
    (f : WalletStore e → Except Fault (α × WalletStore e)) : Prop :=
  ∀ s, (t.alone s).map (fun r => (r.1, r.2.store)) = f s.store

theorem alone_validPassword (s : Session e) :
    (validPassword : Writer e Unit).alone s =
      (assertThat s.store.validPassword).map fun u => (u, s) := by
  unfold validPassword require assertThat
  rw [alone]
  dsimp only
  by_cases hv : s.store.validPassword = true
  · rw [if_pos hv, if_pos hv]
    rfl
  · rw [if_neg hv, if_neg hv]
    rfl

theorem insertAdhoc_computes (prv : Uint256) :
    (insertAdhoc (e := e) prv).Computes fun w => w.insertAdhoc prv := by
  intro s
  unfold insertAdhoc WalletStore.insertAdhoc
  rw [alone_bind, alone_validPassword]
  unfold assertThat
  dsimp only
  cases s.store.validPassword with
  | true => rfl
  | false => rfl

theorem seedSet_computes (prv : Uint256) :
    (seedSet (e := e) prv).Computes fun w => .ok ((), w.seedSet prv) :=
  fun _ => rfl

theorem alone_deterministicPrv (index : BitVec 32) (s : Session e) :
    (deterministicPrv (e := e) index).alone s =
      (s.store.deterministicPrv index).map fun prv => (prv, s) := by
  unfold deterministicPrv WalletStore.deterministicPrv
  rw [alone_bind, alone_validPassword]
  unfold assertThat
  cases s.store.validPassword with
  | true => rfl
  | false => rfl

/-- One round of the loop, as the source has it. -/
def nextIndex (w : WalletStore e) (i : BitVec 32 × Uint256) :
    Except Fault (BitVec 32 × Uint256) := do
  let prv ← w.deterministicPrv (i.1 + 1)
  return (i.1 + 1, e.publicKey prv)

theorem insertFrom_computes (n : ℕ) (index : BitVec 32) (prv : Uint256) (s : Session e) :
    ((insertFrom n index prv).alone s).map (fun r => (r.1, r.2.store)) =
      whileLoop Fault.outOfFuel (fun i => s.store.exists' i.2) (nextIndex s.store) n
        (index, e.publicKey prv) >>= fun i =>
          .ok (i.2, s.store.putMarker i.2 i.1) := by
  induction n generalizing index prv with
  | zero =>
    rw [insertFrom, alone, whileLoop]
    dsimp only
    cases s.store.exists' (e.publicKey prv) with
    | true => rfl
    | false => rfl
  | succ n ih =>
    rw [insertFrom, alone, whileLoop]
    dsimp only
    cases s.store.exists' (e.publicKey prv) with
    | false => rfl
    | true =>
      rw [if_pos rfl, if_pos rfl, if_pos rfl, ok_bind, alone_bind,
        alone_deterministicPrv, nextIndex]
      dsimp only
      cases s.store.deterministicPrv (index + 1) with
      | error fault => rfl
      | ok prv => exact ih (index + 1) prv

theorem deterministicInsert_eq (w : WalletStore e) : w.deterministicInsert =
    w.deterministicPrv w.deterministicIndexGet >>= fun prv =>
      whileLoop Fault.outOfFuel (fun i => w.exists' i.2) (nextIndex w) (2 ^ 32)
        (w.deterministicIndexGet, e.publicKey prv) >>= fun i =>
          .ok (i.2, w.putMarker i.2 i.1) := rfl

theorem alone_deterministicInsert (s : Session e) :
    (deterministicInsert (e := e)).alone s =
      (deterministicPrv s.store.deterministicIndexGet).alone s >>= fun r =>
        (insertFrom (2 ^ 32) s.store.deterministicIndexGet r.1).alone r.2 := by
  unfold deterministicInsert
  rw [alone_bind]
  change alone (deterministicPrv _ >>= _) s = _
  rw [alone_bind]

theorem deterministicInsert_computes :
    (deterministicInsert (e := e)).Computes fun w => w.deterministicInsert := by
  intro s
  dsimp only
  rw [alone_deterministicInsert, deterministicInsert_eq, alone_deterministicPrv]
  cases s.store.deterministicPrv s.store.deterministicIndexGet with
  | error fault => rfl
  | ok prv =>
    rw [show Except.map (fun prv => (prv, s)) (.ok prv) = Except.ok (prv, s) from rfl, ok_bind,
      ok_bind, insertFrom_computes]

/-! ## The calls -/

/-- A call of the thread that inserts. -/
inductive Call
  | insertAdhoc (prv : Uint256)
  | seedSet (prv : Uint256)
  | deterministicInsert

def call : Call → Writer e Unit
  | .insertAdhoc prv => insertAdhoc prv >>= fun _ => .ret ()
  | .seedSet prv => seedSet prv
  | .deterministicInsert => deterministicInsert >>= fun _ => .ret ()

/-- One call after the other. -/
def calls : List Call → Writer e Unit
  | [] => .ret ()
  | c :: cs => call c >>= fun _ => calls cs

end Writer

/-- A call on another thread. Both functions hold the mutex while they change the
password; the upgrades of older tables that `attempt_password` makes afterwards are taken
in one piece with it. -/
inductive PasswordCall
  | attemptPassword (password : String) (seed : Uint256)
  | rekey (password : String)

def PasswordCall.apply {e : WalletEnv} (op : PasswordCall) (s : Session e) :
    Except Fault (Session e) :=
  match op with
  | .attemptPassword password seed => do
    let r ← s.store.attemptPassword password seed
    return { s with store := r.2 }
  | .rekey password => return { s with store := (s.store.rekey password).2 }

end RaiBlocks
