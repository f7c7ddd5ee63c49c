import RaiBlocks.Ledger.Ledger
import RaiBlocks.Ledger.Pending
import RaiBlocks.Wallet.Entries

/-!
# Changing the seed of a wallet

Translation of the loop of `wallet_store::deterministic_clear`, of
`wallet::deterministic_insert` and of `wallet::change_seed` (`rai/node/wallet.cpp`). An
iterator is the list of the rows before it. The work that is generated for new accounts is
left out.
-/

namespace RaiBlocks

open Foundation

namespace WalletStore

variable {e : WalletEnv}

/-! ## Deleting the deterministic keys -/

/-- `begin (key)` -/
def beginAt (w : WalletStore e) (key : Uint256) : List (Uint256 × WalletValue) :=
  w.handle.rowsFrom (· ≤ ·) key

/-- One round of the loop of `deterministic_clear`. After a deletion the iterator is placed
at the key that was deleted. -/
def clearRow (x : WalletStore e × List (Uint256 × WalletValue)) :
    Except Fault (WalletStore e × List (Uint256 × WalletValue)) :=
  match x.2 with
  | [] => .ok x
  | (key, value) :: rest =>
    match keyType value with
    | .deterministic => do
      let w ← x.1.erase key
      return (w, w.beginAt key)
    | _ => .ok (x.1, rest)

/-- `deterministic_clear`, with its iterator. There are as many rounds as rows. -/
def deterministicClearLoop (w : WalletStore e) : Except Fault (WalletStore e) := do
  let rows := w.beginAt specialCount
  let x ← whileLoop Fault.outOfFuel (fun x => !x.2.isEmpty) clearRow rows.length (w, rows)
  return x.1.deterministicIndexSet 0

/-! ## New accounts -/

/-- `wallet::deterministic_insert`. -/
def walletDeterministicInsert (w : WalletStore e) : Except Fault (Uint256 × WalletStore e) :=
  if w.validPassword then w.deterministicInsert else .ok (0, w)

/-- So many calls of `deterministic_insert`; the accounts they return. -/
def deterministicInserts : ℕ → WalletStore e → Except Fault (List Uint256 × WalletStore e)
  | 0, w => .ok ([], w)
  | n + 1, w => do
    let r ← w.deterministicInsert
    let l ← deterministicInserts n r.2
    return (r.1 :: l.1, l.2)

/-! ## Recovering the accounts of a seed -/

/-- Does the loop over the pending blocks of an account have a first round? -/
def hasPending (s : BlockStore) (account : Account) : Bool :=
  (s.pendingBegin ⟨account, 0⟩).head? ≠ (s.pendingBegin ⟨account + 1, 0⟩).head?

/-- The variables of the loop of `change_seed`. -/
structure Scan where
  i : BitVec 32
  n : BitVec 32
  count : BitVec 32

/-- One round: an account that has received something extends the range. -/
def scanRound (s : BlockStore) (w : WalletStore e) (x : Scan) : Except Fault Scan := do
  let prv ← w.deterministicPrv x.i
  let pub := e.publicKey prv
  let found : Scan := ⟨x.i + 1, x.i + 64 + x.i / 64, x.i⟩
  if Ledger.latest s pub ≠ 0 then return found
  else if hasPending s pub then return found
  else return { x with i := x.i + 1 }

/-- `wallet::change_seed`, which returns the last account it has inserted. -/
def changeSeed (s : BlockStore) (w : WalletStore e) (prv : Uint256) :
    Except Fault (Uint256 × WalletStore e) := do
  let w := w.seedSet prv
  let r ← w.walletDeterministicInsert
  let x ← whileLoop Fault.outOfFuel (fun x : Scan => x.i < x.n) (scanRound s r.2) (2 ^ 32)
    ⟨1, 64, 0⟩
  (List.range x.count.toNat).foldlM
    (fun (r : Uint256 × WalletStore e) _ => r.2.walletDeterministicInsert) r

end WalletStore

end RaiBlocks
