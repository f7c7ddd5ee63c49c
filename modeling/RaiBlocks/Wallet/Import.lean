import RaiBlocks.Foundation.Rows
import RaiBlocks.Lib.Text
import RaiBlocks.Wallet.WalletStore

/-!
# Wallets as text

Translation of `wallet_store::serialize_json`, of the constructor of `wallet_store` that
takes such a text (`rai/node/wallet.cpp`). A JSON text is a property tree here: writing
and reading the tree is left to the library. An exception of the library that `decode_hex`
does not catch leaves the constructor.
-/

namespace RaiBlocks.WalletStore

open Foundation

variable {e : WalletEnv}

/-- The names are different, so every `put` adds a child. -/
def serializeJson (w : WalletStore e) : PropertyTree :=
  (w.handle.rows (· ≤ ·)).map fun row => (encodeHex row.1, encodeHex row.2.key)

/-- The loop body of the constructor: the error flag and the store. -/
def importEntry (tree : PropertyTree) (r : Bool × WalletStore e) (entry : String × String) :
    Except Raised (Bool × WalletStore e) := do
  match ← Uint256.decodeHex entry.1 with
  | some key =>
    match ← Uint256.decodeHex (tree.get entry.1) with
    | some value => return (false, r.2.entryPutRaw key ⟨value, 0⟩)
    | none => return (true, r.2)
  | none => return (true, r.2)

/-- The records that the constructor looks for. -/
def requiredRecords : List Uint256 :=
  [versionSpecial, walletKeySpecial, saltSpecial, checkSpecial, representativeSpecial]

theorem requiredRecords_lt : ∀ k ∈ requiredRecords, k < specialCount := by
  simp only [requiredRecords, List.forall_mem_cons]
  exact ⟨by decide, by decide, by decide, by decide, by decide, List.forall_mem_nil _⟩

/-- What follows the loop: the records are looked for and the keys in memory are set. -/
def finishImport (r : Bool × WalletStore e) : Bool × WalletStore e :=
  let init := r.1 || requiredRecords.any fun k => !r.2.exists' k
  let w := r.2.withPassword 0
  (init, w.withWalletKeyMem (w.entryGetRaw walletKeySpecial).key)

/-- The constructor for a wallet that is not there yet, with the error result first. There
is no tree if the text cannot be read. -/
def ofJson (password walletKeyMem : Fan) (json : Option PropertyTree) :
    Except Raised (Bool × WalletStore e) := do
  let tree := json.getD []
  let r ← tree.foldlM (importEntry tree) (json.isNone, .blank password walletKeyMem)
  return finishImport r

end RaiBlocks.WalletStore
