import RaiBlocks.Lib.HashInput
import RaiBlocks.Refinement.Reachable
import RaiBlocks.Wallet.Actions
import RaiBlocks.Wallet.Entries

/-!
# The blocks that a wallet builds

What `send_action` builds on a ledger that refines a lattice, and a wallet on the genesis ledger
that sends, for the runs of the developments above.
-/

namespace RaiBlocks

open Foundation

section Blocks

variable {e : ActionEnv} {U : Set Block} {Λ : Lattice e.toEnv} {s : BlockStore}
  {w : WalletStore e.toWalletEnv} {source : Account} {info : AccountInfo}

theorem ActionEnv.ensureWork_eq (b : StateBlock) :
    ∃ work, e.ensureWork b = .stateBlock { b with work := work } := by
  unfold ActionEnv.ensureWork
  dsimp only
  split
  · exact ⟨_, rfl⟩
  · exact ⟨b.work, rfl⟩

theorem Refines.fresh_of_isHead {p : Env} {Λ : Lattice p} {b : Block} (hr : Refines U s Λ)
    (hass : HashAssumptions p U) (hU : b ∈ U) (hhead : Λ.IsHead b.previous) :
    Λ.entry (b.hash p) = none := by
  cases he : Λ.entry (b.hash p) with
  | none => rfl
  | some q =>
    have hinput := hass.collision_free (hr.known he) hU (Λ.hash_eq he)
    exact absurd (hashInput_eq_place hinput).1 (hhead _ q he)

/-- The block that names the representative of an account is stored. -/
theorem Refines.blockGet_repBlock (hr : Refines U s Λ) (hi : s.accountGet source = some info) :
    ∃ rep, s.blockGet info.repBlock = some rep := by
  obtain ⟨q, hd⟩ := hr.accounts.sound hi
  obtain ⟨r, hrep, -⟩ := Lattice.rep_entry _ _ hd.head
  rw [hd.rep]
  exact ⟨r.block, hr.blocks.blockGet_some hrep⟩

theorem Refines.latest_ne_zero_iff {p : Env} {Λ : Lattice p} (hr : Refines U s Λ) :
    Ledger.latest s source ≠ 0 ↔ (s.accountGet source).isSome = true := by
  unfold Ledger.latest
  cases hi : s.accountGet source with
  | none => simp
  | some info =>
    obtain ⟨q, hd⟩ := hr.accounts.sound hi
    exact iff_of_true (Λ.ne_zero hd.head) rfl

namespace WalletStore

/-- What `send_action` builds, with the key there. -/
theorem sendBlock_eq (hr : Refines U s Λ) (hi : s.accountGet source = some info) {prv : Uint256}
    (hprv : w.fetch source = some prv) (destination : Account) (amount : Uint128) :
    ∃ rep : Block, s.blockGet info.repBlock = some rep ∧
      sendBlock s w source destination amount = .ok (e.ensureWork (e.stateBlock
        ⟨source, info.head, rep.representative, info.balance - amount, destination⟩ prv source
        (w.workGet source))) := by
  obtain ⟨rep, hrep⟩ := hr.blockGet_repBlock hi
  refine ⟨rep, hrep, ?_⟩
  have hbalance : Ledger.accountBalance s source = info.balance := by
    rw [Ledger.accountBalance, hi]
    rfl
  simp only [sendBlock, hi, hprv, hrep, hbalance, assertSome, ok_bind]
  rfl

theorem sendBlock_keyless (hprv : w.fetch source = none) (destination : Account)
    (amount : Uint128) : sendBlock s w source destination amount = .error .assertion := by
  unfold sendBlock
  rw [hprv]
  cases s.accountGet source <;> rfl

end WalletStore

end Blocks

/-! ## A wallet that sends -/

namespace Spending

/-- The genesis account of the test network. -/
def account : Account := 0xB0311EA55708D6A53C75CDBF88300259C6D018522FE3D4D0A242E431F9E8B6D0

/-- One private key belongs to the genesis account. The hash of a state block is its
balance with a bit in front. -/
def env : ActionEnv where
  blake2b input :=
    if input = Sample.genesis.hashInput then Sample.genesisHash
    else BitVec.ofNat 256 (2 ^ 255 + fromBigEndian ((input.drop 128).take 16))
  validateMessage _ _ _ := false
  network := .raiTestNetwork
  trap := false
  keystream key iv := (key <<< 96) ^^^ iv.setWidth 256
  phs password _ := BitVec.ofNat 256 password.length
  publicKey prv := if prv = WalletSample.prv then account else prv ||| specialCount
  workValue _ _ := BitVec.allOnes 64
  sign _ _ _ := 0
  workGenerate _ := 0

/-- A new wallet, which is unlocked. -/
def fresh : WalletStore env.toWalletEnv := .create _ WalletSample.creation

/-- It watches the genesis account. -/
def watching : WalletStore env.toWalletEnv := fresh.insertWatch account

/-- It has its key. -/
def keyed : WalletStore env.toWalletEnv :=
  ((fresh.insertAdhoc WalletSample.prv).toOption.map Prod.snd).getD fresh

/-- The ledger with the genesis block alone. -/
def ledger : BlockStore := (genesisInitialize env.toEnv 0 .empty).toOption.getD .empty

/-- A block of the genesis account, as the wallet makes it. -/
def spend (previous : BlockHash) (balance : Uint128) : Block :=
  .stateBlock ⟨⟨account, previous, account, balance, 9⟩, 0, 0⟩

/-- The genesis block, two sends on top of it, one on top of the first of them, and
one of nothing. -/
def all : List Block :=
  [Sample.genesis, spend Sample.genesisHash (genesisAmount - 1),
    spend Sample.genesisHash (genesisAmount - 2),
    spend ((spend Sample.genesisHash (genesisAmount - 1)).hash env.toEnv) (genesisAmount - 3),
    spend Sample.genesisHash genesisAmount]

def blocks : Set Block := {b | b ∈ all}

theorem assumptions : HashAssumptions env.toEnv blocks :=
  .of_list List.mem_cons_self (by decide +kernel) (by decide +kernel) (by decide +kernel)

theorem ledger_reachable : Ledger.Reachable env.toEnv blocks ledger := by
  have hok : (genesisInitialize env.toEnv 0 .empty).isOk = true := by decide +kernel
  exact ⟨0, ledger, eq_ok_getD hok .empty, .refl⟩

/-- No weights but those of the ledger. -/
def bootstrap : Ledger.BootstrapWeights := ⟨false, 0, ∅⟩

end Spending

end RaiBlocks
