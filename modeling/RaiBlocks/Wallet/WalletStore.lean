import RaiBlocks.Foundation.OrderedMap
import RaiBlocks.Store.BlockStore
import RaiBlocks.Votes.Vote

/-!
# The wallet's table

Translation of `rai::wallet_store` and `rai::fan` (`rai/node/wallet.cpp`). The
table maps accounts to their keys; the keys 0 to 6 hold the wallet's own
records. Secrets are stored encrypted with AES in counter mode, which is the
exclusive or with a keystream; the keystream, the password hash and the public
key of a private key are parameters.

`seals` is not part of the program: it remembers for every ciphertext of the
table the key, the initialisation vector and the plaintext it was made from, and
no function reads it.
-/

namespace RaiBlocks

open Foundation

/-- The surroundings of a wallet. -/
structure WalletEnv extends Env where
  /-- AES: the first 32 bytes of the keystream for a key and a counter. -/
  keystream : Uint256 → BitVec 128 → Uint256
  /-- Argon2: the key for a password and a salt. -/
  phs : String → Uint256 → Uint256
  /-- `ed25519_publickey`. -/
  publicKey : Uint256 → Uint256

namespace WalletEnv

/-- `uint256_union::encrypt`. -/
def encrypt (e : WalletEnv) (clear key : Uint256) (iv : BitVec 128) : Uint256 :=
  clear ^^^ e.keystream key iv

/-- `raw_key::decrypt`. -/
def decrypt (e : WalletEnv) (cipher key : Uint256) (iv : BitVec 128) : Uint256 :=
  cipher ^^^ e.keystream key iv

@[simp] theorem decrypt_encrypt (e : WalletEnv) (clear key : Uint256) (iv : BitVec 128) :
    e.decrypt (e.encrypt clear key iv) key iv = clear := by
  rw [decrypt, encrypt, BitVec.xor_assoc, BitVec.xor_self, BitVec.xor_zero]

end WalletEnv

/-- `owords[0]`: the first 16 bytes. -/
def oword (salt : Uint256) : BitVec 128 := (salt >>> 128).setWidth 128

/-- `deterministic_key`. -/
def deterministicKey (p : Env) (seed : Uint256) (index : BitVec 32) : Uint256 :=
  p.blake2b (bigEndian 32 seed.toNat ++ bigEndian 4 index.toNat)

/-! ## Fans -/

/-- A key spread out over several values, whose exclusive or it is. -/
structure Fan where
  values : List Uint256
  ne_nil : values ≠ []

namespace Fan

/-- A fan of one value. -/
def single (value : Uint256) : Fan := ⟨[value], List.cons_ne_nil value []⟩

def value (f : Fan) : Uint256 := f.values.foldl (· ^^^ ·) 0

/-- Changes the first value only. -/
def valueSet (f : Fan) (v : Uint256) : Fan where
  values := f.values.modifyHead fun first => first ^^^ f.value ^^^ v
  ne_nil := by simpa using f.ne_nil

theorem zero_xor (x : Uint256) : 0 ^^^ x = x := BitVec.zero_xor

theorem foldl_xor (l : List Uint256) : ∀ a, l.foldl (· ^^^ ·) a = a ^^^ l.foldl (· ^^^ ·) 0 := by
  induction l with
  | nil => intro a; simp
  | cons x l ih =>
    intro a
    rw [List.foldl_cons, List.foldl_cons, ih (a ^^^ x), ih (0 ^^^ x), zero_xor, BitVec.xor_assoc]

@[simp] theorem value_valueSet (f : Fan) (v : Uint256) : (f.valueSet v).value = v := by
  obtain ⟨first, rest, hf⟩ := List.exists_cons_of_ne_nil f.ne_nil
  have hvalue : f.value = first ^^^ rest.foldl (· ^^^ ·) 0 := by
    rw [value, hf, List.foldl_cons, foldl_xor, zero_xor]
  have hset : (f.valueSet v).values = (first ^^^ f.value ^^^ v) :: rest := by
    simp only [valueSet, hf, List.modifyHead_cons]
  rw [value, hset, List.foldl_cons, foldl_xor, zero_xor, hvalue]
  -- Everything but `v` occurs twice.
  generalize rest.foldl (· ^^^ ·) 0 = r
  ext i hi
  simp only [BitVec.getElem_xor]
  cases first[i] <;> cases r[i] <;> simp

end Fan

/-! ## The table -/

structure WalletValue where
  key : Uint256
  work : Uint64
deriving DecidableEq

/-- How a ciphertext was made. -/
structure Seal where
  key : Uint256
  iv : BitVec 128
  plain : Uint256
deriving DecidableEq

inductive KeyType where
  | notAType | unknown | adhoc | deterministic
deriving DecidableEq

structure WalletStore (e : WalletEnv) where
  handle : Table Uint256 WalletValue
  password : Fan
  walletKeyMem : Fan
  seals : Uint256 → Option Seal
  sealed : ∀ k c, seals k = some c →
    (handle.lookup k).map WalletValue.key = some (e.encrypt c.plain c.key c.iv)

/-- Wallet version number -/
def versionSpecial : Uint256 := 0
/-- Random number used to salt private key encryption -/
def saltSpecial : Uint256 := 1
/-- Key used to encrypt wallet keys, encrypted itself by the user password -/
def walletKeySpecial : Uint256 := 2
/-- Check value used to see if password is valid -/
def checkSpecial : Uint256 := 3
/-- Representative account to be used if we open a new account -/
def representativeSpecial : Uint256 := 4
/-- Wallet seed for deterministic key generation -/
def seedSpecial : Uint256 := 5
/-- Current key index for deterministic keys -/
def deterministicIndexSpecial : Uint256 := 6
def specialCount : Uint256 := 7

namespace WalletStore

variable {e : WalletEnv}

def entryGetRaw (w : WalletStore e) (k : Uint256) : WalletValue := (w.handle.lookup k).getD ⟨0, 0⟩

/-- `entry_put_raw` of a value that is not encrypted. -/
def entryPutRaw (w : WalletStore e) (k : Uint256) (v : WalletValue) : WalletStore e where
  handle := w.handle.insert k v
  password := w.password
  walletKeyMem := w.walletKeyMem
  seals := Function.update w.seals k none
  sealed k' c h := by
    by_cases hk : k' = k
    · rw [hk, Function.update_self] at h
      cases h
    · rw [Function.update_of_ne hk] at h
      rw [Table.lookup_insert_ite, if_neg hk]
      exact w.sealed k' c h

/-- `encrypt`, then `entry_put_raw` of the ciphertext. -/
def encryptPut (w : WalletStore e) (k : Uint256) (c : Seal) : WalletStore e where
  handle := w.handle.insert k ⟨e.encrypt c.plain c.key c.iv, 0⟩
  password := w.password
  walletKeyMem := w.walletKeyMem
  seals := Function.update w.seals k (some c)
  sealed k' c' h := by
    rw [Table.lookup_insert_ite]
    by_cases hk : k' = k
    · rw [hk, Function.update_self] at h
      rw [if_pos hk, Option.some.inj h]
      rfl
    · rw [Function.update_of_ne hk] at h
      rw [if_neg hk]
      exact w.sealed k' c' h

/-- `mdb_del` of a stored key. -/
def delete (w : WalletStore e) (k : Uint256) : WalletStore e where
  handle := w.handle.erase k
  password := w.password
  walletKeyMem := w.walletKeyMem
  seals := Function.update w.seals k none
  sealed k' c h := by
    by_cases hk : k' = k
    · rw [hk, Function.update_self] at h
      cases h
    · rw [Function.update_of_ne hk] at h
      rw [Table.lookup_erase_ite, if_neg hk]
      exact w.sealed k' c h

def withPassword (w : WalletStore e) (v : Uint256) : WalletStore e :=
  { w with password := w.password.valueSet v }

def withWalletKeyMem (w : WalletStore e) (v : Uint256) : WalletStore e :=
  { w with walletKeyMem := w.walletKeyMem.valueSet v }

def check (w : WalletStore e) : Uint256 := (w.entryGetRaw checkSpecial).key

def salt (w : WalletStore e) : Uint256 := (w.entryGetRaw saltSpecial).key

def walletKey (w : WalletStore e) : Uint256 :=
  e.decrypt w.walletKeyMem.value w.password.value (oword w.salt)

def seed (w : WalletStore e) : Uint256 :=
  e.decrypt (w.entryGetRaw seedSpecial).key w.walletKey (oword w.salt)

/-- Is the check value the zero key, encrypted with the wallet key? -/
def validPassword (w : WalletStore e) : Bool :=
  w.check == e.encrypt 0 w.walletKey (oword w.salt)

def version (w : WalletStore e) : ℕ := (w.entryGetRaw versionSpecial).key.toNat % 256

def versionPut (w : WalletStore e) (version : Uint256) : WalletStore e :=
  w.entryPutRaw versionSpecial ⟨version, 0⟩

/-- `find (pub) != end ()`. -/
def exists' (w : WalletStore e) (pub : Uint256) : Bool := (w.handle.lookup pub).isSome

/-- `erase`, which asserts that there was an entry. -/
def erase (w : WalletStore e) (pub : Uint256) : Except Fault (WalletStore e) := do
  assertThat (w.exists' pub)
  return w.delete pub

/-- The keys from `begin ()` to `end ()`, in ascending order. -/
def accounts (w : WalletStore e) : List Uint256 :=
  (w.handle.keys.filter fun k => specialCount ≤ k).sort (· ≤ ·)

def keyType (v : WalletValue) : KeyType :=
  if 2 ^ 64 - 1 < v.key.toNat then .adhoc
  else if (v.key >>> 32).setWidth 32 = (1 : BitVec 32) then .deterministic
  else .unknown

/-! ## Deterministic keys -/

def deterministicIndexGet (w : WalletStore e) : BitVec 32 :=
  (w.entryGetRaw deterministicIndexSpecial).key.setWidth 32

def deterministicIndexSet (w : WalletStore e) (index : BitVec 32) : WalletStore e :=
  w.entryPutRaw deterministicIndexSpecial ⟨index.setWidth 256, 0⟩

/-- `wallet_store::deterministic_key`. -/
def deterministicPrv (w : WalletStore e) (index : BitVec 32) : Except Fault Uint256 := do
  assertThat w.validPassword
  return deterministicKey e.toEnv w.seed index

def clearKey (w : WalletStore e) (k : Uint256) : WalletStore e :=
  if keyType (w.entryGetRaw k) = .deterministic then w.delete k else w

def deterministicClear (w : WalletStore e) : WalletStore e :=
  (w.accounts.foldl clearKey w).deterministicIndexSet 0

def seedSet (w : WalletStore e) (prv : Uint256) : WalletStore e :=
  (w.encryptPut seedSpecial ⟨w.walletKey, oword w.salt, prv⟩).deterministicClear

/-- `deterministic_insert`. The loop visits every index once within 2^32 rounds;
after that it would go on forever. -/
def deterministicInsert (w : WalletStore e) : Except Fault (Uint256 × WalletStore e) := do
  let index := w.deterministicIndexGet
  let prv ← w.deterministicPrv index
  let (index, result) ← whileLoop Fault.outOfFuel (fun i : BitVec 32 × Uint256 => w.exists' i.2)
    (fun i => do
      let prv ← w.deterministicPrv (i.1 + 1)
      return (i.1 + 1, e.publicKey prv))
    (2 ^ 32) (index, e.publicKey prv)
  let marker : Uint256 := (1 <<< 32) ||| index.setWidth 256
  let w := w.entryPutRaw result ⟨marker, 0⟩
  return (result, w.deterministicIndexSet (index + 1))

/-! ## Keys and passwords -/

def insertAdhoc (w : WalletStore e) (prv : Uint256) : Except Fault (Uint256 × WalletStore e) := do
  assertThat w.validPassword
  let pub := e.publicKey prv
  return (pub, w.encryptPut pub ⟨w.walletKey, oword w.salt, prv⟩)

def insertWatch (w : WalletStore e) (pub : Uint256) : WalletStore e := w.entryPutRaw pub ⟨0, 0⟩

/-- The private key of an account, none on error. -/
def fetch (w : WalletStore e) (pub : Uint256) : Option Uint256 :=
  if w.validPassword then
    let value := w.entryGetRaw pub
    if value.key = 0 then none
    else
      let prv := match keyType value with
        | .deterministic => some (deterministicKey e.toEnv w.seed (value.key.setWidth 32))
        | .adhoc => some (e.decrypt value.key w.walletKey (oword w.salt))
        | _ => none
      prv.filter fun prv => e.publicKey prv = pub
  else none

def deriveKey (w : WalletStore e) (password : String) : Uint256 := e.phs password w.salt

/-- Returns true on error. -/
def rekey (w : WalletStore e) (password : String) : Bool × WalletStore e :=
  if w.validPassword then
    let passwordNew := w.deriveKey password
    let c : Seal := ⟨passwordNew, oword w.salt, w.walletKey⟩
    let w := w.withPassword passwordNew
    let w := w.withWalletKeyMem (e.encrypt c.plain c.key c.iv)
    (false, w.encryptPut walletKeySpecial c)
  else (true, w)

/-- One account of the loop of `upgrade_v1_v2`: rewrite a key that was encrypted
with the wallet key under the zero or the empty password. -/
def upgradeKey (zeroPassword emptyPassword : Uint256) (w : WalletStore e) (k : Uint256) :
    Except Fault (WalletStore e) :=
  if (w.fetch k).isSome then .ok w
  else
    let data := (w.entryGetRaw k).key
    let zeroPrv := e.decrypt data zeroPassword (oword w.salt)
    let emptyPrv := e.decrypt data emptyPassword (oword w.salt)
    if e.publicKey zeroPrv = k then return (← w.insertAdhoc zeroPrv).2
    else if e.publicKey emptyPrv = k then return (← w.insertAdhoc emptyPrv).2
    else .ok w

def upgradeV1V2 (w : WalletStore e) : Except Fault (WalletStore e) := do
  assertThat (w.version == 1)
  let value := (w.entryGetRaw walletKeySpecial).key
  let zeroPassword := e.decrypt value 0 (oword w.salt)
  let emptyPassword := e.decrypt value (w.deriveKey "") (oword w.salt)
  let w ← w.accounts.foldlM (upgradeKey zeroPassword emptyPassword) w
  return w.versionPut 2

/-- `seed` is drawn at random. -/
def upgradeV2V3 (w : WalletStore e) (seed : Uint256) : Except Fault (WalletStore e) := do
  assertThat (w.version == 2)
  let w := w.seedSet seed
  let w := w.entryPutRaw deterministicIndexSpecial ⟨0, 0⟩
  return w.versionPut 3

/-- Returns true on error. Both tests of the version read the transaction of the
caller, which does not see what an upgrade writes. -/
def attemptPassword (w : WalletStore e) (password : String) (seed : Uint256) :
    Except Fault (Bool × WalletStore e) := do
  let w := w.withPassword (w.deriveKey password)
  if w.validPassword then
    if w.version = 1 then
      return (false, ← w.upgradeV1V2)
    else if w.version = 2 then
      return (false, ← w.upgradeV2V3 seed)
    else
      return (false, w)
  else
    return (true, w)

/-! ## Moving keys -/

section Move

variable {ι : Type} [DecidableEq ι]

/-- One key of the loop of `move`, with the error result so far. The two stores are those
of wallets `this` and `other`, which may be the same. -/
def moveKey (this other : ι) (r : Bool × (ι → WalletStore e)) (k : Uint256) :
    Except Fault (Bool × (ι → WalletStore e)) :=
  match (r.2 other).fetch k with
  | none => .ok (true, r.2)
  | some prv =>
    if r.1 then .ok r
    else do
      let (_, w) ← (r.2 this).insertAdhoc prv
      let stores := Function.update r.2 this w
      let source ← (stores other).erase k
      return (false, Function.update stores other source)

/-- Returns true on error. -/
def move (stores : ι → WalletStore e) (this other : ι) (keys : List Uint256) :
    Except Fault (Bool × (ι → WalletStore e)) := do
  assertThat (stores this).validPassword
  assertThat (stores other).validPassword
  keys.foldlM (moveKey this other) (false, stores)

end Move

/-! ## The constructor -/

/-- No table yet. -/
def blank (password walletKeyMem : Fan) : WalletStore e where
  handle := ∅
  password := password
  walletKeyMem := walletKeyMem
  seals := fun _ => none
  sealed := by simp

end WalletStore

/-- What the creating constructor is given or draws at random. -/
structure Creation where
  password : Fan
  walletKeyMem : Fan
  salt : Uint256
  walletKey : Uint256
  seed : Uint256
  representative : Account

namespace WalletStore

variable (e : WalletEnv) (c : Creation)

/-- The constructor up to the seed, for a wallet that is not there yet. -/
def createKeys : WalletStore e :=
  let w : WalletStore e := .blank c.password c.walletKeyMem
  let w := w.versionPut 3
  let w := w.entryPutRaw saltSpecial ⟨c.salt, 0⟩
  let w := w.withPassword 0
  -- Wallet key is encrypted by the user's password
  let encrypted : Seal := ⟨0, oword c.salt, c.walletKey⟩
  let w := w.encryptPut walletKeySpecial encrypted
  let w := w.withWalletKeyMem (e.encrypt encrypted.plain encrypted.key encrypted.iv)
  let w := w.encryptPut checkSpecial ⟨c.walletKey, oword c.salt, 0⟩
  w.entryPutRaw representativeSpecial ⟨c.representative, 0⟩

/-- The constructor. -/
def create : WalletStore e :=
  let w := (createKeys e c).seedSet c.seed
  let w := w.entryPutRaw deterministicIndexSpecial ⟨0, 0⟩
  w.withWalletKeyMem (w.entryGetRaw walletKeySpecial).key

end WalletStore

end RaiBlocks
