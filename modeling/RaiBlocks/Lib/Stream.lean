import RaiBlocks.Lib.Blocks

/-!
# Blocks in byte streams

Translation of `read`, `write`, `serialize_block` and `deserialize_block` of
`rai/lib/blocks.cpp`. The unions of `numbers.hpp` stand in a stream as they are laid
out, most significant byte first. The work value of a state block is written that
way too; in the older kinds it is written as the machine holds it, which is least
significant byte first on the machines the node is built for.
-/

namespace RaiBlocks

open Block

/-- The number whose bytes are given, most significant first. -/
def fromBigEndian (bytes : List UInt8) : ℕ := bytes.foldl (fun n byte => n * 256 + byte.toNat) 0

theorem fromBigEndian_append_singleton (bytes : List UInt8) (byte : UInt8) :
    fromBigEndian (bytes ++ [byte]) = fromBigEndian bytes * 256 + byte.toNat := by
  rw [fromBigEndian, List.foldl_append]
  rfl

theorem fromBigEndian_bigEndian (n x : ℕ) (hx : x < 256 ^ n) :
    fromBigEndian (bigEndian n x) = x := by
  induction n generalizing x with
  | zero =>
    rw [pow_zero, Nat.lt_one_iff] at hx
    exact hx.symm
  | succ n ih =>
    have hdiv : x / 256 < 256 ^ n := by
      rw [Nat.div_lt_iff_lt_mul (by decide)]
      exact hx
    have hbyte : (UInt8.ofNat (x % 256)).toNat = x % 256 :=
      UInt8.toNat_ofNat_of_lt (Nat.mod_lt x (by decide))
    rw [bigEndian, fromBigEndian_append_singleton, ih _ hdiv, hbyte]
    omega

theorem fromBigEndian_lt (bytes : List UInt8) : fromBigEndian bytes < 256 ^ bytes.length := by
  induction bytes using List.reverseRecOn with
  | nil => exact Nat.one_pos
  | append_singleton bytes byte ih =>
    have hbyte := byte.toNat_lt
    rw [fromBigEndian_append_singleton, List.length_append, List.length_singleton, pow_succ]
    omega

theorem bigEndian_fromBigEndian (bytes : List UInt8) :
    bigEndian bytes.length (fromBigEndian bytes) = bytes := by
  induction bytes using List.reverseRecOn with
  | nil => rfl
  | append_singleton bytes byte ih =>
    have hbyte := byte.toNat_lt
    have hdiv : (fromBigEndian bytes * 256 + byte.toNat) / 256 = fromBigEndian bytes := by omega
    have hmod : (fromBigEndian bytes * 256 + byte.toNat) % 256 = byte.toNat := by omega
    rw [fromBigEndian_append_singleton, List.length_append, List.length_singleton, bigEndian,
      hdiv, hmod, ih, UInt8.ofNat_toNat]

/-- The `n` bytes of a number, least significant first: how a `uint64_t` lies in
memory. -/
def littleEndian (n x : ℕ) : List UInt8 := (bigEndian n x).reverse

/-! ## Reading -/

/-- Something read from the front of a stream; `none` is the error result. -/
abbrev Reader : Type → Type := StateT (List UInt8) Option

namespace Reader

variable {α β : Type} {stream rest : List UInt8} {a : α} {n w : ℕ}

/-- The next `n` bytes. -/
def bytes (n : ℕ) : Reader (List UInt8) := fun stream =>
  if n ≤ stream.length then some (stream.take n, stream.drop n) else none

/-- A union of `n` bytes. -/
def big (w n : ℕ) : Reader (BitVec w) := do
  let bytes ← bytes n
  return BitVec.ofNat w (fromBigEndian bytes)

/-- A number of `n` bytes as the machine holds it. -/
def little (w n : ℕ) : Reader (BitVec w) := do
  let bytes ← bytes n
  return BitVec.ofNat w (fromBigEndian bytes.reverse)

theorem bind_of_eq {x : Reader α} {f : α → Reader β} (h : x stream = some (a, rest)) :
    (x >>= f) stream = f a rest := by
  show (x stream >>= fun r => f r.1 r.2) = f a rest
  rw [h]
  rfl

theorem pure_eq_some {b : α} :
    (pure a : Reader α) stream = some (b, rest) ↔ a = b ∧ stream = rest := by
  change some (a, stream) = some (b, rest) ↔ _
  rw [Option.some.injEq, Prod.mk.injEq]

theorem bytes_append (l rest : List UInt8) : bytes l.length (l ++ rest) = some (l, rest) := by
  unfold bytes
  rw [if_pos (by simp), List.take_left, List.drop_left]

theorem bytes_eq_some {l : List UInt8} :
    bytes n stream = some (l, rest) ↔ l.length = n ∧ stream = l ++ rest := by
  constructor
  · intro h
    unfold bytes at h
    split_ifs at h with hn
    obtain ⟨rfl, rfl⟩ := Prod.mk.inj (Option.some.inj h)
    exact ⟨by simpa using hn, (List.take_append_drop n stream).symm⟩
  · rintro ⟨rfl, rfl⟩
    exact bytes_append l rest

theorem lt_of_width (hw : w = 8 * n) (x : BitVec w) : x.toNat < 256 ^ n := by
  have hpow : 2 ^ w = 256 ^ n := by rw [hw, Nat.pow_mul]
  rw [← hpow]
  exact x.isLt

/-- Exactly the bytes of a union are read as that union. -/
theorem big_eq_some (hw : w = 8 * n) {x : BitVec w} :
    big w n stream = some (x, rest) ↔ stream = bigEndian n x.toNat ++ rest := by
  constructor
  · intro h
    obtain ⟨⟨l, rest'⟩, hbytes, h⟩ := Option.bind_eq_some_iff.mp h
    obtain ⟨hx, rfl⟩ := Prod.mk.inj (Option.some.inj h)
    obtain ⟨rfl, rfl⟩ := bytes_eq_some.mp hbytes
    have hlt : fromBigEndian l < 2 ^ w := by
      rw [hw, Nat.pow_mul]
      exact fromBigEndian_lt l
    rw [← hx, BitVec.toNat_ofNat, Nat.mod_eq_of_lt hlt, bigEndian_fromBigEndian]
  · rintro rfl
    have hread := bytes_append (bigEndian n x.toNat) rest
    rw [length_bigEndian] at hread
    rw [big, bind_of_eq hread, fromBigEndian_bigEndian n _ (lt_of_width hw x), BitVec.ofNat_toNat,
      BitVec.setWidth_eq]
    rfl

theorem little_eq_some (hw : w = 8 * n) {x : BitVec w} :
    little w n stream = some (x, rest) ↔ stream = littleEndian n x.toNat ++ rest := by
  constructor
  · intro h
    obtain ⟨⟨l, rest'⟩, hbytes, h⟩ := Option.bind_eq_some_iff.mp h
    obtain ⟨hx, rfl⟩ := Prod.mk.inj (Option.some.inj h)
    obtain ⟨rfl, rfl⟩ := bytes_eq_some.mp hbytes
    have hlt : fromBigEndian l.reverse < 2 ^ w := by
      rw [hw, Nat.pow_mul, ← List.length_reverse]
      exact fromBigEndian_lt l.reverse
    have hback := bigEndian_fromBigEndian l.reverse
    rw [List.length_reverse] at hback
    rw [← hx, BitVec.toNat_ofNat, Nat.mod_eq_of_lt hlt, littleEndian, hback, List.reverse_reverse]
  · rintro rfl
    have hread := bytes_append (littleEndian n x.toNat) rest
    rw [littleEndian, List.length_reverse, length_bigEndian] at hread
    rw [little, littleEndian, bind_of_eq hread, List.reverse_reverse,
      fromBigEndian_bigEndian n _ (lt_of_width hw x), BitVec.ofNat_toNat, BitVec.setWidth_eq]
    rfl

theorem bind_big (hw : w = 8 * n) (x : BitVec w) (f : BitVec w → Reader α) (rest : List UInt8) :
    (big w n >>= f) (bigEndian n x.toNat ++ rest) = f x rest :=
  bind_of_eq ((big_eq_some hw).mpr rfl)

theorem bind_little (hw : w = 8 * n) (x : BitVec w) (f : BitVec w → Reader α)
    (rest : List UInt8) : (little w n >>= f) (littleEndian n x.toNat ++ rest) = f x rest :=
  bind_of_eq ((little_eq_some hw).mpr rfl)

/-- What follows a union is read from the bytes after it. -/
theorem bind_big_eq_some (hw : w = 8 * n) {f : BitVec w → Reader α} :
    (big w n >>= f) stream = some (a, rest) ↔
      ∃ x rest', stream = bigEndian n x.toNat ++ rest' ∧ f x rest' = some (a, rest) := by
  constructor
  · intro h
    obtain ⟨⟨x, rest'⟩, hx, h⟩ := Option.bind_eq_some_iff.mp h
    exact ⟨x, rest', (big_eq_some hw).mp hx, h⟩
  · rintro ⟨x, rest', rfl, h⟩
    rw [bind_big hw]
    exact h

theorem bind_little_eq_some (hw : w = 8 * n) {f : BitVec w → Reader α} :
    (little w n >>= f) stream = some (a, rest) ↔
      ∃ x rest', stream = littleEndian n x.toNat ++ rest' ∧ f x rest' = some (a, rest) := by
  constructor
  · intro h
    obtain ⟨⟨x, rest'⟩, hx, h⟩ := Option.bind_eq_some_iff.mp h
    exact ⟨x, rest', (little_eq_some hw).mp hx, h⟩
  · rintro ⟨x, rest', rfl, h⟩
    rw [bind_little hw]
    exact h

/-! The widths that occur. -/

theorem bind_uint256 (x : BitVec 256) (f : BitVec 256 → Reader α) (rest : List UInt8) :
    (big 256 32 >>= f) (bigEndian 32 x.toNat ++ rest) = f x rest := bind_big (by norm_num) x f rest

theorem bind_uint128 (x : BitVec 128) (f : BitVec 128 → Reader α) (rest : List UInt8) :
    (big 128 16 >>= f) (bigEndian 16 x.toNat ++ rest) = f x rest := bind_big (by norm_num) x f rest

theorem bind_uint512 (x : BitVec 512) (f : BitVec 512 → Reader α) (rest : List UInt8) :
    (big 512 64 >>= f) (bigEndian 64 x.toNat ++ rest) = f x rest := bind_big (by norm_num) x f rest

theorem bind_uint64 (x : BitVec 64) (f : BitVec 64 → Reader α) (rest : List UInt8) :
    (big 64 8 >>= f) (bigEndian 8 x.toNat ++ rest) = f x rest := bind_big (by norm_num) x f rest

theorem bind_native64 (x : BitVec 64) (f : BitVec 64 → Reader α) (rest : List UInt8) :
    (little 64 8 >>= f) (littleEndian 8 x.toNat ++ rest) = f x rest :=
  bind_little (by norm_num) x f rest

end Reader

/-! ## Blocks -/

/-- `block::serialize` -/
def Block.serialize : Block → List UInt8
  | .sendBlock b =>
    bigEndian 32 b.hashables.previous.toNat ++ bigEndian 32 b.hashables.destination.toNat ++
    bigEndian 16 b.hashables.balance.toNat ++ bigEndian 64 b.signature.toNat ++
    littleEndian 8 b.work.toNat
  | .receiveBlock b =>
    bigEndian 32 b.hashables.previous.toNat ++ bigEndian 32 b.hashables.source.toNat ++
    bigEndian 64 b.signature.toNat ++ littleEndian 8 b.work.toNat
  | .openBlock b =>
    bigEndian 32 b.hashables.source.toNat ++ bigEndian 32 b.hashables.representative.toNat ++
    bigEndian 32 b.hashables.account.toNat ++ bigEndian 64 b.signature.toNat ++
    littleEndian 8 b.work.toNat
  | .changeBlock b =>
    bigEndian 32 b.hashables.previous.toNat ++ bigEndian 32 b.hashables.representative.toNat ++
    bigEndian 64 b.signature.toNat ++ littleEndian 8 b.work.toNat
  | .stateBlock b =>
    bigEndian 32 b.hashables.account.toNat ++ bigEndian 32 b.hashables.previous.toNat ++
    bigEndian 32 b.hashables.representative.toNat ++ bigEndian 16 b.hashables.balance.toNat ++
    bigEndian 32 b.hashables.link.toNat ++ bigEndian 64 b.signature.toNat ++
    bigEndian 8 b.work.toNat

/-- The `size` of each kind of block. -/
def BlockType.size : BlockType → ℕ
  | .send => 32 + 32 + 16 + 64 + 8
  | .receive => 32 + 32 + 64 + 8
  | .open => 32 + 32 + 32 + 64 + 8
  | .change => 32 + 32 + 64 + 8
  | .state => 32 + 32 + 32 + 16 + 32 + 64 + 8

theorem length_serialize (b : Block) : b.serialize.length = b.type.size := by
  cases b <;> simp [serialize, littleEndian, type, BlockType.size]

/-- `serialize_block`: the type and the block. -/
def serializeBlock (b : Block) : List UInt8 := UInt8.ofNat b.type.code :: b.serialize

/-- `deserialize_block` for a block of known type. -/
def deserializeBlock : BlockType → Reader Block
  | .send => do
    let previous ← Reader.big 256 32
    let destination ← Reader.big 256 32
    let balance ← Reader.big 128 16
    let signature ← Reader.big 512 64
    let work ← Reader.little 64 8
    return .sendBlock ⟨⟨previous, destination, balance⟩, signature, work⟩
  | .receive => do
    let previous ← Reader.big 256 32
    let source ← Reader.big 256 32
    let signature ← Reader.big 512 64
    let work ← Reader.little 64 8
    return .receiveBlock ⟨⟨previous, source⟩, signature, work⟩
  | .open => do
    let source ← Reader.big 256 32
    let representative ← Reader.big 256 32
    let account ← Reader.big 256 32
    let signature ← Reader.big 512 64
    let work ← Reader.little 64 8
    return .openBlock ⟨⟨source, representative, account⟩, signature, work⟩
  | .change => do
    let previous ← Reader.big 256 32
    let representative ← Reader.big 256 32
    let signature ← Reader.big 512 64
    let work ← Reader.little 64 8
    return .changeBlock ⟨⟨previous, representative⟩, signature, work⟩
  | .state => do
    let account ← Reader.big 256 32
    let previous ← Reader.big 256 32
    let representative ← Reader.big 256 32
    let balance ← Reader.big 128 16
    let link ← Reader.big 256 32
    let signature ← Reader.big 512 64
    let work ← Reader.big 64 8
    return .stateBlock ⟨⟨account, previous, representative, balance, link⟩, signature, work⟩

/-- **Round trip.** A block that is written is read back. -/
theorem deserializeBlock_serialize (b : Block) (rest : List UInt8) :
    deserializeBlock b.type (b.serialize ++ rest) = some (b, rest) := by
  cases b <;>
    simp only [serialize, type, deserializeBlock, List.append_assoc,
      Reader.bind_uint256, Reader.bind_uint128, Reader.bind_uint512, Reader.bind_uint64,
      Reader.bind_native64] <;>
    rfl

/-- What is read as a block of a type is that block as it is written. -/
theorem serialize_deserializeBlock {type : BlockType} {stream rest : List UInt8} {b : Block}
    (h : deserializeBlock type stream = some (b, rest)) :
    b.type = type ∧ stream = b.serialize ++ rest := by
  have h256 : 256 = 8 * 32 := by norm_num
  have h128 : 128 = 8 * 16 := by norm_num
  have h512 : 512 = 8 * 64 := by norm_num
  have h64 : 64 = 8 * 8 := by norm_num
  cases type <;>
    simp only [deserializeBlock, Reader.bind_big_eq_some h256, Reader.bind_big_eq_some h128,
      Reader.bind_big_eq_some h512, Reader.bind_big_eq_some h64, Reader.bind_little_eq_some h64,
      Reader.pure_eq_some] at h
  case send =>
    obtain ⟨previous, _, h₁, destination, _, h₂, balance, _, h₃, signature, _, h₄, work, _, h₅, hb,
      hrest⟩ := h
    subst hb hrest
    refine ⟨rfl, ?_⟩
    simp only [serialize, List.append_assoc, h₁, h₂, h₃, h₄, h₅]
  case receive =>
    obtain ⟨previous, _, h₁, source, _, h₂, signature, _, h₃, work, _, h₄, hb, hrest⟩ := h
    subst hb hrest
    refine ⟨rfl, ?_⟩
    simp only [serialize, List.append_assoc, h₁, h₂, h₃, h₄]
  case «open» =>
    obtain ⟨source, _, h₁, representative, _, h₂, account, _, h₃, signature, _, h₄, work, _, h₅, hb,
      hrest⟩ := h
    subst hb hrest
    refine ⟨rfl, ?_⟩
    simp only [serialize, List.append_assoc, h₁, h₂, h₃, h₄, h₅]
  case change =>
    obtain ⟨previous, _, h₁, representative, _, h₂, signature, _, h₃, work, _, h₄, hb, hrest⟩ := h
    subst hb hrest
    refine ⟨rfl, ?_⟩
    simp only [serialize, List.append_assoc, h₁, h₂, h₃, h₄]
  case state =>
    obtain ⟨account, _, h₁, previous, _, h₂, representative, _, h₃, balance, _, h₄, link, _, h₅,
      signature, _, h₆, work, _, h₇, hb, hrest⟩ := h
    subst hb hrest
    refine ⟨rfl, ?_⟩
    simp only [serialize, List.append_assoc, h₁, h₂, h₃, h₄, h₅, h₆, h₇]

end RaiBlocks
