import RaiBlocks.Node.Messages

/-!
# What the stream constructors accept

They accept what `serialize` writes: one equivalence for each of them says which texts give
which value. The words in front of the block of a vote have a fixed size, and with the words
there, the stream constructor of a vote fails only for a type of block that there is not.
The functions of `message_parser` are all alike, and what one of them does is a function of what
its constructor has read.
-/

namespace RaiBlocks

open Foundation Parser Reader Message Packet Vote BlockType

/-! ## Words -/

namespace Packet

variable {text rest : List UInt8}

theorem yields_uint8 {x : Uint8} :
    uint8.parse text = .ok (some x, rest) ↔ text = littleEndian 1 x.toNat ++ rest :=
  yields_ofReader.trans (little_eq_some (by norm_num))

theorem yields_uint16 {x : Uint16} :
    uint16.parse text = .ok (some x, rest) ↔ text = littleEndian 2 x.toNat ++ rest :=
  yields_ofReader.trans (little_eq_some (by norm_num))

theorem yields_uint32 {x : Uint32} :
    uint32.parse text = .ok (some x, rest) ↔ text = littleEndian 4 x.toNat ++ rest :=
  yields_ofReader.trans (little_eq_some (by norm_num))

theorem yields_uint64 {x : Uint64} :
    uint64.parse text = .ok (some x, rest) ↔ text = littleEndian 8 x.toNat ++ rest :=
  yields_ofReader.trans (little_eq_some (by norm_num))

theorem yields_uint128 {x : Uint128} :
    uint128.parse text = .ok (some x, rest) ↔ text = bigEndian 16 x.toNat ++ rest :=
  yields_ofReader.trans (big_eq_some (by norm_num))

theorem yields_uint256 {x : Uint256} :
    uint256.parse text = .ok (some x, rest) ↔ text = bigEndian 32 x.toNat ++ rest :=
  yields_ofReader.trans (big_eq_some (by norm_num))

theorem yields_uint512 {x : BitVec 512} :
    uint512.parse text = .ok (some x, rest) ↔ text = bigEndian 64 x.toNat ++ rest :=
  yields_ofReader.trans (big_eq_some (by norm_num))

end Packet

/-! ## What the constructors accept -/

section Exact

variable {text rest : List UInt8} {network : RaiNetworks}

theorem BlockType.ofCode_eq_some {n : ℕ} {type : BlockType} :
    ofCode n = some type ↔ n = type.code := by
  constructor
  · intro h
    unfold ofCode at h
    split at h <;> first | cases h; rfl | cases h
  · rintro rfl
    cases type <;> rfl

theorem BlockType.isSome_ofCode {n : ℕ} : (ofCode n).isSome = true ↔ 2 ≤ n ∧ n ≤ 6 := by
  rw [Option.isSome_iff_exists]
  simp only [ofCode_eq_some]
  constructor
  · rintro ⟨type, rfl⟩
    cases type <;> decide
  · rintro ⟨h2, h6⟩
    interval_cases n
    · exact ⟨.send, rfl⟩
    · exact ⟨.receive, rfl⟩
    · exact ⟨.open, rfl⟩
    · exact ⟨.change, rfl⟩
    · exact ⟨.state, rfl⟩

theorem MessageHeader.yields_deserialize {h : MessageHeader} :
    (deserialize network).parse text = .ok (some h, rest) ↔ text = h.serialize network ++ rest := by
  simp only [deserialize, yields_bind, yields_take, yields_check,
    yields_uint8, yields_uint16, yields_pure, decide_eq_true_eq]
  constructor
  · rintro ⟨magic, _, ⟨-, h₁⟩, _, _, ⟨hmagic, h₂⟩, versionMax, _, h₃, versionUsing, _, h₄,
      versionMin, _, h₅, type, _, h₆, extensions, _, h₇, rfl, rfl⟩
    simp only [serialize, List.append_assoc, h₁, hmagic, h₂, h₃, h₄, h₅, h₆, h₇]
  · intro h
    have hmagic : (magicNumber network).length = 2 := by cases network <;> rfl
    refine ⟨_, _, ⟨hmagic, ?_⟩, (), _, ⟨rfl, rfl⟩, _, _, rfl, _, _, rfl, _, _, rfl, _, _, rfl, _, _,
      rfl, rfl, rfl⟩
    rw [h]
    simp only [serialize, List.append_assoc]

theorem MessageHeader.blockType_blockTypeSet (h : MessageHeader) (type : BlockType) :
    (h.blockTypeSet type).blockType = type.code := by
  have hmask : ∀ e k m : Uint16, (e &&& ~~~m ||| k) &&& m = k &&& m := by
    intro e k m
    ext i hi
    simp only [BitVec.getElem_and, BitVec.getElem_or, BitVec.getElem_not]
    cases e[i] <;> cases k[i] <;> cases m[i] <;> rfl
  simp only [blockTypeSet, blockType, hmask]
  cases type <;> decide

theorem yields_deserializeBlockOf {code : ℕ} {b : Block} :
    (deserializeBlockOf code).parse text = .ok (some b, rest) ↔
      code = b.type.code ∧ text = b.serialize ++ rest := by
  unfold deserializeBlockOf
  cases hcode : ofCode code with
  | none =>
    refine iff_of_false (fun h => by cases h) ?_
    rintro ⟨rfl, -⟩
    rw [ofCode_eq_some.mpr rfl] at hcode
    cases hcode
  | some type =>
    obtain rfl := ofCode_eq_some.mp hcode
    rw [yields_ofReader]
    constructor
    · intro h
      obtain ⟨rfl, htext⟩ := serialize_deserializeBlock h
      exact ⟨rfl, htext⟩
    · rintro ⟨hb, rfl⟩
      have htype := ofCode_eq_some.mpr hb
      obtain rfl : type = b.type := Option.some.inj (hcode.symm.trans htype)
      exact deserializeBlock_serialize b rest

theorem Vote.yields_deserialize {code : ℕ} {v : Vote} :
    (deserialize code).parse text = .ok (some v, rest) ↔
      code = v.block.type.code ∧ text = v.serialize ++ rest := by
  simp only [deserialize, yields_bind, yields_uint256, yields_uint512,
    yields_uint64, yields_deserializeBlockOf, yields_pure]
  constructor
  · rintro ⟨account, _, h₁, signature, _, h₂, sequence, _, h₃, block, _, ⟨hcode, h₄⟩, rfl, rfl⟩
    refine ⟨hcode, ?_⟩
    simp only [serialize, List.append_assoc, h₁, h₂, h₃, h₄]
  · rintro ⟨hcode, htext⟩
    refine ⟨v.account, _, ?_, v.signature, _, rfl, v.sequence, _, rfl, v.block, _,
      ⟨hcode, rfl⟩, rfl, rfl⟩
    rw [htext]
    simp only [serialize, List.append_assoc]

def UdpEndpoint.scopeId : UdpEndpoint → ℕ
  | .v4 _ _ => 0
  | .v6 e => e.address.scopeId

theorem UdpEndpoint.yields_deserialize {e : UdpEndpoint} :
    deserialize.parse text = .ok (some e, rest) ↔
      e.scopeId = 0 ∧ ∃ bytes, e.serialize = .ok bytes ∧ text = bytes ++ rest := by
  simp only [deserialize, yields_bind, yields_uint128, yields_uint16, yields_pure]
  constructor
  · rintro ⟨address, _, h₁, port, _, h₂, rfl, rfl⟩
    refine ⟨rfl, _, rfl, ?_⟩
    rw [h₁, h₂, List.append_assoc]
  · rintro ⟨hscope, bytes, hbytes, htext⟩
    cases e with
    | v4 bytes port => cases hbytes
    | v6 e =>
      obtain ⟨⟨address, scopeId⟩, port⟩ := e
      obtain rfl : scopeId = 0 := hscope
      refine ⟨address, _, ?_, port, _, rfl, rfl, rfl⟩
      rw [htext, ← Except.ok.inj hbytes, List.append_assoc]

theorem UdpEndpoint.yields_deserializeAll {n : ℕ} {peers : List.Vector UdpEndpoint n} :
    (deserializeAll n).parse text = .ok (some peers, rest) ↔
      (∀ e ∈ peers.toList, e.scopeId = 0) ∧
        ∃ bytes, serializeAll peers.toList = .ok bytes ∧ text = bytes ++ rest := by
  induction n generalizing text rest with
  | zero =>
    obtain rfl := List.Vector.eq_nil peers
    rw [deserializeAll, yields_pure]
    constructor
    · rintro ⟨-, rfl⟩
      exact ⟨by simp, [], rfl, rfl⟩
    · rintro ⟨-, bytes, hbytes, rfl⟩
      obtain rfl := Except.ok.inj hbytes
      exact ⟨rfl, rfl⟩
  | succ n ih =>
    obtain ⟨e, peers, rfl⟩ := peers.exists_eq_cons
    simp only [deserializeAll, yields_bind, yields_deserialize, ih, yields_pure]
    rw [List.Vector.toList_cons, serializeAll, List.forall_mem_cons]
    constructor
    · rintro ⟨e', _, ⟨hscope, bytes, he, rfl⟩, peers', _, ⟨hscopes, bytes', hpeers, rfl⟩, heq, rfl⟩
      obtain rfl : e = e' := by simpa using congrArg List.Vector.head heq
      obtain rfl : peers = peers' := by simpa using congrArg List.Vector.tail heq
      refine ⟨⟨hscope, hscopes⟩, bytes ++ bytes', ?_, (List.append_assoc ..).symm⟩
      rw [he, hpeers]
      rfl
    · rintro ⟨⟨hscope, hscopes⟩, bytes, hbytes, rfl⟩
      obtain ⟨first, he, hbytes⟩ := bind_eq_ok hbytes
      obtain ⟨others, hpeers, hbytes⟩ := bind_eq_ok hbytes
      obtain rfl := Except.ok.inj hbytes
      exact ⟨e, _, ⟨hscope, first, he, List.append_assoc ..⟩, peers, _,
        ⟨hscopes, others, hpeers, rfl⟩, rfl, rfl⟩

namespace Message

variable {m : Message}

/-- The header belongs to the rest: it has the type of the message, and the type of
its block if it has one. -/
structure Formed (m : Message) : Prop where
  type : m.header.type = m.body.type.code
  blockType : ∀ b, m.body.block = some b → m.header.blockType = b.type.code

/-- No peer in the message has a scope id. -/
def Unscoped (m : Message) : Prop :=
  ∀ peers, m.body = .keepalive peers → ∀ e ∈ peers.toList, e.scopeId = 0

/-- The constructors of new messages make formed ones. -/
theorem formed_ofBody (body : Body) : (ofBody body).Formed := by
  cases hblock : body.block with
  | none =>
    have heq : ofBody body = ⟨.ofType body.type, body⟩ := by rw [ofBody, hblock]
    rw [heq]
    exact ⟨rfl, fun b hb => by rw [hblock] at hb; cases hb⟩
  | some b =>
    have heq : ofBody body = ⟨(MessageHeader.ofType body.type).blockTypeSet b.type, body⟩ := by
      rw [ofBody, hblock]
    rw [heq]
    refine ⟨rfl, fun b' hb' => ?_⟩
    obtain rfl : b = b' := Option.some.inj (hblock.symm.trans hb')
    exact MessageHeader.blockType_blockTypeSet _ _

/-- What is read after a header is what is written after it. -/
theorem of_deserialize {type : MessageType} {header : MessageHeader}
    (htype : header.type = type.code)
    (h : (deserialize type header).parse text = .ok (some m, rest)) :
    m.header = header ∧ m.body.type = type ∧ m.Formed ∧
      ∃ bytes, m.body.serialize = .ok bytes ∧ text = bytes ++ rest := by
  cases type with
  | keepalive =>
    simp only [deserialize, Keepalive.deserialize, yields_bind,
      yields_require, UdpEndpoint.yields_deserializeAll, yields_pure] at h
    obtain ⟨_, _, ⟨-, rfl⟩, peers, _, ⟨-, bytes, hbytes, htext⟩, rfl, rfl⟩ := h
    exact ⟨rfl, rfl, ⟨htype, fun b hb => by cases hb⟩, bytes, hbytes, htext⟩
  | publish =>
    simp only [deserialize, Publish.deserialize, yields_bind,
      yields_require, yields_deserializeBlockOf, yields_pure] at h
    obtain ⟨_, _, ⟨-, rfl⟩, block, _, ⟨hcode, htext⟩, rfl, rfl⟩ := h
    exact ⟨rfl, rfl, ⟨htype, fun b hb => Option.some.inj hb ▸ hcode⟩, _, rfl, htext⟩
  | confirmReq =>
    simp only [deserialize, ConfirmReq.deserialize, yields_bind,
      yields_require, yields_deserializeBlockOf, yields_pure] at h
    obtain ⟨_, _, ⟨-, rfl⟩, block, _, ⟨hcode, htext⟩, rfl, rfl⟩ := h
    exact ⟨rfl, rfl, ⟨htype, fun b hb => Option.some.inj hb ▸ hcode⟩, _, rfl, htext⟩
  | confirmAck =>
    simp only [deserialize, ConfirmAck.deserialize, yields_bind,
      yields_deserialize, yields_pure] at h
    obtain ⟨vote, _, ⟨hcode, htext⟩, rfl, rfl⟩ := h
    exact ⟨rfl, rfl, ⟨htype, fun b hb => Option.some.inj hb ▸ hcode⟩, _, rfl, htext⟩
  | frontierReq =>
    simp only [deserialize, FrontierReq.deserialize, yields_bind,
      yields_require, yields_uint256, yields_uint32, yields_pure] at h
    obtain ⟨_, _, ⟨-, rfl⟩, start, _, h₁, age, _, h₂, count, _, h₃, rfl, rfl⟩ := h
    refine ⟨rfl, rfl, ⟨htype, fun b hb => by cases hb⟩, _, rfl, ?_⟩
    simp only [List.append_assoc, h₁, h₂, h₃]
  | bulkPull =>
    simp only [deserialize, BulkPull.deserialize, yields_bind,
      yields_require, yields_uint256, yields_pure] at h
    obtain ⟨_, _, ⟨-, rfl⟩, start, _, h₁, endHash, _, h₂, rfl, rfl⟩ := h
    refine ⟨rfl, rfl, ⟨htype, fun b hb => by cases hb⟩, _, rfl, ?_⟩
    simp only [List.append_assoc, h₁, h₂]
  | bulkPullBlocks =>
    simp only [deserialize, BulkPullBlocks.deserialize, yields_bind,
      yields_require, yields_uint256, yields_uint8, yields_uint32, yields_pure] at h
    obtain ⟨_, _, ⟨-, rfl⟩, minHash, _, h₁, maxHash, _, h₂, mode, _, h₃, maxCount, _, h₄, rfl,
      rfl⟩ := h
    refine ⟨rfl, rfl, ⟨htype, fun b hb => by cases hb⟩, _, rfl, ?_⟩
    simp only [List.append_assoc, h₁, h₂, h₃, h₄]
  | _ =>
    have hnone : Except.ok (none, text) = Except.ok (some m, rest) := h
    cases hnone

theorem deserialize_serialize {bytes : List UInt8} (hm : m.Formed) (hscope : m.Unscoped)
    (hbytes : m.body.serialize = .ok bytes) (rest : List UInt8) :
    (deserialize m.body.type m.header).parse (bytes ++ rest) = .ok (some m, rest) := by
  obtain ⟨header, body⟩ := m
  obtain ⟨htype, hblock⟩ := hm
  have hrequire : decide (header.type = body.type.code) = true := decide_eq_true htype
  cases body with
  | keepalive peers =>
    simp only [Body.type, deserialize, Keepalive.deserialize, yields_bind,
      yields_require, UdpEndpoint.yields_deserializeAll, yields_pure]
    exact ⟨(), _, ⟨hrequire, rfl⟩, peers, _, ⟨hscope peers rfl, bytes, hbytes, rfl⟩, rfl, rfl⟩
  | publish block =>
    obtain rfl := Except.ok.inj hbytes
    simp only [Body.type, deserialize, Publish.deserialize, yields_bind,
      yields_require, yields_deserializeBlockOf, yields_pure]
    exact ⟨(), _, ⟨hrequire, rfl⟩, block, _, ⟨hblock _ rfl, rfl⟩, rfl, rfl⟩
  | confirmReq block =>
    obtain rfl := Except.ok.inj hbytes
    simp only [Body.type, deserialize, ConfirmReq.deserialize, yields_bind,
      yields_require, yields_deserializeBlockOf, yields_pure]
    exact ⟨(), _, ⟨hrequire, rfl⟩, block, _, ⟨hblock _ rfl, rfl⟩, rfl, rfl⟩
  | confirmAck vote =>
    obtain rfl := Except.ok.inj hbytes
    simp only [Body.type, deserialize, ConfirmAck.deserialize, yields_bind,
      yields_deserialize, yields_pure]
    exact ⟨vote, _, ⟨hblock _ rfl, rfl⟩, rfl, rfl⟩
  | frontierReq start age count =>
    rw [← Except.ok.inj hbytes]
    simp only [Body.type, deserialize, FrontierReq.deserialize, yields_bind,
      yields_require, yields_uint256, yields_uint32, yields_pure, List.append_assoc]
    exact ⟨(), _, ⟨hrequire, rfl⟩, start, _, rfl, age, _, rfl, count, _, rfl, rfl, rfl⟩
  | bulkPull start endHash =>
    rw [← Except.ok.inj hbytes]
    simp only [Body.type, deserialize, BulkPull.deserialize, yields_bind,
      yields_require, yields_uint256, yields_pure, List.append_assoc]
    exact ⟨(), _, ⟨hrequire, rfl⟩, start, _, rfl, endHash, _, rfl, rfl, rfl⟩
  | bulkPullBlocks minHash maxHash mode maxCount =>
    rw [← Except.ok.inj hbytes]
    simp only [Body.type, deserialize, BulkPullBlocks.deserialize, yields_bind,
      yields_require, yields_uint256, yields_uint8, yields_uint32, yields_pure, List.append_assoc]
    exact ⟨(), _, ⟨hrequire, rfl⟩, minHash, _, rfl, maxHash, _, rfl, mode, _, rfl, maxCount, _, rfl,
      rfl, rfl⟩

theorem assertBlockType_eq (hm : m.Formed) : m.assertBlockType = .ok () := by
  unfold assertBlockType
  cases hbody : m.body with
  | confirmAck vote =>
    have hcode := hm.blockType vote.block (by rw [hbody]; rfl)
    rw [hcode, ofCode_eq_some.mpr rfl]
    rfl
  | _ => rfl

/-- `serialize` writes the header and the rest. -/
theorem serialize_eq_ok (hm : m.Formed) {bytes : List UInt8} :
    m.serialize network = .ok bytes ↔
      ∃ body, m.body.serialize = .ok body ∧ bytes = m.header.serialize network ++ body := by
  unfold serialize
  rw [assertBlockType_eq hm, ok_bind]
  constructor
  · intro h
    obtain ⟨body, hbody, h⟩ := bind_eq_ok h
    exact ⟨body, hbody, (Except.ok.inj h).symm⟩
  · rintro ⟨body, hbody, rfl⟩
    rw [hbody]
    rfl

end Message

end Exact

/-! ## What the parser accepts -/

namespace MessageParser

variable {p : NodeEnv} {incoming : Packet Message} {insufficient : Message → Bool}
  {invalid : ParseStatus} {stream buffer : List UInt8} {parser : MessageParser} {m : Message}

/-- The parser after a message has been read or refused, and the rest of the stream
is as given. -/
def outcome (insufficient : Message → Bool) (invalid : ParseStatus) :
    Option Message → List UInt8 → MessageParser
  | some m, [] => if insufficient m then ⟨.insufficientWork, [], []⟩ else ⟨.success, [m], []⟩
  | some _, _ :: rest => ⟨invalid, [], rest⟩
  | none, rest => ⟨invalid, [], rest⟩

theorem outcome_all (m : Message) : outcome insufficient invalid (some m) [] =
    if insufficient m then ⟨.insufficientWork, [], []⟩ else ⟨.success, [m], []⟩ := rfl

theorem deserializeWith_eq {x : Option Message} {rest : List UInt8}
    (h : incoming.parse stream = .ok (x, rest)) :
    deserializeWith incoming insufficient invalid stream =
      .ok (outcome insufficient invalid x rest) := by
  unfold deserializeWith
  rw [h, ok_bind]
  cases x with
  | none => rfl
  | some m =>
    cases rest with
    | cons byte rest => rfl
    | nil =>
      change (if insufficient m = true then Except.ok _ else Except.ok _) =
        Except.ok (if insufficient m = true then _ else _)
      split <;> rfl

theorem outcome_unread (x : Option Message) (rest : List UInt8) :
    (outcome insufficient invalid x rest).unread <:+ rest := by
  cases x with
  | none => exact List.suffix_refl _
  | some m =>
    cases rest with
    | cons byte rest => exact List.suffix_cons byte rest
    | nil =>
      rw [outcome_all]
      split <;> exact List.suffix_refl _

/-- The visitor is called once if the status is success, and else not at all. -/
theorem outcome_visited (hinvalid : invalid ≠ .success) (x : Option Message) (rest : List UInt8) :
    (outcome insufficient invalid x rest).visited.length = 1 ↔
      (outcome insufficient invalid x rest).status = .success := by
  cases x with
  | none => exact iff_of_false Nat.zero_ne_one hinvalid
  | some m =>
    cases rest with
    | cons byte rest => exact iff_of_false Nat.zero_ne_one hinvalid
    | nil =>
      rw [outcome_all]
      split
      · exact iff_of_false Nat.zero_ne_one (by decide)
      · exact iff_of_true rfl rfl

/-- With success, the visitor was given the message, and it takes up the stream. -/
theorem of_outcome_success (hinvalid : invalid ≠ .success) {x : Option Message}
    {rest : List UInt8} (h : (outcome insufficient invalid x rest).status = .success) :
    ∃ m, x = some m ∧ rest = [] ∧ (outcome insufficient invalid x rest).visited = [m] := by
  cases x with
  | none => exact absurd h hinvalid
  | some m =>
    cases rest with
    | cons byte rest => exact absurd h hinvalid
    | nil =>
      refine ⟨m, rfl, rfl, ?_⟩
      rw [outcome_all] at h ⊢
      split_ifs at h ⊢
      rfl

/-- The four classes the parser knows, with the test of each. -/
inductive Handles (p : NodeEnv) : MessageType → (Message → Bool) → ParseStatus → Prop
  | keepalive : Handles p .keepalive (fun _ => false) .invalidKeepaliveMessage
  | publish : Handles p .publish (workless p) .invalidPublishMessage
  | confirmReq : Handles p .confirmReq (workless p) .invalidConfirmReqMessage
  | confirmAck : Handles p .confirmAck (workless p) .invalidConfirmAckMessage

theorem Handles.invalid_ne {type : MessageType} (h : Handles p type insufficient invalid) :
    invalid ≠ .success := by
  cases h <;> decide

theorem deserializeBuffer_header {header : MessageHeader}
    (hheader : (MessageHeader.deserialize p.network).parse buffer = .ok (some header, stream)) :
    (∃ type insufficient invalid, Handles p type insufficient invalid ∧ header.type = type.code ∧
      deserializeBuffer p buffer =
        deserializeWith (deserialize type header) insufficient invalid stream) ∨
    (∀ type insufficient invalid, Handles p type insufficient invalid → header.type ≠ type.code) ∧
      deserializeBuffer p buffer = .ok ⟨.invalidMessageType, [], stream⟩ := by
  unfold deserializeBuffer
  rw [hheader, ok_bind]
  by_cases h₁ : header.type = MessageType.keepalive.code
  · exact Or.inl ⟨_, _, _, .keepalive, h₁, if_pos h₁⟩
  by_cases h₂ : header.type = MessageType.publish.code
  · exact Or.inl ⟨_, _, _, .publish, h₂, (if_neg h₁).trans (if_pos h₂)⟩
  by_cases h₃ : header.type = MessageType.confirmReq.code
  · exact Or.inl ⟨_, _, _, .confirmReq, h₃, (if_neg h₁).trans ((if_neg h₂).trans (if_pos h₃))⟩
  by_cases h₄ : header.type = MessageType.confirmAck.code
  · exact Or.inl ⟨_, _, _, .confirmAck, h₄,
      (if_neg h₁).trans ((if_neg h₂).trans ((if_neg h₃).trans (if_pos h₄)))⟩
  · refine Or.inr ⟨fun type insufficient invalid hhandles => ?_,
      (if_neg h₁).trans ((if_neg h₂).trans ((if_neg h₃).trans (if_neg h₄)))⟩
    cases hhandles <;> assumption

end MessageParser

/-! ## Votes -/

section Votes

variable {α : Type} {n : ℕ} {text : List UInt8}

/-- The reader takes `n` bytes, whatever they are. -/
def Reader.Sized (r : Reader α) (n : ℕ) : Prop :=
  ∀ stream, if n ≤ stream.length then ∃ a, r stream = some (a, stream.drop n) else r stream = none

theorem Reader.sized_bytes (n : ℕ) (f : List UInt8 → α) :
    Sized (do return f (← bytes n)) n := by
  intro stream
  show if n ≤ stream.length then ∃ a, (bytes n stream >>= _) = _ else
    (bytes n stream >>= _) = none
  unfold bytes
  split
  · exact ⟨_, rfl⟩
  · rfl

theorem Reader.sized_big (w n : ℕ) : (big w n).Sized n := sized_bytes n _

theorem Reader.sized_little (w n : ℕ) : (little w n).Sized n := sized_bytes n _

theorem Reader.Sized.parse_short {r : Reader α} (hr : r.Sized n) (text : List UInt8)
    (hn : text.length < n) : (ofReader r : Packet α).parse text = .ok (none, []) := by
  have hread := hr text
  rw [if_neg (by omega)] at hread
  exact parse_ofReader_none hread

theorem Reader.Sized.parse_long {r : Reader α} (hr : r.Sized n) (text : List UInt8)
    (hn : n ≤ text.length) :
    ∃ a, (ofReader r : Packet α).parse text = .ok (some a, text.drop n) := by
  have hread := hr text
  rw [if_pos hn] at hread
  obtain ⟨a, hread⟩ := hread
  exact ⟨a, yields_ofReader.mpr hread⟩

/-- The bytes of a vote before its block. -/
def Vote.preambleSize : ℕ := 32 + 64 + 8

theorem Vote.parse_deserialize_short (hshort : text.length < preambleSize) (code : ℕ) :
    (deserialize code).parse text = .ok (none, []) := by
  unfold preambleSize at hshort
  unfold deserialize
  by_cases hn : text.length < 32
  · exact parse_bind_of_refuses ((sized_big 256 32).parse_short text hn)
  obtain ⟨account, haccount⟩ := (sized_big 256 32).parse_long text (by omega)
  refine (parse_bind_of_yields haccount).trans ?_
  by_cases hn : text.length < 96
  · refine parse_bind_of_refuses ((sized_big 512 64).parse_short _ ?_)
    rw [List.length_drop]
    omega
  obtain ⟨signature, hsignature⟩ := (sized_big 512 64).parse_long (text.drop 32)
    (by rw [List.length_drop]; omega)
  refine (parse_bind_of_yields hsignature).trans ?_
  refine parse_bind_of_refuses ((sized_little 64 8).parse_short _ ?_)
  rw [List.length_drop, List.length_drop]
  omega

/-- Behind the words the stream goes on with the block. -/
theorem Vote.parse_deserialize_long (hlong : preambleSize ≤ text.length) :
    ∃ account signature sequence, ∀ code, (deserialize code).parse text =
      (deserializeBlockOf code >>= fun block =>
        pure (⟨sequence, block, account, signature⟩ : Vote)).parse (text.drop preambleSize) := by
  unfold preambleSize at hlong ⊢
  obtain ⟨account, haccount⟩ := (sized_big 256 32).parse_long text (by omega)
  obtain ⟨signature, hsignature⟩ := (sized_big 512 64).parse_long (text.drop 32)
    (by rw [List.length_drop]; omega)
  obtain ⟨sequence, hsequence⟩ := (sized_little 64 8).parse_long ((text.drop 32).drop 64)
    (by rw [List.length_drop, List.length_drop]; omega)
  refine ⟨account, signature, sequence, fun code => ?_⟩
  unfold deserialize
  refine (parse_bind_of_yields haccount).trans ?_
  refine (parse_bind_of_yields hsignature).trans ?_
  refine (parse_bind_of_yields hsequence).trans ?_
  rw [List.drop_drop, List.drop_drop]

theorem Vote.preambleSize_le_length (v : Vote) : preambleSize ≤ v.serialize.length := by
  unfold serialize littleEndian preambleSize
  simp only [List.length_append, List.length_reverse, length_bigEndian]
  omega

/-- The stream constructor fails only for a type of block that it does not know. -/
theorem Vote.parse_deserialize_error {code : ℕ} (hlong : preambleSize ≤ text.length) :
    (deserialize code).parse text = .error .assertion ↔ ofCode code = none := by
  obtain ⟨account, signature, sequence, hparse⟩ := parse_deserialize_long hlong
  rw [hparse, parse_bind]
  unfold deserializeBlockOf
  cases ofCode code with
  | none => exact iff_of_true rfl rfl
  | some type =>
    refine iff_of_false ?_ (by simp)
    show ¬ (parse (ofReader (deserializeBlock type)) _ >>= _) = _
    cases hread : deserializeBlock type (text.drop preambleSize) with
    | none =>
      rw [parse_ofReader_none hread]
      intro h
      cases h
    | some x =>
      rw [yields_ofReader.mpr hread]
      intro h
      cases h

end Votes

namespace PacketSample

def env : NodeEnv := ⟨⟨fun _ => 0, fun _ _ _ => false, .raiLiveNetwork, false⟩, fun _ _ => 0⟩

end PacketSample

end RaiBlocks
