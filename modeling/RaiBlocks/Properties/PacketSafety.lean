import RaiBlocks.Node.Codecs

/-!
# Safety of the packet parser

Every read stays within the buffer and every assertion but one holds, whatever the
buffer. The exception is the `default` in `deserialize_block`: a packet with a block
names its type in four bits of the header, nothing checks them before, and eleven of
the sixteen values are no type of block.
-/

namespace RaiBlocks

open Foundation Parser Packet BlockType

/-! ## Readers that stay within the text -/

section Reading

variable {text : List UInt8}

theorem Packet.safe_little {w n : ℕ} (hw : w = 8 * n) (text : List UInt8) :
    (ofReader (Reader.little w n) : Packet (BitVec w)).Safe text :=
  safe_ofReader fun _ _ h => ⟨_, ((Reader.little_eq_some hw).mp h).symm⟩

theorem Packet.safe_big {w n : ℕ} (hw : w = 8 * n) (text : List UInt8) :
    (ofReader (Reader.big w n) : Packet (BitVec w)).Safe text :=
  safe_ofReader fun _ _ h => ⟨_, ((Reader.big_eq_some hw).mp h).symm⟩

theorem MessageHeader.safe_deserialize (network : RaiNetworks) (text : List UInt8) :
    (deserialize network).Safe text := by
  refine (safe_take 2 text).bind fun magic _ _ => ?_
  refine (safe_check _ _).bind fun _ _ _ => ?_
  refine (safe_little (by norm_num) _).bind fun versionMax _ _ => ?_
  refine (safe_little (by norm_num) _).bind fun versionUsing _ _ => ?_
  refine (safe_little (by norm_num) _).bind fun versionMin _ _ => ?_
  refine (safe_little (by norm_num) _).bind fun type _ _ => ?_
  refine (safe_little (by norm_num) _).bind fun extensions _ _ => ?_
  exact safe_pure _ _

theorem UdpEndpoint.safe_deserialize (text : List UInt8) : deserialize.Safe text := by
  refine (safe_big (by norm_num) _).bind fun address _ _ => ?_
  refine (safe_little (by norm_num) _).bind fun port _ _ => ?_
  exact safe_pure _ _

theorem UdpEndpoint.safe_deserializeAll (n : ℕ) (text : List UInt8) :
    (deserializeAll n).Safe text := by
  induction n generalizing text with
  | zero => exact safe_pure _ _
  | succ n ih =>
    refine (safe_deserialize text).bind fun e rest _ => ?_
    refine (ih rest).bind fun peers _ _ => ?_
    exact safe_pure _ _

theorem safe_deserializeBlockOf {code : ℕ} (h : (ofCode code).isSome = true)
    (text : List UInt8) : (deserializeBlockOf code).Safe text := by
  obtain ⟨type, htype⟩ := Option.isSome_iff_exists.mp h
  unfold deserializeBlockOf
  rw [htype]
  exact safe_ofReader fun _ _ hread => ⟨_, (serialize_deserializeBlock hread).2.symm⟩

theorem parse_deserializeBlockOf {code : ℕ} (h : ofCode code = none)
    (text : List UInt8) : (deserializeBlockOf code).parse text = .error .assertion := by
  unfold deserializeBlockOf
  rw [h]
  rfl

/-! ## Votes -/

theorem Vote.safe_deserialize {code : ℕ}
    (h : Vote.preambleSize ≤ text.length → (ofCode code).isSome = true) :
    (deserialize code).Safe text := by
  refine (safe_big (by norm_num) _).bind fun account s₁ h₁ => ?_
  refine (safe_big (by norm_num) _).bind fun signature s₂ h₂ => ?_
  refine (safe_little (by norm_num) _).bind fun sequence s₃ h₃ => ?_
  have hlength : Vote.preambleSize ≤ text.length := by
    rw [yields_uint256.mp h₁, yields_uint512.mp h₂, yields_uint64.mp h₃]
    simp only [List.length_append, length_bigEndian, littleEndian, List.length_reverse,
      Vote.preambleSize]
    omega
  refine (safe_deserializeBlockOf (h hlength) _).bind fun block _ _ => ?_
  exact safe_pure _ _

end Reading

/-! ## Messages -/

theorem MessageType.code_inj {a b : MessageType} (h : a.code = b.code) : a = b := by
  cases a <;> cases b <;> first | rfl | (revert h; decide)

namespace MessageParser

variable {p : NodeEnv} {header : MessageHeader} {stream buffer : List UInt8} {type : MessageType}
  {insufficient : Message → Bool} {invalid : ParseStatus}

/-- Reading a message of the type gets to a block. -/
def ReadsBlock (type : MessageType) (stream : List UInt8) : Prop :=
  type = .publish ∨ type = .confirmReq ∨ (type = .confirmAck ∧ Vote.preambleSize ≤ stream.length)

theorem safe_deserialize (hhandles : Handles p type insufficient invalid)
    (htype : header.type = type.code)
    (hblock : ReadsBlock type stream → (ofCode header.blockType).isSome = true) :
    (Message.deserialize type header).Safe stream := by
  cases hhandles with
  | keepalive =>
    refine (safe_require (decide_eq_true htype) _).bind fun _ _ _ => ?_
    refine (UdpEndpoint.safe_deserializeAll 8 _).bind fun peers _ _ => ?_
    exact safe_pure _ _
  | publish =>
    refine (safe_require (decide_eq_true htype) _).bind fun _ _ _ => ?_
    refine (safe_deserializeBlockOf (hblock (Or.inl rfl)) _).bind fun block _ _ => ?_
    exact safe_pure _ _
  | confirmReq =>
    refine (safe_require (decide_eq_true htype) _).bind fun _ _ _ => ?_
    refine (safe_deserializeBlockOf (hblock (Or.inr (Or.inl rfl))) _).bind fun block _ _ => ?_
    exact safe_pure _ _
  | confirmAck =>
    have hvote := Vote.safe_deserialize fun h => hblock (Or.inr (Or.inr ⟨rfl, h⟩))
    refine hvote.bind fun vote _ _ => ?_
    exact safe_pure _ _

theorem parse_deserialize (htype : header.type = type.code) (hreads : ReadsBlock type stream)
    (hblock : ofCode header.blockType = none) :
    (Message.deserialize type header).parse stream = .error .assertion := by
  rcases hreads with rfl | rfl | ⟨rfl, hlength⟩
  · have hrequire := parse_require (e := Fault.assertion) (decide_eq_true htype) stream
    unfold Message.deserialize Publish.deserialize
    rw [parse_bind_of_yields hrequire, parse_bind, parse_deserializeBlockOf hblock, error_bind]
  · have hrequire := parse_require (e := Fault.assertion) (decide_eq_true htype) stream
    unfold Message.deserialize ConfirmReq.deserialize
    rw [parse_bind_of_yields hrequire, parse_bind, parse_deserializeBlockOf hblock, error_bind]
  · unfold Message.deserialize ConfirmAck.deserialize
    rw [parse_bind, (Vote.parse_deserialize_error hlength).mpr hblock, error_bind]

theorem ReadsBlock.handles (h : ReadsBlock type stream) :
    ∃ insufficient invalid, Handles p type insufficient invalid := by
  rcases h with rfl | rfl | ⟨rfl, -⟩
  · exact ⟨_, _, .publish⟩
  · exact ⟨_, _, .confirmReq⟩
  · exact ⟨_, _, .confirmAck⟩

/-- A packet that gets to a block names one of the five types of block. -/
def BlockTypeKnown (p : NodeEnv) (buffer : List UInt8) : Prop :=
  ∀ header stream type,
    (MessageHeader.deserialize p.network).parse buffer = .ok (some header, stream) →
    header.type = type.code → ReadsBlock type stream → 2 ≤ header.blockType ∧ header.blockType ≤ 6

end MessageParser

open MessageParser in
/-- **The parser is safe exactly if the type of block is known.** For every buffer:
the parser returns without a failed assertion, has read nothing but the buffer, and
has called one method of the visitor once if the status is success and only then; if
and only if the buffer does not get to a block of unknown type. -/
theorem packet_parser_safe_iff (p : NodeEnv) (buffer : List UInt8) :
    (∃ parser, deserializeBuffer p buffer = .ok parser ∧ parser.unread <:+ buffer ∧
      (parser.visited.length = 1 ↔ parser.status = .success)) ↔ BlockTypeKnown p buffer := by
  obtain ⟨x, stream, hheader, hsuffix⟩ := MessageHeader.safe_deserialize p.network buffer
  constructor
  · rintro ⟨parser, hparser, -⟩ header stream' type hheader' htype hreads
    rw [← isSome_ofCode]
    by_contra hunknown
    have hfault := parse_deserialize htype hreads (Option.not_isSome_iff_eq_none.mp hunknown)
    rcases deserializeBuffer_header hheader' with
      ⟨type', insufficient, invalid, -, htype', heq⟩ | ⟨hother, -⟩
    · obtain rfl := MessageType.code_inj (htype.symm.trans htype')
      rw [heq, deserializeWith, hfault] at hparser
      cases hparser
    · obtain ⟨insufficient, invalid, hhandles⟩ := hreads.handles (p := p)
      exact hother _ _ _ hhandles htype
  · intro hknown
    cases x with
    | none =>
      refine ⟨⟨.invalidHeader, [], stream⟩, ?_, hsuffix, iff_of_false Nat.zero_ne_one (by simp)⟩
      unfold deserializeBuffer
      rw [hheader]
      rfl
    | some header =>
      rcases deserializeBuffer_header hheader with
        ⟨type, insufficient, invalid, hhandles, htype, heq⟩ | ⟨-, heq⟩
      · obtain ⟨y, rest, hread, hrest⟩ := safe_deserialize hhandles htype fun hreads =>
          isSome_ofCode.mpr (hknown header stream type hheader htype hreads)
        refine ⟨outcome insufficient invalid y rest, heq.trans (deserializeWith_eq hread), ?_,
          outcome_visited hhandles.invalid_ne y rest⟩
        exact ((outcome_unread y rest).trans hrest).trans hsuffix
      · exact ⟨_, heq, hsuffix, iff_of_false Nat.zero_ne_one (by simp)⟩

/-- A header of eight bytes, for a block of type 0: the assertion fails. -/
theorem unknown_block_type_fails :
    MessageParser.deserializeBuffer PacketSample.env [0x52, 0x43, 11, 11, 7, 3, 0, 0] =
      .error .assertion := by
  decide +kernel

end RaiBlocks
