import RaiBlocks.Node.Codecs

/-!
# Packets

A message that is read in full is written back as the same bytes, and a message that is
written is read back as it was, but for the scope ids of the peers in a keepalive message.
The parser hands on exactly the messages that take up the whole buffer and whose block has
enough work.
-/

namespace RaiBlocks

open Foundation PacketSample Message

/-! ## What the parser hands on -/

namespace MessageParser

variable {p : NodeEnv} {buffer : List UInt8} {parser : MessageParser}

/-- With success the visitor was given one message, which is written back as the buffer. -/
theorem canonical (h : deserializeBuffer p buffer = .ok parser)
    (hstatus : parser.status = .success) :
    ∃ m, parser.visited = [m] ∧ m.serialize p.network = .ok buffer := by
  obtain ⟨⟨x, stream⟩, hheader, hrest⟩ := bind_eq_ok h
  cases x with
  | none =>
    obtain rfl := Except.ok.inj hrest
    cases hstatus
  | some header =>
    rcases deserializeBuffer_header hheader with
      ⟨type, insufficient, invalid, hhandles, htype, heq⟩ | ⟨-, heq⟩
    · rw [heq] at h
      obtain ⟨⟨x, rest⟩, hincoming, -⟩ := bind_eq_ok h
      rw [deserializeWith_eq hincoming] at h
      obtain rfl := Except.ok.inj h
      obtain ⟨m, rfl, rfl, hvisited⟩ := of_outcome_success hhandles.invalid_ne hstatus
      obtain ⟨rfl, -, hformed, body, hbody, rfl⟩ := of_deserialize htype hincoming
      refine ⟨m, hvisited, (serialize_eq_ok hformed).mpr ⟨body, hbody, ?_⟩⟩
      rw [MessageHeader.yields_deserialize.mp hheader, List.append_nil]
    · rw [heq] at h
      obtain rfl := Except.ok.inj h
      cases hstatus

end MessageParser

/-! ## Scope ids -/

/-- The endpoint without its scope id. -/
def UdpEndpoint.unscoped : UdpEndpoint → UdpEndpoint
  | .v4 bytes port => .v4 bytes port
  | .v6 e => .v6 ⟨⟨e.address.bytes, 0⟩, e.port⟩

theorem UdpEndpoint.unscoped_eq_iff {e : UdpEndpoint} : e.unscoped = e ↔ e.scopeId = 0 := by
  rcases e with ⟨bytes, port⟩ | ⟨⟨bytes, id⟩, port⟩
  · simp [unscoped, scopeId]
  · simp [unscoped, scopeId, eq_comm]

theorem UdpEndpoint.serializeAll_unscoped (l : List UdpEndpoint) :
    serializeAll (l.map unscoped) = serializeAll l := by
  induction l with
  | nil => rfl
  | cons e l ih =>
    have he : e.unscoped.serialize = e.serialize := by cases e <;> rfl
    rw [List.map_cons, serializeAll, serializeAll, he, ih]

namespace Message

def Body.unscoped : Body → Body
  | .keepalive peers => .keepalive (peers.map UdpEndpoint.unscoped)
  | body => body

/-- The message with all scope ids zero. -/
def unscoped (m : Message) : Message := ⟨m.header, m.body.unscoped⟩

variable {m : Message} {network : RaiNetworks}

theorem unscoped_eq_iff : m.unscoped = m ↔ m.Unscoped := by
  obtain ⟨header, body⟩ := m
  simp only [unscoped, Unscoped, mk.injEq, true_and]
  cases body with
  | keepalive peers =>
    have hmap : peers.map UdpEndpoint.unscoped = peers ↔
        ∀ e ∈ peers.toList, e.unscoped = e := by
      rw [← List.Vector.toList_injective.eq_iff, List.Vector.toList_map]
      conv_lhs => rhs; rw [← List.map_id peers.toList]
      exact List.map_inj_left
    simp [Body.unscoped, hmap, UdpEndpoint.unscoped_eq_iff]
  | _ => simp [Body.unscoped]

theorem unscoped_unscoped (m : Message) : m.unscoped.Unscoped := by
  obtain ⟨header, body⟩ := m
  intro peers hpeers e he
  cases body with
  | keepalive peers' =>
    obtain rfl : peers'.map UdpEndpoint.unscoped = peers := Body.keepalive.inj hpeers
    rw [List.Vector.toList_map] at he
    obtain ⟨e, -, rfl⟩ := List.mem_map.mp he
    cases e <;> rfl
  | _ => cases hpeers

/-- The type of the message and of its block do not change. -/
theorem body_unscoped (m : Message) :
    m.unscoped.body.type = m.body.type ∧ m.unscoped.body.block = m.body.block ∧
      m.unscoped.body.serialize = m.body.serialize := by
  obtain ⟨header, body⟩ := m
  cases body with
  | keepalive peers =>
    refine ⟨rfl, rfl, ?_⟩
    change UdpEndpoint.serializeAll (peers.map UdpEndpoint.unscoped).toList = _
    rw [List.Vector.toList_map]
    exact UdpEndpoint.serializeAll_unscoped _
  | _ => exact ⟨rfl, rfl, rfl⟩

theorem Formed.unscoped (hm : m.Formed) : m.unscoped.Formed := by
  obtain ⟨htype, hblock, -⟩ := m.body_unscoped
  exact ⟨by rw [htype]; exact hm.type, by rw [hblock]; exact hm.blockType⟩

end Message

/-- A formed message that can be written is read back without scope ids. -/
theorem Message.decode_serialize {network : RaiNetworks} {m : Message} {bytes : List UInt8}
    (hm : m.Formed) (h : m.serialize network = .ok bytes) :
    (decode network m.body.type).parse bytes = .ok (some m.unscoped, []) := by
  obtain ⟨body, hbody, rfl⟩ := (serialize_eq_ok hm).mp h
  obtain ⟨htype, -, hserialize⟩ := m.body_unscoped
  have hread := deserialize_serialize hm.unscoped m.unscoped_unscoped
    (hserialize.trans hbody) []
  rw [List.append_nil, htype] at hread
  exact Parser.yields_bind.mpr ⟨m.header, body, MessageHeader.yields_deserialize.mpr rfl, hread⟩

/-- All addresses in the message are of version 6. -/
def Message.Mapped (m : Message) : Prop :=
  ∀ peers, m.body = .keepalive peers → ∀ e ∈ peers.toList, ∃ endpoint, e = .v6 endpoint

theorem UdpEndpoint.serializeAll_ok {l : List UdpEndpoint}
    (h : ∀ e ∈ l, ∃ endpoint, e = .v6 endpoint) : ∃ bytes, serializeAll l = .ok bytes := by
  induction l with
  | nil => exact ⟨[], rfl⟩
  | cons e l ih =>
    obtain ⟨endpoint, rfl⟩ := h e List.mem_cons_self
    obtain ⟨rest, hrest⟩ := ih fun e' he' => h e' (List.mem_cons_of_mem _ he')
    rw [serializeAll, hrest]
    exact ⟨_, rfl⟩

theorem Message.serialize_ok {m : Message} (hm : m.Formed) (hmapped : m.Mapped)
    (network : RaiNetworks) : ∃ bytes, m.serialize network = .ok bytes := by
  have hbody : ∃ body, m.body.serialize = .ok body := by
    cases hbody : m.body with
    | keepalive peers => exact UdpEndpoint.serializeAll_ok (hmapped peers hbody)
    | _ => exact ⟨_, rfl⟩
  obtain ⟨body, hbody⟩ := hbody
  exact ⟨_, (serialize_eq_ok hm).mpr ⟨body, hbody, rfl⟩⟩

/-- **Packets are canonical.** If the parser ends with success, the visitor was given one
message, and it is written back as the very buffer. And a message of any class, with a header
that belongs to it, is read back from what is written of it, header and all, but for the scope
ids of its peers: it is equal exactly if there are none. Everything can be written but
addresses of version 4. -/
theorem packets_canonical (p : NodeEnv) :
    (∀ buffer parser, MessageParser.deserializeBuffer p buffer = .ok parser →
      parser.status = .success → ∃ m, parser.visited = [m] ∧ m.serialize p.network = .ok buffer) ∧
    (∀ m : Message, m.Formed → ∀ bytes, m.serialize p.network = .ok bytes →
      (decode p.network m.body.type).parse bytes = .ok (some m.unscoped, []) ∧
      ((decode p.network m.body.type).parse bytes = .ok (some m, []) ↔ m.Unscoped)) ∧
    ∀ m : Message, m.Formed → m.Mapped → ∃ bytes, m.serialize p.network = .ok bytes := by
  refine ⟨fun buffer parser h hstatus => MessageParser.canonical h hstatus,
    fun m hm bytes h => ?_, fun m hm hmapped => serialize_ok hm hmapped p.network⟩
  have hread := decode_serialize hm h
  refine ⟨hread, ?_⟩
  rw [hread, Except.ok.injEq, Prod.mk.injEq, Option.some.injEq, eq_self, and_true]
  exact unscoped_eq_iff

namespace PacketSample

/-- A keepalive message with eight times the same peer, which has the given scope id. -/
def keepalive (scopeId : ℕ) : Message :=
  .ofBody (.keepalive (.replicate 8 (.v6 ⟨⟨1, scopeId⟩, 7075⟩)))

def buffer : List UInt8 :=
  [0x52, 0x43, 11, 11, 7, 2, 0, 0] ++
    (List.replicate 8 [0, 0, 0, 0, 0, 0, 0, 0, 0, 0, 0, 0, 0, 0, 0, 1, 0xa3, 0x1b]).flatten

end PacketSample

/-- The parser accepts the keepalive message, it is written as the same bytes, and it is read
back from them. -/
theorem packets_canonical_keepalive :
    (∃ m, MessageParser.deserializeBuffer env buffer =
      .ok ⟨.success, [m], []⟩ ∧ m.serialize .raiLiveNetwork = .ok buffer) ∧
    (decode .raiLiveNetwork .keepalive).parse buffer = .ok (some (keepalive 0), []) ∧
    ∃ bytes, (keepalive 3).serialize .raiLiveNetwork = .ok bytes := by
  have hparse : MessageParser.deserializeBuffer env buffer =
      .ok ⟨.success, [keepalive 0], []⟩ := by decide +kernel
  obtain ⟨hcanonical, hdecode, hwrite⟩ := packets_canonical env
  obtain ⟨m, hvisited, hbytes⟩ := hcanonical _ _ hparse rfl
  obtain rfl : keepalive 0 = m := List.singleton_inj.mp hvisited
  have hunscoped : (keepalive 0).Unscoped := by
    intro peers hpeers e he
    obtain rfl : _ = peers := Body.keepalive.inj hpeers
    rw [List.eq_of_mem_replicate he]
    rfl
  refine ⟨⟨_, hparse, hbytes⟩, ?_, hwrite _ (formed_ofBody _) ?_⟩
  · exact (hdecode _ (formed_ofBody _) _ hbytes).2.mpr hunscoped
  · intro peers hpeers e he
    obtain rfl : _ = peers := Body.keepalive.inj hpeers
    exact ⟨_, List.eq_of_mem_replicate he⟩

/-- A peer with scope id 3 is read back as one with scope id 0. -/
theorem scoped_peer_not_read_back : (keepalive 3).serialize .raiLiveNetwork = .ok buffer ∧
    (decode .raiLiveNetwork .keepalive).parse buffer = .ok (some (keepalive 0), []) ∧
    keepalive 0 ≠ keepalive 3 := by
  decide +kernel

/-! ## The two decoders of votes -/

section Decoders

variable {text : List UInt8}

/-- The member function fails at the block, whatever there is. -/
theorem Vote.parse_deserializeMember (hlong : Vote.preambleSize ≤ text.length) :
    Vote.deserializeMember.parse text = .error .assertion := by
  obtain ⟨account, signature, sequence, hparse⟩ := Vote.parse_deserialize_long hlong
  exact hparse BlockType.default

/-- The member function of the message is that of its vote. -/
theorem ConfirmAck.parse_deserializeMember {header : MessageHeader}
    (htype : header.type = MessageType.confirmAck.code) :
    (ConfirmAck.deserializeMember header).parse text =
      (Vote.deserializeMember >>= fun vote =>
        pure (⟨header, .confirmAck vote⟩ : Message)).parse text :=
  Parser.parse_bind_of_yields (Parser.parse_require (decide_eq_true htype) text)

end Decoders

/-- **The member functions decode no vote.** They ask for a block of the type
`block_type ()`, which is `invalid`. The stream constructors read back every vote from
the body of its confirm_ack, while the member functions fail an assertion there. On any
text the two ways agree exactly if the text is too short for the words of a vote, or the
header gives a type of block that there is not. -/
theorem vote_decoders_agree_iff (v : Vote) {header : MessageHeader}
    (htype : header.type = MessageType.confirmAck.code) (text : List UInt8) :
    let m := ofBody (.confirmAck v)
    (m.body.serialize = .ok v.serialize ∧
      (Vote.deserialize m.header.blockType).parse v.serialize = .ok (some v, []) ∧
      (ConfirmAck.deserialize m.header).parse v.serialize = .ok (some m, []) ∧
      Vote.deserializeMember.parse v.serialize = .error .assertion ∧
      (ConfirmAck.deserializeMember m.header).parse v.serialize = .error .assertion) ∧
    (Vote.deserializeMember.parse text = (Vote.deserialize header.blockType).parse text ∧
        (ConfirmAck.deserializeMember header).parse text =
          (ConfirmAck.deserialize header).parse text ↔
      text.length < Vote.preambleSize ∨ BlockType.ofCode header.blockType = none) := by
  intro m
  constructor
  · have hm : m.Formed := formed_ofBody _
    have hcode : m.header.blockType = v.block.type.code := hm.blockType _ rfl
    have hread : (Vote.deserialize m.header.blockType).parse v.serialize = .ok (some v, []) :=
      Vote.yields_deserialize.mpr ⟨hcode, (List.append_nil _).symm⟩
    have hfail := Vote.parse_deserializeMember v.preambleSize_le_length
    refine ⟨rfl, hread, ?_, hfail, ?_⟩
    · exact Parser.yields_bind.mpr ⟨v, [], hread, rfl⟩
    · rw [ConfirmAck.parse_deserializeMember hm.type, Parser.parse_bind, hfail]
      rfl
  · rw [ConfirmAck.parse_deserializeMember htype]
    constructor
    · rintro ⟨hvote, -⟩
      by_contra hcond
      obtain ⟨hlong, hcode⟩ := not_or.mp hcond
      rw [Vote.parse_deserializeMember (by omega)] at hvote
      exact hcode ((Vote.parse_deserialize_error (by omega)).mp hvote.symm)
    · intro hcond
      have hvote : Vote.deserializeMember.parse text =
          (Vote.deserialize header.blockType).parse text := by
        by_cases hshort : text.length < Vote.preambleSize
        · rw [Vote.parse_deserialize_short hshort]
          exact Vote.parse_deserialize_short hshort _
        · rw [Vote.parse_deserializeMember (by omega)]
          exact ((Vote.parse_deserialize_error (by omega)).mpr (hcond.resolve_left hshort)).symm
      refine ⟨hvote, ?_⟩
      rw [ConfirmAck.deserialize, Parser.parse_bind, Parser.parse_bind, hvote]

namespace PacketSample

/-- A vote for an open block. -/
def vote : Vote := ⟨1, .openBlock ⟨⟨2, 3, 4⟩, 5, 6⟩, 7, 8⟩

end PacketSample

/-- The body of a confirm_ack, read both ways. -/
theorem confirm_ack_member_fails :
    (ConfirmAck.deserialize (ofBody (.confirmAck vote)).header).parse
      vote.serialize = .ok (some (ofBody (.confirmAck vote)), []) ∧
    (ConfirmAck.deserializeMember (ofBody (.confirmAck vote)).header).parse
      vote.serialize = .error .assertion := by
  decide +kernel

/-- At the body of a confirm_ack the two ways differ, unless the header names no type of block. -/
theorem vote_decoders_agree_iff_vote :
    (Vote.deserialize (ofBody (.confirmAck vote)).header.blockType).parse
      vote.serialize = .ok (some vote, []) ∧
    ¬ (Vote.deserializeMember.parse vote.serialize =
        (Vote.deserialize (ofBody (.confirmAck vote)).header.blockType).parse
          vote.serialize ∧
      (ConfirmAck.deserializeMember (ofBody (.confirmAck vote)).header).parse
          vote.serialize =
        (ConfirmAck.deserialize (ofBody (.confirmAck vote)).header).parse
          vote.serialize) ∧
    Vote.deserializeMember.parse vote.serialize =
      (Vote.deserialize (MessageHeader.ofType .confirmAck).blockType).parse
        vote.serialize := by
  obtain ⟨⟨_, hread, _⟩, hiff⟩ := @vote_decoders_agree_iff vote
    (ofBody (.confirmAck vote)).header rfl vote.serialize
  have hother := (@vote_decoders_agree_iff vote (.ofType .confirmAck) rfl vote.serialize).2.mpr
    (Or.inr rfl)
  exact ⟨hread, fun h => absurd (hiff.mp h) (by decide +kernel), hother.1⟩

end RaiBlocks
