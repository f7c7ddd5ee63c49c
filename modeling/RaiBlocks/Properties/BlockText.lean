import RaiBlocks.Lib.AccountText
import RaiBlocks.Lib.BlockJson
import RaiBlocks.Lib.Numerals

/-!
# Blocks and their JSON text

`deserialize_block_json` yields the block that was written, whatever its kind. The decoders
of the blocks themselves do so for send, receive and state blocks. For open and change
blocks they read the accounts as hexadecimal numbers, while the text of an account has been
written.
-/

namespace RaiBlocks

open Foundation ChangeBlock AccountText

/-! ## Fields -/

namespace Field

variable {check : Uint256 → BitVec 40}

@[simp] theorem hash_encodeHex (x : Uint256) : hash (encodeHex x) = .ok x := by
  rw [hash, decodeHex_encodeHex]
  rfl

@[simp] theorem balance_encodeHex (x : Uint128) : balance x.encodeHex = .ok x := by
  rw [balance, Uint128.decodeHex, if_neg (by simp [Uint128.encodeHex]), Uint128.encodeHex,
    readHex_toNat (by decide) (by decide)]
  rfl

@[simp] theorem signature_encodeHex (x : Signature) : signature x.encodeHex = .ok x := by
  rw [signature, Signature.decodeHex, if_neg (by simp [Signature.encodeHex]),
    Signature.encodeHex, readHex_toNat (by decide) (by decide)]
  rfl

@[simp] theorem balanceDec_encodeDec (x : Uint128) : balanceDec x.encodeDec = .ok x := by
  rw [balanceDec, Uint128.encodeDec, decodeDec_decDigits x.isLt, BitVec.ofNat_toNat,
    BitVec.setWidth_eq]
  rfl

@[simp] theorem work_toStringHex (x : RaiBlocks.Work) : work (toStringHex x) = .ok x := by
  have hlen : (toStringHex x).length = 16 := by simp [toStringHex]
  have hne : ¬ (toStringHex x = "" ∨ 16 < (toStringHex x).length) := by
    rintro (h | h)
    · rw [h] at hlen
      cases hlen
    · exact h.ne' hlen
  have hword : extractWord (toStringHex x).toList = (x, true) := by
    rw [toStringHex, String.toList_ofList, extractWord_hexDigits (by decide) x.isLt,
      BitVec.ofNat_toNat, BitVec.setWidth_eq]
  rw [work, fromStringHex, if_neg hne, hword]
  rfl

end Field

/-! ## Accounts -/

/-- The text of an account. -/
def accountText (check : Uint256 → BitVec 40) (a : Account) : String :=
  ofBytes (asciiBytes "xrb_" ++ accountDigits check a)

theorem toAccount_eq (check : Uint256 → BitVec 40) (a : Account) :
    toAccount check a = .ok (accountText check a) := by
  rw [toAccount, encodeAccount_eq]
  rfl

theorem asciiBytes_ofBytes (bytes : List UInt8) : asciiBytes (ofBytes bytes) = bytes := by
  rw [asciiBytes, ofBytes, String.toList_ofList, List.map_map]
  refine (List.map_congr_left fun b _ => ?_).trans (List.map_id bytes)
  have hall : ∀ i : Fin 256, (Char.ofNat i).toNat = i.1 := by decide +kernel
  have hb : (Char.ofNat b.toNat).toNat = b.toNat := hall ⟨b.toNat, b.toNat_lt⟩
  rw [Function.comp_apply, hb, UInt8.ofNat_toNat, id]

namespace Field

variable {check : Uint256 → BitVec 40}

@[simp] theorem account_accountText (a : Account) :
    account check (accountText check a) = .ok a := by
  rw [account, accountText, asciiBytes_ofBytes, decodeAccount_accountDigits]
  rfl

/-- No account is read from digits, since its text would start with `x` or `n`. -/
theorem account_encodeHex (x : Uint256) :
    account check (encodeHex x) = .error .reported := by
  have hnone : decodeAccount check (asciiBytes (encodeHex x)) = .ok none := by
    refine decodeAccount_of_no_shape fun pre hpre digits _ heq => ?_
    have hfirst : ∀ b ∈ (asciiBytes (encodeHex x)).head?, b ≠ 0x78 ∧ b ≠ 0x6e := by
      intro b hb
      obtain ⟨c, hc, rfl⟩ := List.mem_map.mp (List.mem_of_mem_head? hb)
      rw [encodeHex, String.toList_ofList] at hc
      obtain ⟨d, hd, rfl⟩ := mem_hexDigits hc
      have hall : ∀ i : Fin 16, UInt8.ofNat (Nat.digitChar i).toNat ≠ 0x78 ∧
          UInt8.ofNat (Nat.digitChar i).toNat ≠ 0x6e := by decide
      exact hall ⟨d, hd⟩
    rw [heq] at hfirst
    obtain ⟨c, -, rfl | rfl⟩ := mem_prefixes.mp hpre
    · exact (hfirst 0x78 rfl).1 rfl
    · exact (hfirst 0x6e rfl).2 rfl
  rw [account, hnone]
  rfl

@[simp] theorem link_encodeHex (x : Uint256) : link check (encodeHex x) = .ok x := by
  rw [link, account_encodeHex]
  exact hash_encodeHex x

/-- The text of an account is no hexadecimal number: reading stops at `r`, and `x` alone is
no number. -/
theorem hash_accountText (a : Account) : hash (accountText check a) = .error .reported := by
  obtain ⟨rest, hrest⟩ : ∃ rest, (accountText check a).toList = 'x' :: 'r' :: rest := by
    rw [accountText, ofBytes, String.toList_ofList, List.map_append]
    exact ⟨_, rfl⟩
  have hextract : extractHex 256 ('x' :: 'r' :: rest) = .error .runtimeError := rfl
  have hread : readHex 256 (accountText check a) = .ok none := by
    rw [readHex, hrest, hextract]
    rfl
  rw [hash, Uint256.decodeHex]
  split_ifs with h
  · rw [hread]
    rfl
  · rfl

end Field

/-! ## Decoders of trees -/

/-- The tree has a child of the name, and its text is decoded to the value. -/
def Reads {α : Type} (tree : PropertyTree) (name : String) (field : String → Decode α)
    (x : α) : Prop :=
  ∃ text, tree.getString name = .ok text ∧ field text = .ok x

section Trees

variable {check : Uint256 → BitVec 40} {tree : PropertyTree}

/-- The fields that every block has. -/
structure ReadsCommon (tree : PropertyTree) (kind : String) (w : RaiBlocks.Work)
    (s : Signature) : Prop where
  type : tree.getString "type" = .ok kind
  work : Reads tree "work" Field.work w
  signature : Reads tree "signature" Field.signature s

theorem assertType_of_type {kind : String} (h : tree.getString "type" = .ok kind) :
    assertType tree kind = .ok () := by
  rw [assertType, h, ok_bind, if_pos rfl]
  rfl

theorem sendBlock_of_reads {b : SendBlock} (h : ReadsCommon tree "send" b.work b.signature)
    (hprevious : Reads tree "previous" Field.hash b.hashables.previous)
    (hdestination : Reads tree "destination" (Field.account check) b.hashables.destination)
    (hbalance : Reads tree "balance" Field.balance b.hashables.balance) :
    SendBlock.ofTree check tree = .ok b ∧ SendBlock.deserializeJson check tree = .ok b := by
  obtain ⟨htype, ⟨work, hwork, hw⟩, signature, hsignature, hs⟩ := h
  obtain ⟨previous, hprevious, hp⟩ := hprevious
  obtain ⟨destination, hdestination, hd⟩ := hdestination
  obtain ⟨balance, hbalance, hb⟩ := hbalance
  constructor
  · simp only [SendBlock.ofTree, SendHashables.ofTree, *, ok_bind]
    rfl
  · simp only [SendBlock.deserializeJson, assertType_of_type htype, *, ok_bind]
    rfl

theorem receiveBlock_of_reads {b : ReceiveBlock}
    (h : ReadsCommon tree "receive" b.work b.signature)
    (hprevious : Reads tree "previous" Field.hash b.hashables.previous)
    (hsource : Reads tree "source" Field.hash b.hashables.source) :
    ReceiveBlock.ofTree tree = .ok b ∧ ReceiveBlock.deserializeJson tree = .ok b := by
  obtain ⟨htype, ⟨work, hwork, hw⟩, signature, hsignature, hs⟩ := h
  obtain ⟨previous, hprevious, hp⟩ := hprevious
  obtain ⟨source, hsource, hso⟩ := hsource
  constructor
  · simp only [ReceiveBlock.ofTree, ReceiveHashables.ofTree, *, ok_bind]
    rfl
  · simp only [ReceiveBlock.deserializeJson, assertType_of_type htype, *, ok_bind]
    rfl

theorem openBlock_of_reads {b : OpenBlock} (h : ReadsCommon tree "open" b.work b.signature)
    (hsource : Reads tree "source" Field.hash b.hashables.source)
    (hrepresentative : Reads tree "representative" (Field.account check)
      b.hashables.representative)
    (haccount : Reads tree "account" (Field.account check) b.hashables.account) :
    OpenBlock.ofTree check tree = .ok b := by
  obtain ⟨-, ⟨work, hwork, hw⟩, signature, hsignature, hs⟩ := h
  obtain ⟨source, hsource, hso⟩ := hsource
  obtain ⟨representative, hrepresentative, hr⟩ := hrepresentative
  obtain ⟨account, haccount, ha⟩ := haccount
  simp only [OpenBlock.ofTree, OpenHashables.ofTree, *, ok_bind]
  rfl

/-- The own decoder of an open block fails at the representative. -/
theorem openBlock_reported {b : OpenBlock} {representative account : String}
    (h : ReadsCommon tree "open" b.work b.signature)
    (hsource : Reads tree "source" Field.hash b.hashables.source)
    (hrepresentative : tree.getString "representative" = .ok representative)
    (hr : Field.hash representative = .error .reported)
    (haccount : tree.getString "account" = .ok account) :
    OpenBlock.deserializeJson tree = .error .reported := by
  obtain ⟨htype, ⟨work, hwork, hw⟩, signature, hsignature, hs⟩ := h
  obtain ⟨source, hsource, hso⟩ := hsource
  simp only [OpenBlock.deserializeJson, assertType_of_type htype, *, ok_bind, error_bind]
  rfl

theorem changeBlock_of_reads {b : ChangeBlock}
    (h : ReadsCommon tree "change" b.work b.signature)
    (hprevious : Reads tree "previous" Field.hash b.hashables.previous)
    (hrepresentative : Reads tree "representative" (Field.account check)
      b.hashables.representative) :
    ofTree check tree = .ok b := by
  obtain ⟨-, ⟨work, hwork, hw⟩, signature, hsignature, hs⟩ := h
  obtain ⟨previous, hprevious, hp⟩ := hprevious
  obtain ⟨representative, hrepresentative, hr⟩ := hrepresentative
  simp only [ofTree, ChangeHashables.ofTree, *, ok_bind]
  rfl

/-- The own decoder of a change block fails at the representative. -/
theorem changeBlock_reported {b : ChangeBlock} {representative : String}
    (h : ReadsCommon tree "change" b.work b.signature)
    (hprevious : Reads tree "previous" Field.hash b.hashables.previous)
    (hrepresentative : tree.getString "representative" = .ok representative)
    (hr : Field.hash representative = .error .reported) :
    deserializeJson tree = .error .reported := by
  obtain ⟨htype, ⟨work, hwork, hw⟩, signature, hsignature, hs⟩ := h
  obtain ⟨previous, hprevious, hp⟩ := hprevious
  simp only [deserializeJson, assertType_of_type htype, *, ok_bind, error_bind]
  rfl

theorem stateBlock_of_reads {b : StateBlock} (h : ReadsCommon tree "state" b.work b.signature)
    (haccount : Reads tree "account" (Field.account check) b.hashables.account)
    (hprevious : Reads tree "previous" Field.hash b.hashables.previous)
    (hrepresentative : Reads tree "representative" (Field.account check)
      b.hashables.representative)
    (hbalance : Reads tree "balance" Field.balanceDec b.hashables.balance)
    (hlink : Reads tree "link" (Field.link check) b.hashables.link) :
    StateBlock.ofTree check tree = .ok b ∧ StateBlock.deserializeJson check tree = .ok b := by
  obtain ⟨htype, ⟨work, hwork, hw⟩, signature, hsignature, hs⟩ := h
  obtain ⟨account, haccount, ha⟩ := haccount
  obtain ⟨previous, hprevious, hp⟩ := hprevious
  obtain ⟨representative, hrepresentative, hr⟩ := hrepresentative
  obtain ⟨balance, hbalance, hb⟩ := hbalance
  obtain ⟨link, hlink, hl⟩ := hlink
  constructor
  · simp only [StateBlock.ofTree, StateHashables.ofTree, *, ok_bind]
    rfl
  · simp only [StateBlock.deserializeJson, assertType_of_type htype, *, ok_bind]
    rfl

end Trees

/-! ## What is written -/

section Written

variable (check : Uint256 → BitVec 40)

theorem sendBlock_written (b : SendBlock) : ∃ tree, b.serializeJson check = .ok tree ∧
    ReadsCommon tree "send" b.work b.signature ∧
    Reads tree "previous" Field.hash b.hashables.previous ∧
    Reads tree "destination" (Field.account check) b.hashables.destination ∧
    Reads tree "balance" Field.balance b.hashables.balance := by
  refine ⟨_, by rw [SendBlock.serializeJson, toAccount_eq]; rfl, ⟨rfl, ?_, ?_⟩, ?_, ?_, ?_⟩
  · exact ⟨_, rfl, Field.work_toStringHex _⟩
  · exact ⟨_, rfl, Field.signature_encodeHex _⟩
  · exact ⟨_, rfl, Field.hash_encodeHex _⟩
  · exact ⟨_, rfl, Field.account_accountText _⟩
  · exact ⟨_, rfl, Field.balance_encodeHex _⟩

theorem receiveBlock_written (b : ReceiveBlock) :
    ReadsCommon b.serializeJson "receive" b.work b.signature ∧
    Reads b.serializeJson "previous" Field.hash b.hashables.previous ∧
    Reads b.serializeJson "source" Field.hash b.hashables.source := by
  refine ⟨⟨rfl, ?_, ?_⟩, ?_, ?_⟩
  · exact ⟨_, rfl, Field.work_toStringHex _⟩
  · exact ⟨_, rfl, Field.signature_encodeHex _⟩
  · exact ⟨_, rfl, Field.hash_encodeHex _⟩
  · exact ⟨_, rfl, Field.hash_encodeHex _⟩

theorem openBlock_written (b : OpenBlock) : ∃ tree, b.serializeJson check = .ok tree ∧
    ReadsCommon tree "open" b.work b.signature ∧ Reads tree "source" Field.hash b.hashables.source ∧
    tree.getString "representative" = .ok (accountText check b.hashables.representative) ∧
    tree.getString "account" = .ok (accountText check b.hashables.account) := by
  refine ⟨_, by rw [OpenBlock.serializeJson, toAccount_eq, ok_bind, toAccount_eq]; rfl,
    ⟨rfl, ?_, ?_⟩, ?_, rfl, rfl⟩
  · exact ⟨_, rfl, Field.work_toStringHex _⟩
  · exact ⟨_, rfl, Field.signature_encodeHex _⟩
  · exact ⟨_, rfl, Field.hash_encodeHex _⟩

theorem changeBlock_written (b : ChangeBlock) : ∃ tree, b.serializeJson check = .ok tree ∧
    ReadsCommon tree "change" b.work b.signature ∧
    Reads tree "previous" Field.hash b.hashables.previous ∧
    tree.getString "representative" = .ok (accountText check b.hashables.representative) := by
  refine ⟨_, by rw [serializeJson, toAccount_eq]; rfl, ⟨rfl, ?_, ?_⟩, ?_, rfl⟩
  · exact ⟨_, rfl, Field.work_toStringHex _⟩
  · exact ⟨_, rfl, Field.signature_encodeHex _⟩
  · exact ⟨_, rfl, Field.hash_encodeHex _⟩

theorem stateBlock_written (b : StateBlock) : ∃ tree, b.serializeJson check = .ok tree ∧
    ReadsCommon tree "state" b.work b.signature ∧
    Reads tree "account" (Field.account check) b.hashables.account ∧
    Reads tree "previous" Field.hash b.hashables.previous ∧
    Reads tree "representative" (Field.account check) b.hashables.representative ∧
    Reads tree "balance" Field.balanceDec b.hashables.balance ∧
    Reads tree "link" (Field.link check) b.hashables.link := by
  refine ⟨_, by
    rw [StateBlock.serializeJson, toAccount_eq, ok_bind, toAccount_eq, ok_bind, toAccount_eq]
    rfl, ⟨rfl, ?_, ?_⟩, ?_, ?_, ?_, ?_, ?_⟩
  · exact ⟨_, rfl, Field.work_toStringHex _⟩
  · exact ⟨_, rfl, Field.signature_encodeHex _⟩
  · exact ⟨_, rfl, Field.account_accountText _⟩
  · exact ⟨_, rfl, Field.hash_encodeHex _⟩
  · exact ⟨_, rfl, Field.account_accountText _⟩
  · exact ⟨_, rfl, Field.balanceDec_encodeDec _⟩
  · exact ⟨_, rfl, Field.link_encodeHex _⟩

end Written

/-- **What the decoders make of a block that was written.** `deserialize_block_json` yields the
block. So does its own decoder, unless it is an open or a change block. -/
theorem exists_tree (check : Uint256 → BitVec 40) (b : Block) :
    ∃ tree, b.serializeJson check = .ok tree ∧ deserializeBlockJson check tree = .ok b ∧
      b.deserializeJson check tree =
        if b.type = .open ∨ b.type = .change then .error .reported else .ok b := by
  cases b with
  | sendBlock b =>
    obtain ⟨tree, htree, h, hprevious, hdestination, hbalance⟩ := sendBlock_written check b
    obtain ⟨hof, hown⟩ := sendBlock_of_reads h hprevious hdestination hbalance
    refine ⟨tree, htree, ?_, ?_⟩
    · rw [deserializeBlockJson, h.type, ok_bind, if_neg (by decide), if_pos rfl, hof]
      rfl
    · rw [Block.deserializeJson, hown]
      rfl
  | receiveBlock b =>
    obtain ⟨h, hprevious, hsource⟩ := receiveBlock_written b
    obtain ⟨hof, hown⟩ := receiveBlock_of_reads h hprevious hsource
    refine ⟨b.serializeJson, rfl, ?_, ?_⟩
    · rw [deserializeBlockJson, h.type, ok_bind, if_pos rfl, hof]
      rfl
    · rw [Block.deserializeJson, hown]
      rfl
  | openBlock b =>
    obtain ⟨tree, htree, h, hsource, hrepresentative, haccount⟩ := openBlock_written check b
    have hof := openBlock_of_reads h hsource
      ⟨_, hrepresentative, Field.account_accountText _⟩
      ⟨_, haccount, Field.account_accountText _⟩
    have hown := openBlock_reported h hsource hrepresentative (Field.hash_accountText _)
      haccount
    refine ⟨tree, htree, ?_, ?_⟩
    · rw [deserializeBlockJson, h.type, ok_bind, if_neg (by decide), if_neg (by decide),
        if_pos rfl, hof]
      rfl
    · rw [Block.deserializeJson, hown]
      rfl
  | changeBlock b =>
    obtain ⟨tree, htree, h, hprevious, hrepresentative⟩ := changeBlock_written check b
    have hof := changeBlock_of_reads h hprevious
      ⟨_, hrepresentative, Field.account_accountText _⟩
    have hown := changeBlock_reported h hprevious hrepresentative (Field.hash_accountText _)
    refine ⟨tree, htree, ?_, ?_⟩
    · rw [deserializeBlockJson, h.type, ok_bind, if_neg (by decide), if_neg (by decide),
        if_neg (by decide), if_pos rfl, hof]
      rfl
    · rw [Block.deserializeJson, hown]
      rfl
  | stateBlock b =>
    obtain ⟨tree, htree, h, haccount, hprevious, hrepresentative, hbalance, hlink⟩ :=
      stateBlock_written check b
    obtain ⟨hof, hown⟩ := stateBlock_of_reads h haccount hprevious hrepresentative hbalance
      hlink
    refine ⟨tree, htree, ?_, ?_⟩
    · rw [deserializeBlockJson, h.type, ok_bind, if_neg (by decide), if_neg (by decide),
        if_neg (by decide), if_neg (by decide), if_pos rfl, hof]
      rfl
    · rw [Block.deserializeJson, hown]
      rfl

/-- The block is written, and both decoders yield it from what was written. -/
def DecodesOwnJson (check : Uint256 → BitVec 40) (b : Block) : Prop :=
  ∃ tree, b.serializeJson check = .ok tree ∧ deserializeBlockJson check tree = .ok b ∧
    b.deserializeJson check tree = .ok b

/-- **Which blocks both decoders yield.** All but open and change blocks. -/
theorem json_inverted_iff (check : Uint256 → BitVec 40) (b : Block) :
    DecodesOwnJson check b ↔ b.type ≠ .open ∧ b.type ≠ .change := by
  obtain ⟨tree, htree, hblock, hown⟩ := exists_tree check b
  rw [← not_or]
  constructor
  · rintro ⟨tree', htree', -, hown'⟩ htype
    obtain rfl := Except.ok.inj (htree.symm.trans htree')
    rw [hown, if_pos htype] at hown'
    cases hown'
  · intro htype
    refine ⟨tree, htree, hblock, ?_⟩
    rw [hown, if_neg htype]

/-- A change block that no one has signed, for a check that is always 0: its own decoder
reports an error. -/
theorem change_block_lost : let check : Uint256 → BitVec 40 := fun _ => 0
    let b : Block := .changeBlock ⟨⟨1, 2⟩, 0, 0⟩
    (b.serializeJson check).toOption.map (fun tree =>
        (tree.getString "representative", b.deserializeJson check tree)) =
      some (.ok "xrb_111111111111111111111111111111111111111111111111111411111111",
        .error .reported) := by
  decide +kernel

end RaiBlocks
