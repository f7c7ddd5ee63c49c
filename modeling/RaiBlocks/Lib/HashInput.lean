import RaiBlocks.Lib.Stream

/-!
# What is hashed and signed

The bytes that a block feeds to the hash determine it up to its signature and work, with one
exception: a receive block and a change block feed the same bytes when the source of the one is
the representative of the other.
-/

namespace RaiBlocks

open Block

variable {b b' : Block}

/-! ## Bytes -/

theorem bigEndian_inj {n x y : ℕ} (hx : x < 256 ^ n) (hy : y < 256 ^ n)
    (h : bigEndian n x = bigEndian n y) : x = y := by
  rw [← fromBigEndian_bigEndian n x hx, h, fromBigEndian_bigEndian n y hy]

theorem bigEndian_uint256_inj {x y : Uint256}
    (h : bigEndian 32 x.toNat = bigEndian 32 y.toNat) : x = y := by
  apply BitVec.eq_of_toNat_eq
  exact bigEndian_inj (by have := x.isLt; norm_num at *; omega)
    (by have := y.isLt; norm_num at *; omega) h

theorem bigEndian_uint128_inj {x y : Uint128}
    (h : bigEndian 16 x.toNat = bigEndian 16 y.toNat) : x = y := by
  apply BitVec.eq_of_toNat_eq
  exact bigEndian_inj (by have := x.isLt; norm_num at *; omega)
    (by have := y.isLt; norm_num at *; omega) h

/-! ## Operations -/

/-- A block without its signature and work. -/
def Block.unsigned : Block → Block
  | .sendBlock b => .sendBlock ⟨b.hashables, 0, 0⟩
  | .receiveBlock b => .receiveBlock ⟨b.hashables, 0, 0⟩
  | .openBlock b => .openBlock ⟨b.hashables, 0, 0⟩
  | .changeBlock b => .changeBlock ⟨b.hashables, 0, 0⟩
  | .stateBlock b => .stateBlock ⟨b.hashables, 0, 0⟩

/-- The two blocks are of one kind and agree in all fields but signature and
work. -/
def SameOperation (b b' : Block) : Prop := b.unsigned = b'.unsigned

/-- A receive and a change block on one predecessor, the source of the one being
the representative of the other. -/
inductive Confusable : Block → Block → Prop
  | receiveChange {r : ReceiveBlock} {c : ChangeBlock} :
      r.hashables.previous = c.hashables.previous →
      r.hashables.source = c.hashables.representative →
      Confusable (.receiveBlock r) (.changeBlock c)
  | changeReceive {r : ReceiveBlock} {c : ChangeBlock} :
      r.hashables.previous = c.hashables.previous →
      r.hashables.source = c.hashables.representative →
      Confusable (.changeBlock c) (.receiveBlock r)

theorem Confusable.hashInput_eq (h : Confusable b b') : b.hashInput = b'.hashInput := by
  cases h with
  | receiveChange hp hs => simp [hashInput, hp, hs]
  | changeReceive hp hs => simp [hashInput, hp, hs]

theorem Confusable.not_sameOperation (h : Confusable b b') : ¬ SameOperation b b' := by
  intro hsame
  cases h <;> cases hsame

section Layouts

variable {previous previous' source source' : Uint256}

theorem twoFields_inj
    (h : bigEndian 32 previous.toNat ++ bigEndian 32 source.toNat =
      bigEndian 32 previous'.toNat ++ bigEndian 32 source'.toNat) :
    previous = previous' ∧ source = source' := by
  obtain ⟨hp, hs⟩ := List.append_inj h (by simp)
  exact ⟨bigEndian_uint256_inj hp, bigEndian_uint256_inj hs⟩

end Layouts

theorem send_hashInput_inj {b b' : SendBlock}
    (h : (sendBlock b).hashInput = (sendBlock b').hashInput) :
    b.hashables = b'.hashables := by
  obtain ⟨hfields, hbalance⟩ := List.append_inj h (by simp)
  obtain ⟨hp, hd⟩ := twoFields_inj hfields
  show SendHashables.mk b.hashables.previous b.hashables.destination b.hashables.balance = _
  rw [hp, hd, bigEndian_uint128_inj hbalance]

theorem open_hashInput_inj {b b' : OpenBlock}
    (h : (openBlock b).hashInput = (openBlock b').hashInput) :
    b.hashables = b'.hashables := by
  obtain ⟨hfields, haccount⟩ := List.append_inj h (by simp)
  obtain ⟨hs, hr⟩ := twoFields_inj hfields
  show OpenHashables.mk b.hashables.source b.hashables.representative b.hashables.account = _
  rw [hs, hr, bigEndian_uint256_inj haccount]

theorem state_hashInput_inj {b b' : StateBlock}
    (h : (stateBlock b).hashInput = (stateBlock b').hashInput) :
    b.hashables = b'.hashables := by
  obtain ⟨h₁, hlink⟩ := List.append_inj h (by simp)
  obtain ⟨h₂, hbalance⟩ := List.append_inj h₁ (by simp)
  obtain ⟨h₃, hrep⟩ := List.append_inj h₂ (by simp)
  obtain ⟨h₄, hprevious⟩ := List.append_inj h₃ (by simp)
  obtain ⟨_, haccount⟩ := List.append_inj h₄ (by simp)
  show StateHashables.mk b.hashables.account b.hashables.previous b.hashables.representative
    b.hashables.balance b.hashables.link = _
  rw [bigEndian_uint256_inj haccount, bigEndian_uint256_inj hprevious,
    bigEndian_uint256_inj hrep, bigEndian_uint128_inj hbalance, bigEndian_uint256_inj hlink]

/-- The hashed bytes tell operations apart, receive and change blocks aside. -/
theorem hashInput_eq_iff : b.hashInput = b'.hashInput ↔ SameOperation b b' ∨ Confusable b b' := by
  constructor
  · intro h
    have hlen := congrArg List.length h
    -- kinds of different length cannot agree
    cases b <;> cases b' <;> simp [hashInput] at hlen
    case sendBlock.sendBlock b b' =>
      exact Or.inl (by simp [SameOperation, unsigned, send_hashInput_inj h])
    case receiveBlock.receiveBlock b b' =>
      obtain ⟨hp, hs⟩ := twoFields_inj h
      obtain ⟨⟨_, _⟩, _, _⟩ := b
      obtain ⟨⟨_, _⟩, _, _⟩ := b'
      exact Or.inl (by simp_all [SameOperation, unsigned])
    case receiveBlock.changeBlock b b' =>
      obtain ⟨hp, hs⟩ := twoFields_inj h
      exact Or.inr (.receiveChange hp hs)
    case openBlock.openBlock b b' =>
      exact Or.inl (by simp [SameOperation, unsigned, open_hashInput_inj h])
    case changeBlock.receiveBlock b b' =>
      obtain ⟨hp, hs⟩ := twoFields_inj h
      exact Or.inr (.changeReceive hp.symm hs.symm)
    case changeBlock.changeBlock b b' =>
      obtain ⟨hp, hs⟩ := twoFields_inj h
      obtain ⟨⟨_, _⟩, _, _⟩ := b
      obtain ⟨⟨_, _⟩, _, _⟩ := b'
      exact Or.inl (by simp_all [SameOperation, unsigned])
    case stateBlock.stateBlock b b' =>
      exact Or.inl (by simp [SameOperation, unsigned, state_hashInput_inj h])
  · rintro (h | h)
    · have hinput : ∀ c : Block, c.unsigned.hashInput = c.hashInput := by
        intro c
        cases c <;> rfl
      rw [← hinput b, ← hinput b', show b.unsigned = b'.unsigned from h]
    · exact h.hashInput_eq

theorem hashInput_eq_place (h : b.hashInput = b'.hashInput) :
    b.previous = b'.previous ∧ b.root = b'.root ∧ b.account? = b'.account? ∧
      b.isLegacy = b'.isLegacy := by
  rcases hashInput_eq_iff.mp h with hsame | hconf
  · have hplace : ∀ c : Block, c.unsigned.previous = c.previous ∧ c.unsigned.root = c.root ∧
        c.unsigned.account? = c.account? ∧ c.unsigned.isLegacy = c.isLegacy := by
      intro c
      cases c <;> exact ⟨rfl, rfl, rfl, rfl⟩
    obtain ⟨hp, hr, ha, hl⟩ := hplace b
    obtain ⟨hp', hr', ha', hl'⟩ := hplace b'
    rw [← hp, ← hr, ← ha, ← hl, ← hp', ← hr', ← ha', ← hl',
      show b.unsigned = b'.unsigned from hsame]
    exact ⟨rfl, rfl, rfl, rfl⟩
  · cases hconf with
    | receiveChange hp hs => exact ⟨hp, hp, rfl, rfl⟩
    | changeReceive hp hs => exact ⟨hp.symm, hp.symm, rfl, rfl⟩

end RaiBlocks
