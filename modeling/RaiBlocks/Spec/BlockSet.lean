import RaiBlocks.Ledger.Common

/-!
# The block lattice as a set of blocks

Who owns a block, what the balance is at it, which blocks send and which block
receives what: all of this is determined by the set of blocks alone. Here it is
said without any of the tables of a store, and the properties of the ledger are
stated in these terms.
-/

namespace RaiBlocks

/-- A set of blocks, by hash. -/
abbrev BlockSet : Type := BlockHash → Option Block

namespace BlockSet

variable (p : Env) (S : BlockSet)

/-! ## Chains -/

/-- The block `h` is on the chain of `a`: the predecessors of `h` lead to a
first block that names `a`. -/
inductive Owner : BlockHash → Account → Prop
  | first {h : BlockHash} {b : Block} {a : Account} :
      S h = some b → b.previous = 0 → b.account? = some a → Owner h a
  | next {h : BlockHash} {b : Block} {a : Account} :
      S h = some b → b.previous ≠ 0 → Owner b.previous a → Owner h a

/-- The blocks met when following `previous` from `h` to the first block. -/
inductive Chain : BlockHash → List BlockHash → Prop
  | first {h : BlockHash} {b : Block} : S h = some b → b.previous = 0 → Chain h [h]
  | next {h : BlockHash} {b : Block} {l : List BlockHash} :
      S h = some b → b.previous ≠ 0 → Chain b.previous l → Chain h (h :: l)

/-- No block has `h` as its predecessor. -/
def Last (h : BlockHash) : Prop := ∀ x b, S x = some b → b.previous ≠ h

/-- `h` is the last block of `a`. -/
def LastOf (a : Account) (h : BlockHash) : Prop := Owner S h a ∧ Last S h

/-! ## Balances -/

/-- The balance of the owner of `h` when `h` is the last block. Send and state
blocks carry it; the others are computed from the block below and from what
the source took off its own account. -/
inductive BalanceAt : BlockHash → ℕ → Prop
  | genesis : S p.genesisHash = some p.genesisBlock →
      BalanceAt p.genesisHash genesisAmount.toNat
  | send {h : BlockHash} {b : SendBlock} : S h = some (.sendBlock b) →
      BalanceAt h b.hashables.balance.toNat
  | receive {h : BlockHash} {b : ReceiveBlock} {c : Block} {n l m : ℕ} :
      S h = some (.receiveBlock b) → BalanceAt b.hashables.previous n →
      S b.hashables.source = some c → BalanceAt c.previous (l + m) →
      BalanceAt b.hashables.source l → BalanceAt h (n + m)
  | opens {h : BlockHash} {b : OpenBlock} {c : Block} {l m : ℕ} :
      S h = some (.openBlock b) → h ≠ p.genesisHash →
      S b.hashables.source = some c → BalanceAt c.previous (l + m) →
      BalanceAt b.hashables.source l → BalanceAt h m
  | change {h : BlockHash} {b : ChangeBlock} {n : ℕ} : S h = some (.changeBlock b) →
      BalanceAt b.hashables.previous n → BalanceAt h n
  | state {h : BlockHash} {b : StateBlock} : S h = some (.stateBlock b) →
      BalanceAt h b.hashables.balance.toNat

/-- The balance under a block: that of its predecessor, or nothing. -/
def PriorBalance (b : Block) (n : ℕ) : Prop :=
  (b.previous = 0 ∧ n = 0) ∨ BalanceAt p S b.previous n

/-- A state block that lowers the balance. -/
def Lowers (b : StateBlock) : Prop :=
  ∃ n, BalanceAt p S b.hashables.previous n ∧ b.hashables.balance.toNat < n

/-- The send `h` takes `m` off the balance of its account. -/
def Takes (h : BlockHash) (m : ℕ) : Prop :=
  ∃ c l, S h = some c ∧ BalanceAt p S c.previous (l + m) ∧ BalanceAt p S h l

/-! ## Sends and receives -/

/-- `h` sends to `d`. -/
inductive Sends : BlockHash → Account → Prop
  | send {h : BlockHash} {b : SendBlock} : S h = some (.sendBlock b) →
      Sends h b.hashables.destination
  | state {h : BlockHash} {b : StateBlock} : S h = some (.stateBlock b) → Lowers p S b →
      Sends h b.hashables.link

/-- `h` receives `x`. The source of the genesis block is not a block. -/
inductive Receives : BlockHash → BlockHash → Prop
  | receive {h : BlockHash} {b : ReceiveBlock} : S h = some (.receiveBlock b) →
      Receives h b.hashables.source
  | opens {h : BlockHash} {b : OpenBlock} : S h = some (.openBlock b) → h ≠ p.genesisHash →
      Receives h b.hashables.source
  | state {h : BlockHash} {b : StateBlock} : S h = some (.stateBlock b) → ¬ Lowers p S b →
      b.hashables.link ≠ 0 → Receives h b.hashables.link

/-- `x` sends to `a` and nothing receives it. -/
def Unreceived (x : BlockHash) (a : Account) : Prop := Sends p S x a ∧ ∀ y, ¬ Receives p S y x

/-- A block depends on its previous block and on the send it receives. -/
inductive DependsOn : BlockHash → BlockHash → Prop
  | previous {x : BlockHash} {b : Block} : S x = some b → b.previous ≠ 0 →
      DependsOn x b.previous
  | receives {x y : BlockHash} : Receives p S x y → DependsOn x y

/-- `h` and all blocks that transitively depend on it. -/
abbrev Dependents (x h : BlockHash) : Prop := Relation.ReflTransGen (DependsOn p S) x h

/-! ## Valid blocks -/

/-- The account a new block would belong to. -/
def OwnerOfNew (b : Block) (a : Account) : Prop :=
  match b.account? with
  | some account => account = a
  | none => Owner S b.previous a

/-- The place of a send, receive or change block: on top of the last block of
the account, which is of one of the older kinds. -/
def LegacyPlace (a : Account) (b : Block) : Prop :=
  LastOf S a b.previous ∧ ∃ q, S b.previous = some q ∧ q.isLegacy = true

/-- What a state block may do to a balance of `n`. -/
def StateTransition (a : Account) (b : StateBlock) (n : ℕ) : Prop :=
  b.hashables.balance.toNat < n ∨
  ((∃ h, Owner S h a) ∧ b.hashables.link = 0 ∧ b.hashables.balance.toNat = n) ∨
  (Unreceived p S b.hashables.link a ∧
    ∃ m, Takes p S b.hashables.link m ∧ b.hashables.balance.toNat = n + m)

/-- What each kind of block asks of its place and of its money. -/
def Fits (a : Account) : Block → Prop
  | .sendBlock b => LegacyPlace S a (.sendBlock b) ∧
      ∃ n, BalanceAt p S b.hashables.previous n ∧ b.hashables.balance.toNat ≤ n
  | .receiveBlock b => LegacyPlace S a (.receiveBlock b) ∧ Unreceived p S b.hashables.source a
  | .openBlock b => (∀ h, ¬ Owner S h a) ∧ Unreceived p S b.hashables.source a
  | .changeBlock b => LegacyPlace S a (.changeBlock b)
  | .stateBlock b =>
    (if b.hashables.previous = 0 then ∀ h, ¬ Owner S h a
      else LastOf S a b.hashables.previous) ∧
    ∃ n, PriorBalance p S (.stateBlock b) n ∧ StateTransition p S a b n

/-- **Validity of a block** against a set of blocks. -/
structure Valid (b : Block) : Prop where
  fresh : S (b.hash p) = none
  fits : ∃ a, OwnerOfNew S b a ∧ a ≠ burnAccount ∧
    p.validateMessage a (b.hash p) b.blockSignature = false ∧ Fits p S a b

end BlockSet

end RaiBlocks
