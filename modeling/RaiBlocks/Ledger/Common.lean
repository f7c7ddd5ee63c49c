import RaiBlocks.Store.BlockStore

/-!
# Genesis and the chain-walking visitors

Translation of the ledger part of `rai/common.cpp`. `amount_visitor` and
`balance_visitor` call each other across accounts: the balance of a receive
needs the amount of its source, and the amount of a send needs the balance
below it. Both run a loop over their own fields; `fuel` bounds the nesting and
the iterations alike, and running out of it is a fault.
-/

namespace RaiBlocks

open Foundation

/-! ## Genesis -/

/-- The genesis account of each network variant. -/
def Env.genesisAccount (p : Env) : Account :=
  match p.network with
  | .raiTestNetwork => 0xB0311EA55708D6A53C75CDBF88300259C6D018522FE3D4D0A242E431F9E8B6D0
  | .raiBetaNetwork => 0x0311B25E0D1E1D7724BBA5BD523954F1DBCFC01CB8671D55ED2D32C7549FB252
  | .raiLiveNetwork => 0xE89208DD038FBB269987689621D52292AE9C35941A7484756ECCED92A65093BA

/-- All of the supply: the largest 128 bit number. -/
def genesisAmount : Uint128 := BitVec.allOnes 128

def burnAccount : Account := 0

/-- The genesis block of each network variant: an open block whose source,
representative and account are all the genesis account. -/
def Env.genesisOpen (p : Env) : OpenBlock where
  hashables :=
    { source := p.genesisAccount
      representative := p.genesisAccount
      account := p.genesisAccount }
  signature := match p.network with
    | .raiTestNetwork =>
      0xECDA914373A2F0CA1296475BAEE40500A7F0A7AD72A5A80C81D7FAB7F6C802B2CC7DB50F5DD0FB25B2EF11761FA7344A158DD5A700B21BD47DE5BD0F63153A02
    | .raiBetaNetwork =>
      0x34DF447C7F185673128C3516A657DFEC7906F16C68FB5A8879432E2E4FB908C8ED0DD24BBECFAB3C7852898231544A421DC8CB636EF66C82E1245083EB08EA0F
    | .raiLiveNetwork =>
      0x9F0C933C8ADE004D808EA1985FA746A7E95BA2A38F867640F53EC8F180BDFE9E2C1268DEAD7C2664F356E37ABA362BC58E46DBA03E523A7B5A19E4B6EB12BB02
  work := match p.network with
    | .raiTestNetwork => 0x9680625b39d3363d
    | .raiBetaNetwork => 0x869e17b2bfa36639
    | .raiLiveNetwork => 0x62f05417dd3fb691

def Env.genesisBlock (p : Env) : Block := .openBlock p.genesisOpen

def Env.genesisHash (p : Env) : BlockHash := p.genesisBlock.hash p

/-- `genesis::initialize`. -/
def genesisInitialize (p : Env) (now : ℕ) (s : BlockStore) : Except Fault BlockStore := do
  let hash := p.genesisHash
  assertThat (decide (s.accounts = ∅))
  let s ← s.blockPut p hash p.genesisBlock 0
  let s := s.accountPut p.genesisAccount ⟨hash, hash, hash, genesisAmount, now, 1⟩
  let s := s.representationPut p.genesisAccount genesisAmount
  let s := s.checksumPut hash
  return s.frontierPut hash p.genesisAccount

/-! ## Balance arithmetic

`uint128_t` wraps. These two are the operations on balances and amounts;
weights are moved by `representationAdd`, which wraps on purpose. -/

def balanceAdd (p : Env) (a b : Uint128) : Except Fault Uint128 :=
  if p.trap && 2 ^ 128 ≤ a.toNat + b.toNat then .error .overflow else .ok (a + b)

def balanceSub (p : Env) (a b : Uint128) : Except Fault Uint128 :=
  if p.trap && a < b then .error .overflow else .ok (a - b)

/-! ## amount_visitor and balance_visitor -/

structure AmountVisitor where
  currentAmount : BlockHash
  currentBalance : BlockHash
  amount : Uint128

structure BalanceVisitor where
  currentBalance : BlockHash
  currentAmount : BlockHash
  balance : Uint128

def AmountVisitor.visit (p : Env) (v : AmountVisitor) : Block → AmountVisitor
  | .sendBlock b =>
    { currentBalance := b.hashables.previous, amount := b.hashables.balance, currentAmount := 0 }
  | .receiveBlock b => { v with currentAmount := b.hashables.source }
  | .openBlock b =>
    if b.hashables.source ≠ p.genesisAccount then
      { v with currentAmount := b.hashables.source }
    else
      { v with amount := genesisAmount, currentAmount := 0 }
  | .stateBlock b =>
    { currentBalance := b.hashables.previous, amount := b.hashables.balance, currentAmount := 0 }
  | .changeBlock _ => { v with amount := 0, currentAmount := 0 }

def AmountVisitor.running (v : AmountVisitor) : Bool :=
  v.currentAmount ≠ 0 || v.currentBalance ≠ 0

/-- One iteration of `amount_visitor::compute (blockHash)`; `balanceOf` is the
nested `balance_visitor`. -/
def AmountVisitor.step (p : Env) (s : BlockStore)
    (balanceOf : BlockHash → Except Fault Uint128) (blockHash : BlockHash)
    (v : AmountVisitor) : Except Fault AmountVisitor :=
  if v.currentAmount ≠ 0 then
    match s.blockGet v.currentAmount with
    | some block => .ok (v.visit p block)
    | none =>
      if blockHash = p.genesisAccount then
        .ok { v with amount := genesisAmount, currentAmount := 0 }
      else .error .assertion
  else do
    let prev ← balanceOf v.currentBalance
    let amount ← if v.amount < prev then balanceSub p prev v.amount
      else balanceSub p v.amount prev
    return { v with amount := amount, currentBalance := 0 }

/-- A state block overwrites the balance, every other kind adds to it. -/
def BalanceVisitor.visit (p : Env) (s : BlockStore) (v : BalanceVisitor) (block : Block) :
    Except Fault BalanceVisitor :=
  match block with
  | .sendBlock b => do
    let balance ← balanceAdd p v.balance b.hashables.balance
    return { v with balance := balance, currentBalance := 0 }
  | .receiveBlock b =>
    match s.blockInfoGet (block.hash p) with
    | some blockInfo => do
      let balance ← balanceAdd p v.balance blockInfo.balance
      return { v with balance := balance, currentBalance := 0 }
    | none =>
      .ok { v with currentAmount := b.hashables.source, currentBalance := b.hashables.previous }
  | .openBlock b => .ok { v with currentAmount := b.hashables.source, currentBalance := 0 }
  | .changeBlock b =>
    match s.blockInfoGet (block.hash p) with
    | some blockInfo => do
      let balance ← balanceAdd p v.balance blockInfo.balance
      return { v with balance := balance, currentBalance := 0 }
    | none => .ok { v with currentBalance := b.hashables.previous }
  | .stateBlock b => .ok { v with balance := b.hashables.balance, currentBalance := 0 }

def BalanceVisitor.running (v : BalanceVisitor) : Bool :=
  v.currentBalance ≠ 0 || v.currentAmount ≠ 0

/-- One iteration of `balance_visitor::compute`; `amountOf` is the nested
`amount_visitor`. -/
def BalanceVisitor.step (p : Env) (s : BlockStore)
    (amountOf : BlockHash → Except Fault Uint128) (v : BalanceVisitor) :
    Except Fault BalanceVisitor :=
  if v.currentAmount ≠ 0 then do
    let amount ← amountOf v.currentAmount
    let balance ← balanceAdd p v.balance amount
    return { v with balance := balance, currentAmount := 0 }
  else
    match s.blockGet v.currentBalance with
    | none => .error .assertion
    | some block => v.visit p s block

mutual

def amountCompute (p : Env) (s : BlockStore) : ℕ → BlockHash → Except Fault Uint128
  | 0, _ => .error .outOfFuel
  | fuel + 1, blockHash => do
    let v ← whileLoop .outOfFuel AmountVisitor.running
      (AmountVisitor.step p s (balanceCompute p s fuel) blockHash) fuel ⟨blockHash, 0, 0⟩
    return v.amount

def balanceCompute (p : Env) (s : BlockStore) : ℕ → BlockHash → Except Fault Uint128
  | 0, _ => .error .outOfFuel
  | fuel + 1, blockHash => do
    let v ← whileLoop .outOfFuel BalanceVisitor.running
      (BalanceVisitor.step p s (amountCompute p s fuel)) fuel ⟨blockHash, 0, 0⟩
    return v.balance

end

/-! ## representative_visitor -/

structure RepresentativeVisitor where
  current : BlockHash
  result : BlockHash

def RepresentativeVisitor.visit (p : Env) (v : RepresentativeVisitor) (block : Block) :
    RepresentativeVisitor :=
  match block with
  | .sendBlock _ => { v with current := block.previous }
  | .receiveBlock _ => { v with current := block.previous }
  | .openBlock _ => { v with result := block.hash p }
  | .changeBlock _ => { v with result := block.hash p }
  | .stateBlock _ => { v with result := block.hash p }

def RepresentativeVisitor.step (p : Env) (s : BlockStore) (v : RepresentativeVisitor) :
    Except Fault RepresentativeVisitor :=
  match s.blockGet v.current with
  | none => .error .assertion
  | some block => .ok (v.visit p block)

def representativeCompute (p : Env) (s : BlockStore) (fuel : ℕ) (h : BlockHash) :
    Except Fault BlockHash := do
  let v ← whileLoop .outOfFuel (fun v : RepresentativeVisitor => v.result = 0)
    (RepresentativeVisitor.step p s) fuel ⟨h, 0⟩
  return v.result

end RaiBlocks
