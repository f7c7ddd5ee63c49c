import RaiBlocks.Ledger.Common

/-!
# Entries of the block lattice

The abstract account of a stored block: which account it belongs to, how high
it stands on the chain, the balance before and after it, and the block that
names the representative in force. None of this is written in the block; it
follows from the block and from the two blocks it may depend on, its
predecessor and the send it receives. `Justified` gives the rules, one for
each way a block can extend the lattice.

Balances are natural numbers here. That they fit in 128 bits is a premise of
the one rule that adds.
-/

namespace RaiBlocks

/-- A block with its place in the lattice. `prior` is the balance below the
block. `rank` grows along every dependency and is what inductions over the
lattice run on. -/
structure Entry where
  block : Block
  owner : Account
  height : ℕ
  prior : ℕ
  balance : ℕ
  rep : BlockHash
  rank : ℕ

namespace Entry

/-- The destination, when the block is a send. Whether a state block sends is
not in the block: it does when it lowers the balance. -/
def sendsTo (e : Entry) : Option Account :=
  match e.block with
  | .sendBlock b => some b.hashables.destination
  | .stateBlock b => if e.balance < e.prior then some b.hashables.link else none
  | _ => none

/-- The send a block receives. The source of the genesis block is the genesis
account and names no block. -/
def receives (p : Env) (e : Entry) : Option BlockHash :=
  match e.block with
  | .receiveBlock b => some b.hashables.source
  | .openBlock b =>
    if b.hashables.source = p.genesisAccount then none else some b.hashables.source
  | .stateBlock b =>
    if e.balance < e.prior ∨ b.hashables.link = 0 then none else some b.hashables.link
  | _ => none

theorem sendsTo_of_receives {p : Env} {e : Entry} {x : BlockHash} (hr : e.receives p = some x) :
    e.sendsTo = none := by
  unfold receives at hr
  unfold sendsTo
  cases hb : e.block with
  | sendBlock b =>
    rw [hb] at hr
    cases hr
  | stateBlock b =>
    rw [hb] at hr
    simp only at hr
    split at hr
    · cases hr
    · rename_i hn
      exact if_neg fun hlt => hn (Or.inl hlt)
  | _ => rfl

/-- The distance between the two balances. -/
def amount (e : Entry) : ℕ :=
  if e.balance < e.prior then e.prior - e.balance else e.balance - e.prior

end Entry

def Env.genesisEntry (p : Env) : Entry where
  block := p.genesisBlock
  owner := p.genesisAccount
  height := 1
  prior := 0
  balance := 2 ^ 128 - 1
  rep := p.genesisHash
  rank := 0

/-- The rules of the lattice: `Justified p E h e` says that `e` is the entry of
its block at hash `h`, given the entries `E` of the blocks it depends on. -/
inductive Justified (p : Env) (E : BlockHash → Option Entry) (h : BlockHash) : Entry → Prop
  | genesis : h = p.genesisHash → Justified p E h p.genesisEntry
  | send {b : SendBlock} {q : Entry} :
      E b.hashables.previous = some q → q.block.isLegacy = true →
      b.hashables.balance.toNat ≤ q.balance →
      Justified p E h
        { block := .sendBlock b, owner := q.owner, height := q.height + 1,
          prior := q.balance, balance := b.hashables.balance.toNat, rep := q.rep,
          rank := q.rank + 1 }
  | receive {b : ReceiveBlock} {q src : Entry} :
      E b.hashables.previous = some q → q.block.isLegacy = true →
      E b.hashables.source = some src → src.sendsTo = some q.owner →
      q.balance + src.amount < 2 ^ 128 →
      Justified p E h
        { block := .receiveBlock b, owner := q.owner, height := q.height + 1,
          prior := q.balance, balance := q.balance + src.amount, rep := q.rep,
          rank := q.rank + src.rank + 1 }
  | openAccount {b : OpenBlock} {src : Entry} :
      b.hashables.account ≠ 0 → b.hashables.source ≠ p.genesisAccount →
      E b.hashables.source = some src → src.sendsTo = some b.hashables.account →
      Justified p E h
        { block := .openBlock b, owner := b.hashables.account, height := 1, prior := 0,
          balance := src.amount, rep := h, rank := src.rank + 1 }
  | change {b : ChangeBlock} {q : Entry} :
      E b.hashables.previous = some q → q.block.isLegacy = true →
      Justified p E h
        { block := .changeBlock b, owner := q.owner, height := q.height + 1,
          prior := q.balance, balance := q.balance, rep := h, rank := q.rank + 1 }
  | stateSend {b : StateBlock} {q : Entry} :
      E b.hashables.previous = some q → q.owner = b.hashables.account →
      b.hashables.balance.toNat < q.balance →
      Justified p E h
        { block := .stateBlock b, owner := b.hashables.account, height := q.height + 1,
          prior := q.balance, balance := b.hashables.balance.toNat, rep := h, rank := q.rank + 1 }
  | stateChange {b : StateBlock} {q : Entry} :
      E b.hashables.previous = some q → q.owner = b.hashables.account →
      b.hashables.link = 0 → b.hashables.balance.toNat = q.balance →
      Justified p E h
        { block := .stateBlock b, owner := b.hashables.account, height := q.height + 1,
          prior := q.balance, balance := b.hashables.balance.toNat, rep := h, rank := q.rank + 1 }
  | stateReceive {b : StateBlock} {q src : Entry} :
      E b.hashables.previous = some q → q.owner = b.hashables.account →
      b.hashables.link ≠ 0 → E b.hashables.link = some src →
      src.sendsTo = some b.hashables.account → b.hashables.balance.toNat = q.balance + src.amount →
      Justified p E h
        { block := .stateBlock b, owner := b.hashables.account, height := q.height + 1,
          prior := q.balance, balance := b.hashables.balance.toNat, rep := h,
          rank := q.rank + src.rank + 1 }
  | stateOpen {b : StateBlock} {src : Entry} :
      b.hashables.account ≠ 0 → b.hashables.previous = 0 → b.hashables.link ≠ 0 →
      E b.hashables.link = some src → src.sendsTo = some b.hashables.account →
      b.hashables.balance.toNat = src.amount →
      Justified p E h
        { block := .stateBlock b, owner := b.hashables.account, height := 1, prior := 0,
          balance := b.hashables.balance.toNat, rep := h, rank := src.rank + 1 }

/-! ## What every rule has in common -/

theorem genesisAccount_ne_zero (p : Env) : p.genesisAccount ≠ 0 := by
  unfold Env.genesisAccount
  cases p.network <;> decide

/-- What a block may rest on: its predecessor and the send it receives. -/
def Entry.DependsOn (p : Env) (e : Entry) (x : BlockHash) : Prop :=
  e.block.previous = x ∨ e.receives p = some x

/-- The first block of a chain. -/
structure Entry.First (e : Entry) : Prop where
  previous : e.block.previous = 0
  root : e.block.root = e.owner
  height : e.height = 1
  prior : e.prior = 0
  account : e.block.account? = some e.owner

theorem Entry.First.sendsTo_eq {e : Entry} (hf : e.First) : e.sendsTo = none := by
  unfold Entry.sendsTo
  cases hb : e.block with
  | sendBlock b =>
    have ha := hf.account
    rw [hb] at ha
    cases ha
  | stateBlock b =>
    rw [hf.prior]
    exact if_neg (Nat.not_lt_zero _)
  | _ => rfl

/-- Send and receive blocks name no representative. -/
def Block.inheritsRep : Block → Bool
  | .sendBlock _ => true
  | .receiveBlock _ => true
  | _ => false

/-- A block on top of `q`. -/
structure Entry.Follows (e q : Entry) : Prop where
  owner : q.owner = e.owner
  height : e.height = q.height + 1
  prior : e.prior = q.balance
  rank : q.rank < e.rank
  legacy : e.block.isLegacy = true → q.block.isLegacy = true
  rep : e.block.inheritsRep = true → e.rep = q.rep

/-- A block that receives the send `src`. -/
structure Entry.Takes (e src : Entry) : Prop where
  dest : src.sendsTo = some e.owner
  balance : e.balance = e.prior + src.amount
  rank : src.rank < e.rank

/-- The balance written in a send or state block. -/
def Block.balance? : Block → Option Uint128
  | .sendBlock b => some b.hashables.balance
  | .stateBlock b => some b.hashables.balance
  | _ => none

/-- How a block moves money: it sends, it receives, or it leaves the balance
alone. -/
inductive Entry.Moves (p : Env) (E : BlockHash → Option Entry) (e : Entry) : Prop
  | sends {d : Account} : e.sendsTo = some d → e.receives p = none →
      e.balance + e.amount = e.prior → Entry.Moves p E e
  | takes {x : BlockHash} {src : Entry} : e.sendsTo = none → e.receives p = some x →
      E x = some src → e.Takes src → Entry.Moves p E e
  | keeps : e.sendsTo = none → e.receives p = none → e.balance = e.prior → Entry.Moves p E e

namespace Justified

variable {p : Env} {E : BlockHash → Option Entry} {h : BlockHash} {e : Entry}

/-- The rules read the lattice only at what the block depends on. -/
theorem transfer {E' : BlockHash → Option Entry} (hj : Justified p E h e)
    (hE : ∀ x q, e.DependsOn p x → E x = some q → E' x = some q) : Justified p E' h e := by
  cases hj with
  | genesis hh => exact .genesis hh
  | send hq hl hle => exact .send (hE _ _ (Or.inl rfl) hq) hl hle
  | receive hq hl hs hd hlt =>
    exact .receive (hE _ _ (Or.inl rfl) hq) hl (hE _ _ (Or.inr rfl) hs) hd hlt
  | openAccount h0 hg hs hd =>
    exact .openAccount h0 hg (hE _ _ (Or.inr (if_neg hg)) hs) hd
  | change hq hl => exact .change (hE _ _ (Or.inl rfl) hq) hl
  | stateSend hq ho hlt => exact .stateSend (hE _ _ (Or.inl rfl) hq) ho hlt
  | stateChange hq ho hl hb => exact .stateChange (hE _ _ (Or.inl rfl) hq) ho hl hb
  | stateReceive hq ho hl hs hd hb =>
    refine .stateReceive (hE _ _ (Or.inl rfl) hq) ho hl (hE _ _ (Or.inr ?_) hs) hd hb
    exact if_neg (by simp only [hl, or_false, not_lt]; omega)
  | stateOpen h0 hp hl hs hd hb =>
    refine .stateOpen h0 hp hl (hE _ _ (Or.inr ?_) hs) hd hb
    exact if_neg (by simp only [hl, or_false, not_lt]; omega)

theorem first_or_follows (hj : Justified p E h e) :
    e.First ∨ ∃ q, E e.block.previous = some q ∧ e.Follows q := by
  cases hj with
  | genesis hh => exact Or.inl ⟨rfl, rfl, rfl, rfl, rfl⟩
  | send hq hl hle =>
    exact Or.inr ⟨_, hq, rfl, rfl, rfl, Nat.lt_succ_self _, fun _ => hl, fun _ => rfl⟩
  | receive hq hl hs hd hlt =>
    exact Or.inr ⟨_, hq, rfl, rfl, rfl, by show _ < _ + _ + 1; omega, fun _ => hl, fun _ => rfl⟩
  | openAccount h0 hg hs hd => exact Or.inl ⟨rfl, rfl, rfl, rfl, rfl⟩
  | change hq hl =>
    exact Or.inr ⟨_, hq, rfl, rfl, rfl, Nat.lt_succ_self _, fun _ => hl, fun hr => nomatch hr⟩
  | stateSend hq ho hlt =>
    exact Or.inr ⟨_, hq, ho, rfl, rfl, Nat.lt_succ_self _, (fun hl => nomatch hl),
      fun hr => nomatch hr⟩
  | stateChange hq ho hl hb =>
    exact Or.inr ⟨_, hq, ho, rfl, rfl, Nat.lt_succ_self _, (fun hl => nomatch hl),
      fun hr => nomatch hr⟩
  | stateReceive hq ho hl hs hd hb =>
    exact Or.inr ⟨_, hq, ho, rfl, rfl, by show _ < _ + _ + 1; omega, (fun hl => nomatch hl),
      fun hr => nomatch hr⟩
  | stateOpen h0 hp hl hs hd hb =>
    exact Or.inl ⟨hp, by simp [Block.root, hp], rfl, rfl, rfl⟩

/-- A block that names a representative is its own representative block. -/
theorem rep_self (hj : Justified p E h e) (hn : e.block.inheritsRep = false) : e.rep = h := by
  cases hj with
  | genesis hh => exact hh.symm
  | send => cases hn
  | receive => cases hn
  | _ => rfl

theorem balance?_toNat (hj : Justified p E h e) {x : Uint128} (hx : e.block.balance? = some x) :
    x.toNat = e.balance := by
  cases hj with
  | genesis hh => cases hx
  | receive hq hl hs hd hlt => cases hx
  | openAccount h0 hg hs hd => cases hx
  | change hq hl => cases hx
  | _ =>
    obtain rfl := Option.some.inj hx
    rfl

theorem takes (hj : Justified p E h e) {x : BlockHash} (hx : e.receives p = some x) :
    ∃ src, E x = some src ∧ e.Takes src := by
  cases hj with
  | genesis hh => simp [Entry.receives, Env.genesisEntry, Env.genesisBlock, Env.genesisOpen] at hx
  | send hq hl hle => simp [Entry.receives] at hx
  | receive hq hl hs hd hlt =>
    obtain rfl := Option.some.inj hx
    exact ⟨_, hs, hd, rfl, by show _ < _ + _ + 1; omega⟩
  | openAccount h0 hg hs hd =>
    simp only [Entry.receives, if_neg hg, Option.some.injEq] at hx
    subst hx
    exact ⟨_, hs, hd, (Nat.zero_add _).symm, Nat.lt_succ_self _⟩
  | change hq hl => simp [Entry.receives] at hx
  | stateSend hq ho hlt => simp [Entry.receives, hlt] at hx
  | stateChange hq ho hl hb => simp [Entry.receives, hl] at hx
  | stateReceive hq ho hl hs hd hb =>
    simp only [Entry.receives] at hx
    split at hx
    · cases hx
    · obtain rfl := Option.some.inj hx
      exact ⟨_, hs, hd, hb, by show _ < _ + _ + 1; omega⟩
  | stateOpen h0 hp hl hs hd hb =>
    simp only [Entry.receives] at hx
    split at hx
    · cases hx
    · obtain rfl := Option.some.inj hx
      exact ⟨_, hs, hd, by rw [hb, Nat.zero_add], Nat.lt_succ_self _⟩

theorem of_openBlock (hj : Justified p E h e) (hg : h ≠ p.genesisHash) {b : OpenBlock}
    (hb : e.block = .openBlock b) : e.owner = b.hashables.account ∧
      e.receives p = some b.hashables.source ∧ b.hashables.account ≠ 0 := by
  cases hj with
  | genesis hh => exact absurd hh hg
  | openAccount h0 hne hs hd =>
    cases hb
    exact ⟨rfl, if_neg hne, h0⟩
  | _ => cases hb

theorem of_changeBlock (hj : Justified p E h e) {b : ChangeBlock}
    (hb : e.block = .changeBlock b) : e.balance = e.prior := by
  cases hj with
  | change hq hl => rfl
  | _ => cases hb

/-- A state block that does not lower the balance and has a link receives. -/
theorem moves_of_link (hj : Justified p E h e) {b : StateBlock} (hb : e.block = .stateBlock b)
    (hle : e.prior ≤ e.balance) (hl : b.hashables.link ≠ 0) : e.Moves p E := by
  have hlt : ¬ e.balance < e.prior := not_lt.mpr hle
  have hrec : e.receives p = some b.hashables.link := by
    unfold Entry.receives
    rw [hb]
    exact if_neg (not_or.mpr ⟨hlt, hl⟩)
  obtain ⟨src, hsrc, ht⟩ := hj.takes hrec
  refine .takes ?_ hrec hsrc ht
  unfold Entry.sendsTo
  rw [hb]
  exact if_neg hlt

/-- Every block but genesis moves money in one of the three ways. -/
theorem moves (hj : Justified p E h e) (hg : h ≠ p.genesisHash) : e.Moves p E := by
  have htakes := fun x => hj.takes (x := x)
  have hlink := fun b => hj.moves_of_link (b := b)
  cases hj with
  | genesis hh => exact absurd hh hg
  | send hq hl hle =>
    refine .sends rfl rfl ?_
    simp only [Entry.amount]
    split <;> omega
  | receive hq hl hs hd hlt =>
    obtain ⟨src, hsrc, ht⟩ := htakes _ rfl
    exact .takes rfl rfl hsrc ht
  | openAccount h0 hne hs hd =>
    obtain ⟨src, hsrc, ht⟩ := htakes _ (if_neg hne)
    exact .takes rfl (if_neg hne) hsrc ht
  | change hq hl => exact .keeps rfl rfl rfl
  | stateSend hq ho hlt =>
    refine .sends (if_pos hlt) (if_pos (Or.inl hlt)) ?_
    simp only [Entry.amount, if_pos hlt]
    omega
  | stateChange hq ho hl hb => exact .keeps (if_neg hb.ge.not_gt) (if_pos (Or.inr hl)) hb
  | stateReceive hq ho hl hs hd hb => exact hlink _ rfl ((Nat.le_add_right _ _).trans_eq hb.symm) hl
  | stateOpen h0 hp hl hs hd hb => exact hlink _ rfl (Nat.zero_le _) hl

/-- The entry as a function of the block. An open block is told from genesis by its source, and
what a state block does by its predecessor, its balance and its link. -/
def entryOf (p : Env) (E : BlockHash → Option Entry) (h : BlockHash) : Block → Option Entry
  | .sendBlock b => (E b.hashables.previous).map fun q =>
    { block := .sendBlock b, owner := q.owner, height := q.height + 1, prior := q.balance,
      balance := b.hashables.balance.toNat, rep := q.rep, rank := q.rank + 1 }
  | .receiveBlock b => (E b.hashables.previous).bind fun q => (E b.hashables.source).map fun src =>
    { block := .receiveBlock b, owner := q.owner, height := q.height + 1, prior := q.balance,
      balance := q.balance + src.amount, rep := q.rep, rank := q.rank + src.rank + 1 }
  | .openBlock b =>
    if b.hashables.source = p.genesisAccount then some p.genesisEntry
    else (E b.hashables.source).map fun src =>
      { block := .openBlock b, owner := b.hashables.account, height := 1, prior := 0,
        balance := src.amount, rep := h, rank := src.rank + 1 }
  | .changeBlock b => (E b.hashables.previous).map fun q =>
    { block := .changeBlock b, owner := q.owner, height := q.height + 1, prior := q.balance,
      balance := q.balance, rep := h, rank := q.rank + 1 }
  | .stateBlock b =>
    let entry (height prior rank : ℕ) : Entry :=
      { block := .stateBlock b, owner := b.hashables.account, height, prior,
        balance := b.hashables.balance.toNat, rep := h, rank }
    match E b.hashables.previous with
    | none => (E b.hashables.link).map fun src => entry 1 0 (src.rank + 1)
    | some q =>
      if b.hashables.balance.toNat < q.balance ∨ b.hashables.link = 0 then
        some (entry (q.height + 1) q.balance (q.rank + 1))
      else (E b.hashables.link).map fun src =>
        entry (q.height + 1) q.balance (q.rank + src.rank + 1)

theorem entryOf_block (h0 : E 0 = none) (hj : Justified p E h e) :
    entryOf p E h e.block = some e := by
  cases hj with
  | genesis hh => exact if_pos rfl
  | send hq hl hle => simp [entryOf, hq]
  | receive hq hl hs hd hlt => simp [entryOf, hq, hs]
  | openAccount hne hsource hs hd => simp [entryOf, hsource, hs]
  | change hq hl => simp [entryOf, hq]
  | stateSend hq ho hlt => simp [entryOf, hq, hlt]
  | stateChange hq ho hl hb => simp [entryOf, hq, hl]
  | stateReceive hq ho hl hs hd hb =>
    have hrec := not_or.mpr ⟨(hb ▸ Nat.le_add_right _ _).not_gt, hl⟩
    simp only [entryOf, hq, if_neg hrec, hs, Option.map_some]
  | stateOpen hne hp hl hs hd hb => simp only [entryOf, hp, h0, hs, Option.map_some]

/-- A block and what it depends on determine its entry. -/
theorem unique {e' : Entry} (h0 : E 0 = none) (hj : Justified p E h e)
    (hj' : Justified p E h e') (hb : e.block = e'.block) : e = e' := by
  refine Option.some.inj ?_
  calc some e = entryOf p E h e.block := (hj.entryOf_block h0).symm
    _ = entryOf p E h e'.block := by rw [hb]
    _ = some e' := hj'.entryOf_block h0

end Justified

end RaiBlocks
