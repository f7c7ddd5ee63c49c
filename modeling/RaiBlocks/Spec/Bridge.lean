import RaiBlocks.Spec.BlockSet
import RaiBlocks.Lattice.Trim

/-!
# A lattice says what its blocks say

The annotations of a lattice are those that the set of its blocks determines:
owner, balance, sends, receives and dependencies, each as an equivalence
between the relation on block sets and the field of the entry.
-/

namespace RaiBlocks.Lattice

variable {p : Env} {Λ Λ' : Lattice p} {h x : BlockHash} {e q : Entry} {a d : Account} {n : ℕ}

/-- The blocks of a lattice. -/
def blocks (Λ : Lattice p) : BlockSet := fun h => (Λ.entry h).map Entry.block

theorem blocks_some (he : Λ.entry h = some e) : Λ.blocks h = some e.block := by
  unfold blocks
  rw [he]
  rfl

theorem of_blocks {b : Block} (hb : Λ.blocks h = some b) : ∃ e, Λ.entry h = some e ∧ e.block = b :=
  Option.map_eq_some_iff.mp hb

theorem blocks_none : Λ.blocks h = none ↔ Λ.entry h = none := Option.map_eq_none_iff

/-! ## Chains -/

theorem owner_iff : Λ.blocks.Owner h a ↔ ∃ e, Λ.entry h = some e ∧ e.owner = a := by
  constructor
  · intro ho
    induction ho with
    | first hb hp ha =>
      obtain ⟨e, he, rfl⟩ := of_blocks hb
      exact ⟨e, he, (account?_eq he ha).symm⟩
    | next hb hp _ ih =>
      obtain ⟨e, he, rfl⟩ := of_blocks hb
      obtain ⟨q, hq, hown⟩ := ih
      obtain ⟨q', hq', hfol⟩ := follows_of_previous_ne he hp
      obtain rfl := Option.some.inj (hq.symm.trans hq')
      exact ⟨e, he, hfol.owner.symm.trans hown⟩
  · rintro ⟨e, he, rfl⟩
    refine rank_induction (P := fun h e => Λ.blocks.Owner h e.owner) ?_ h e he
    intro h e he ih
    rcases first_or_follows he with hf | ⟨q, hq, hfol⟩
    · exact .first (blocks_some he) hf.previous hf.account
    · rw [← hfol.owner]
      exact .next (blocks_some he) (Λ.ne_zero hq) (ih _ q hq hfol.rank)

theorem last_iff : Λ.blocks.Last h ↔ Λ.IsHead h := by
  constructor
  · intro hl x e he
    exact hl x e.block (blocks_some he)
  · intro hh x b hb
    obtain ⟨e, he, rfl⟩ := of_blocks hb
    exact hh x e he

theorem lastOf_iff : Λ.blocks.LastOf a h ↔ ∃ e, Λ.entry h = some e ∧ e.owner = a ∧ Λ.IsHead h := by
  unfold BlockSet.LastOf
  rw [owner_iff, last_iff]
  exact ⟨fun ⟨⟨e, he, ho⟩, hh⟩ => ⟨e, he, ho, hh⟩, fun ⟨e, he, ho, hh⟩ => ⟨⟨e, he, ho⟩, hh⟩⟩

/-! ## Balances -/

/-- A send stands on a block, whose balance it lowers by its amount. -/
theorem below_of_sendsTo (he : Λ.entry h = some e) (hd : e.sendsTo = some d) :
    ∃ q, Λ.entry e.block.previous = some q ∧ e.Follows q ∧ q.balance = e.balance + e.amount := by
  have hg : h ≠ p.genesisHash := by
    rintro rfl
    obtain rfl := Option.some.inj (Λ.genesis.symm.trans he)
    cases hd
  have hmove : e.balance + e.amount = e.prior := by
    cases (Λ.justified he).moves hg with
    | sends _ _ hmove => exact hmove
    | takes hn => cases hn.symm.trans hd
    | keeps hn => cases hn.symm.trans hd
  rcases first_or_follows he with hf | ⟨q, hq, hfol⟩
  · cases hf.sendsTo_eq.symm.trans hd
  · exact ⟨q, hq, hfol, hfol.prior.symm.trans hmove.symm⟩

theorem amount_of_below {l m : ℕ} (he : Λ.entry h = some e) (hd : e.sendsTo = some d)
    (hq : Λ.entry e.block.previous = some q) (hl : e.balance = l) (hm : q.balance = l + m) :
    e.amount = m := by
  obtain ⟨q', hq', _, hbal⟩ := below_of_sendsTo he hd
  obtain rfl := Option.some.inj (hq.symm.trans hq')
  omega

theorem balance_of_balanceAt (hb : Λ.blocks.BalanceAt p h n) :
    ∃ e, Λ.entry h = some e ∧ e.balance = n := by
  induction hb with
  | genesis _ => exact ⟨_, Λ.genesis, rfl⟩
  | send hb =>
    obtain ⟨e, he, hblock⟩ := of_blocks hb
    exact ⟨e, he, ((Λ.justified he).balance?_toNat (by rw [hblock]; rfl)).symm⟩
  | @receive h b c n l m hb _ hc _ _ ihn ihk ihl =>
    obtain ⟨e, he, hblock⟩ := of_blocks hb
    obtain ⟨src, hs, rfl⟩ := of_blocks hc
    obtain ⟨q, hq, rfl⟩ := ihn
    obtain ⟨k, hk, hbelow⟩ := ihk
    obtain ⟨src', hs', hl⟩ := ihl
    obtain rfl := Option.some.inj (hs.symm.trans hs')
    obtain ⟨src', hs', ht⟩ := (Λ.justified he).takes (x := b.hashables.source) (by
      unfold Entry.receives
      rw [hblock])
    obtain rfl := Option.some.inj (hs.symm.trans hs')
    obtain ⟨q', hq', hfol⟩ := follows_of_account?_eq he (by rw [hblock]; rfl)
    rw [hblock] at hq'
    obtain rfl := Option.some.inj (hq.symm.trans hq')
    refine ⟨e, he, ?_⟩
    rw [ht.balance, hfol.prior, amount_of_below hs ht.dest hk hl hbelow]
  | @opens h b c l m hb hg hc _ _ ihk ihl =>
    obtain ⟨e, he, hblock⟩ := of_blocks hb
    obtain ⟨src, hs, rfl⟩ := of_blocks hc
    obtain ⟨k, hk, hbelow⟩ := ihk
    obtain ⟨src', hs', hl⟩ := ihl
    obtain rfl := Option.some.inj (hs.symm.trans hs')
    obtain ⟨_, hrec, _⟩ := (Λ.justified he).of_openBlock hg hblock
    obtain ⟨src', hs', ht⟩ := (Λ.justified he).takes hrec
    obtain rfl := Option.some.inj (hs.symm.trans hs')
    have hf := first_of_previous_eq he (by rw [hblock]; rfl)
    refine ⟨e, he, ?_⟩
    rw [ht.balance, hf.prior, amount_of_below hs ht.dest hk hl hbelow, Nat.zero_add]
  | @change h b n hb _ ih =>
    obtain ⟨e, he, hblock⟩ := of_blocks hb
    obtain ⟨q, hq, rfl⟩ := ih
    obtain ⟨q', hq', hfol⟩ := follows_of_account?_eq he (by rw [hblock]; rfl)
    rw [hblock] at hq'
    obtain rfl := Option.some.inj (hq.symm.trans hq')
    exact ⟨e, he, ((Λ.justified he).of_changeBlock hblock).trans hfol.prior⟩
  | state hb =>
    obtain ⟨e, he, hblock⟩ := of_blocks hb
    exact ⟨e, he, ((Λ.justified he).balance?_toNat (by rw [hblock]; rfl)).symm⟩

theorem balanceAt_entry : ∀ h e, Λ.entry h = some e → Λ.blocks.BalanceAt p h e.balance := by
  refine rank_induction ?_
  intro h e he ih
  -- the balances a received send is read off
  have hsource : ∀ {x src d}, Λ.entry x = some src → src.sendsTo = some d → src.rank < e.rank →
      Λ.blocks.BalanceAt p src.block.previous (src.balance + src.amount) ∧
        Λ.blocks.BalanceAt p x src.balance := by
    intro x src d hs hd hlt
    obtain ⟨k, hk, hfol, hbal⟩ := below_of_sendsTo hs hd
    rw [← hbal]
    exact ⟨ih _ k hk (hfol.rank.trans hlt), ih _ src hs hlt⟩
  have hb := blocks_some he
  have hj := Λ.justified he
  cases hj with
  | genesis hh =>
    subst hh
    exact .genesis hb
  | send => exact .send hb
  | receive hq hl hs hd hlt =>
    obtain ⟨hk, hsrc⟩ := hsource hs hd (by show _ < _ + _ + 1; omega)
    exact .receive hb (ih _ _ hq (by show _ < _ + _ + 1; omega)) (blocks_some hs) hk hsrc
  | openAccount h0 hg hs hd =>
    obtain ⟨hk, hsrc⟩ := hsource hs hd (Nat.lt_succ_self _)
    refine .opens hb ?_ (blocks_some hs) hk hsrc
    rintro rfl
    have hblock := congrArg Entry.block (Option.some.inj (he.symm.trans Λ.genesis))
    rw [Block.openBlock.inj hblock] at hg
    exact hg rfl
  | @change b q hq hl => exact .change hb (ih _ q hq (Nat.lt_succ_self _))
  | _ => exact .state hb

theorem balanceAt_iff : Λ.blocks.BalanceAt p h n ↔ ∃ e, Λ.entry h = some e ∧ e.balance = n := by
  refine ⟨balance_of_balanceAt, ?_⟩
  rintro ⟨e, he, rfl⟩
  exact balanceAt_entry h e he

theorem priorBalance_iff (he : Λ.entry h = some e) :
    Λ.blocks.PriorBalance p e.block n ↔ e.prior = n := by
  unfold BlockSet.PriorBalance
  rw [balanceAt_iff]
  rcases first_or_follows he with hf | ⟨q, hq, hfol⟩
  · rw [hf.previous, hf.prior, Λ.entry_zero]
    constructor
    · rintro (⟨_, hn⟩ | ⟨_, h0, _⟩)
      · exact hn.symm
      · cases h0
    · rintro rfl
      exact Or.inl ⟨rfl, rfl⟩
  · rw [hfol.prior]
    constructor
    · rintro (⟨h0, _⟩ | ⟨q', hq', hn⟩)
      · exact absurd h0 (Λ.ne_zero hq)
      · rw [Option.some.inj (hq.symm.trans hq'), hn]
    · rintro rfl
      exact Or.inr ⟨q, hq, rfl⟩

theorem lowers_iff {b : StateBlock} (he : Λ.entry h = some e) (hb : e.block = .stateBlock b) :
    Λ.blocks.Lowers p b ↔ e.balance < e.prior := by
  have hbal : b.hashables.balance.toNat = e.balance :=
    (Λ.justified he).balance?_toNat (by rw [hb]; rfl)
  have hprev : b.hashables.previous = e.block.previous := by
    rw [hb]
    rfl
  unfold BlockSet.Lowers
  rw [hbal, hprev]
  constructor
  · rintro ⟨n, hn, hlt⟩
    rw [(priorBalance_iff he).mp (Or.inr hn)]
    exact hlt
  · intro hlt
    rcases first_or_follows he with hf | ⟨q, hq, hfol⟩
    · rw [hf.prior] at hlt
      exact absurd hlt (Nat.not_lt_zero _)
    · exact ⟨q.balance, balanceAt_entry _ q hq, hfol.prior ▸ hlt⟩

/-! ## Sends, receives, dependencies -/

theorem sends_iff : Λ.blocks.Sends p h d ↔ ∃ e, Λ.entry h = some e ∧ e.sendsTo = some d := by
  constructor
  · intro hs
    cases hs with
    | send hb =>
      obtain ⟨e, he, hblock⟩ := of_blocks hb
      refine ⟨e, he, ?_⟩
      unfold Entry.sendsTo
      rw [hblock]
    | state hb hlow =>
      obtain ⟨e, he, hblock⟩ := of_blocks hb
      refine ⟨e, he, ?_⟩
      unfold Entry.sendsTo
      rw [hblock]
      exact if_pos ((lowers_iff he hblock).mp hlow)
  · rintro ⟨e, he, hs⟩
    have hb := blocks_some he
    unfold Entry.sendsTo at hs
    cases hblock : e.block with
    | sendBlock b =>
      rw [hblock] at hs hb
      obtain rfl := Option.some.inj hs
      exact .send hb
    | stateBlock b =>
      rw [hblock] at hs hb
      obtain ⟨hlt, hs⟩ := Option.ite_none_right_eq_some.mp hs
      obtain rfl := Option.some.inj hs
      exact .state hb ((lowers_iff he hblock).mpr hlt)
    | _ =>
      rw [hblock] at hs
      cases hs

theorem receives_iff :
    Λ.blocks.Receives p h x ↔ ∃ e, Λ.entry h = some e ∧ e.receives p = some x := by
  constructor
  · intro hr
    cases hr with
    | receive hb =>
      obtain ⟨e, he, hblock⟩ := of_blocks hb
      refine ⟨e, he, ?_⟩
      unfold Entry.receives
      rw [hblock]
    | opens hb hg =>
      obtain ⟨e, he, hblock⟩ := of_blocks hb
      exact ⟨e, he, ((Λ.justified he).of_openBlock hg hblock).2.1⟩
    | state hb hlow hlink =>
      obtain ⟨e, he, hblock⟩ := of_blocks hb
      refine ⟨e, he, ?_⟩
      unfold Entry.receives
      rw [hblock]
      exact if_neg (not_or.mpr ⟨mt (lowers_iff he hblock).mpr hlow, hlink⟩)
  · rintro ⟨e, he, hr⟩
    have hb := blocks_some he
    unfold Entry.receives at hr
    cases hblock : e.block with
    | receiveBlock b =>
      rw [hblock] at hr hb
      obtain rfl := Option.some.inj hr
      exact .receive hb
    | openBlock b =>
      rw [hblock] at hr hb
      obtain ⟨hne, hr⟩ := Option.ite_none_left_eq_some.mp hr
      obtain rfl := Option.some.inj hr
      refine .opens hb ?_
      rintro rfl
      rw [← Option.some.inj (Λ.genesis.symm.trans he)] at hblock
      rw [← Block.openBlock.inj hblock] at hne
      exact hne rfl
    | stateBlock b =>
      rw [hblock] at hr hb
      obtain ⟨hne, hr⟩ := Option.ite_none_left_eq_some.mp hr
      obtain rfl := Option.some.inj hr
      obtain ⟨hlow, hlink⟩ := not_or.mp hne
      exact .state hb (mt (lowers_iff he hblock).mp hlow) hlink
    | _ =>
      rw [hblock] at hr
      cases hr

theorem unreceived_iff : Λ.blocks.Unreceived p x a ↔
    ∃ src, Λ.entry x = some src ∧ src.sendsTo = some a ∧ ¬ Λ.Received x := by
  unfold BlockSet.Unreceived Received
  rw [sends_iff]
  simp only [receives_iff]
  constructor
  · rintro ⟨⟨src, hs, hd⟩, hnr⟩
    exact ⟨src, hs, hd, fun ⟨y, ey, hy, hrec⟩ => hnr y ⟨ey, hy, hrec⟩⟩
  · rintro ⟨src, hs, hd, hnr⟩
    exact ⟨⟨src, hs, hd⟩, fun y ⟨ey, hy, hrec⟩ => hnr ⟨y, ey, hy, hrec⟩⟩

theorem takes_iff (he : Λ.entry h = some e) (hd : e.sendsTo = some d) {m : ℕ} :
    Λ.blocks.Takes p h m ↔ e.amount = m := by
  constructor
  · rintro ⟨c, l, hc, hk, hl⟩
    rw [blocks_some he] at hc
    obtain rfl := Option.some.inj hc
    obtain ⟨k, hk, hbelow⟩ := balance_of_balanceAt hk
    obtain ⟨e', he', hl⟩ := balance_of_balanceAt hl
    obtain rfl := Option.some.inj (he.symm.trans he')
    exact amount_of_below he hd hk hl hbelow
  · rintro rfl
    obtain ⟨q, hq, _, hbal⟩ := below_of_sendsTo he hd
    exact ⟨e.block, e.balance, blocks_some he, hbal ▸ balanceAt_entry _ q hq,
      balanceAt_entry h e he⟩

theorem dependsOn_iff : Λ.blocks.DependsOn p x h ↔ Λ.Dep x h := by
  constructor
  · intro hd
    cases hd with
    | previous hb hp =>
      obtain ⟨e, he, rfl⟩ := of_blocks hb
      obtain ⟨q, hq, _⟩ := follows_of_previous_ne he hp
      exact ⟨e, q, he, hq, Or.inl rfl⟩
    | receives hr =>
      obtain ⟨e, he, hrec⟩ := receives_iff.mp hr
      obtain ⟨src, hs, _⟩ := (Λ.justified he).takes hrec
      exact ⟨e, src, he, hs, Or.inr hrec⟩
  · rintro ⟨e, q, he, hq, rfl | hrec⟩
    · exact .previous (blocks_some he) (Λ.ne_zero hq)
    · exact .receives (receives_iff.mpr ⟨e, he, hrec⟩)

theorem dependents_iff : Λ.blocks.Dependents p x h ↔ Λ.Rests x h := by
  have heq : Λ.blocks.DependsOn p = Λ.Dep := funext₂ fun _ _ => propext dependsOn_iff
  unfold BlockSet.Dependents
  rw [heq]

/-! ## The blocks determine the lattice -/

theorem entry_of_blocks (hb : Λ.blocks = Λ'.blocks) : ∀ h e, Λ.entry h = some e →
    Λ'.entry h = some e := by
  refine rank_induction ?_
  intro h e he ih
  have hstored : Λ'.blocks h = some e.block := hb ▸ blocks_some he
  obtain ⟨e', he', hblock⟩ := of_blocks hstored
  have hj : Justified p Λ'.entry h e := (Λ.justified he).transfer fun x q hd hq =>
    ih x q hq (Dep.rank_lt ⟨e, q, he, hq, hd⟩ he hq)
  rw [he', hj.unique Λ'.entry_zero (Λ'.justified he') hblock.symm]

/-- **The blocks determine the lattice.** -/
theorem ext_blocks (hb : Λ.blocks = Λ'.blocks) (h : BlockHash) : Λ.entry h = Λ'.entry h := by
  cases he : Λ.entry h with
  | some e => exact (entry_of_blocks hb h e he).symm
  | none =>
    cases he' : Λ'.entry h with
    | none => rfl
    | some e' => exact he.symm.trans (entry_of_blocks hb.symm h e' he')

theorem eq_of_blocks (hb : Λ.blocks = Λ'.blocks) : Λ = Λ' := by
  have hentry : Λ.entry = Λ'.entry := funext (ext_blocks hb)
  cases Λ
  cases Λ'
  cases hentry
  rfl

end RaiBlocks.Lattice
