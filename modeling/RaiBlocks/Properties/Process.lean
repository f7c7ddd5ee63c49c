import RaiBlocks.Refinement.Forks

/-!
# What `process` decides, and what the ledger can recompute

`process` accepts exactly the valid blocks. Balances and amounts that the
visitors recompute are those the ledger had. A fork has an opponent, with one
exception.
-/

namespace RaiBlocks

open Foundation Sample

variable {p : Env} {U : Set Block} {s s' : BlockStore} {Λ Λ' : Lattice p} {h : BlockHash}
  {e : Entry}

/-! ## Validity -/

/-- **`process` decides validity.** In every reachable ledger the result of
processing a block is `progress` exactly when the block is valid against the
stored blocks. Every other result leaves the store as it is. -/
theorem process_decides_validity (hass : HashAssumptions p U) (hs : Ledger.Reachable p U s)
    {b : Block} (hU : b ∈ U) (now : ℕ) :
    ∃ s' ret, Ledger.process p now s b = .ok (s', ret) ∧
      (ret.code = .progress ↔ BlockSet.Valid p s.blockGet b) ∧
      (ret.code ≠ .progress → s' = s) := by
  obtain ⟨Λ, hv⟩ := Ledger.Reachable.valid hass s hs
  obtain ⟨r, hrun, hout⟩ := hv.process hass hU now
  rw [hv.refines.blockGet_eq]
  cases hout with
  | @refused ret hcode hno _ =>
    refine ⟨s, ret, hrun, ⟨fun h => absurd h hcode, fun hvalid => ?_⟩, fun _ => rfl⟩
    obtain ⟨e, hb, ad⟩ := hv.refines.admissible_of_valid hass
      (hv.supply.trans_lt (by decide)) hU hvalid
    exact absurd ad (hno e hb)
  | @accepted s' ret e ad hblock hcode _ _ _ =>
    refine ⟨s', ret, hrun, ⟨fun _ => hblock ▸ ad.valid, fun _ => hcode⟩, fun h => absurd hcode h⟩

/-- The send is valid on the genesis ledger. -/
theorem process_decides_validity_sample :
    BlockSet.Valid env first.blockGet send := by
  obtain ⟨s', ret, hrun, hiff, _⟩ := process_decides_validity assumptions
    first_reachable send_mem 1
  refine hiff.mp ?_
  have hcode : (Ledger.process env 1 first send).toOption.map
      (fun r => r.2.code) = some .progress := by decide +kernel
  rw [hrun] at hcode
  exact Option.some.inj hcode

/-! ## Recomputed quantities -/

/-- Calls during which the block `h` stays stored. -/
def Ledger.StepsKeeping (p : Env) (U : Set Block) (h : BlockHash) :
    BlockStore → BlockStore → Prop :=
  Relation.ReflTransGen fun s s' => Ledger.Step p U s s' ∧ s'.blockExists h = true

theorem Valid.stepsKeeping (hass : HashAssumptions p U) (hv : Valid U s Λ)
    (he : Λ.entry h = some e) (hrun : Ledger.StepsKeeping p U h s s') :
    ∃ Λ' : Lattice p, Valid U s' Λ' ∧ Λ'.entry h = some e := by
  induction hrun with
  | refl => exact ⟨Λ, hv, he⟩
  | tail _ hlast ih =>
    obtain ⟨Λ₁, hv₁, he₁⟩ := ih
    obtain ⟨Λ', hv', hcomp⟩ := hv₁.step hass hlast.1
    have hstored := hlast.2
    rw [hv'.refines.blocks.blockExists] at hstored
    obtain ⟨e', he'⟩ := Option.isSome_iff_exists.mp hstored
    refine ⟨Λ', hv', ?_⟩
    rcases hcomp with hgrow | hshrink
    · exact hgrow he₁
    · rw [he', Option.some.inj ((hshrink he').symm.trans he₁)]

theorem Valid.balance (hv : Valid U s Λ) (he : Λ.entry h = some e) :
    Ledger.balance p s h = .ok (BitVec.ofNat 128 e.balance) :=
  (hv.refines.blocks.readable hv.refines.blocksInfo).balance he

theorem Valid.amount (hv : Valid U s Λ) (he : Λ.entry h = some e) :
    Ledger.amount p s h = .ok (BitVec.ofNat 128 e.amount) :=
  (hv.refines.blocks.readable hv.refines.blocksInfo).amount he

theorem Entry.amount_eq_abs (e : Entry) : (e.amount : ℤ) = |(e.balance : ℤ) - e.prior| := by
  unfold Entry.amount
  split
  · rw [abs_of_neg (by omega)]
    omega
  · rw [abs_of_nonneg (by omega)]
    omega

/-- **Recomputed and stored quantities agree.** In every reachable ledger
balance and representative of the head of an account, as recomputed by the
visitors, are those in the account row. For every stored block `balance` and
`amount` end without a failed assertion; the first is the balance at the block
and the second its distance to the balance below. It is the balance the row
had when the block was the head, and the amount that `process` returned for
the block, for as long as the block stays stored. -/
theorem recomputed_agree (hass : HashAssumptions p U) (hs : Ledger.Reachable p U s) :
    (∀ a info, s.accountGet a = some info → Ledger.balance p s info.head = .ok info.balance ∧
      Ledger.representative p s info.head = .ok info.repBlock) ∧
    (∀ h b, s.blockGet h = some b → ∃ balance amount prior, Ledger.balance p s h = .ok balance ∧
      Ledger.amount p s h = .ok amount ∧ BlockSet.BalanceAt p s.blockGet h balance.toNat ∧
      BlockSet.PriorBalance p s.blockGet b prior ∧
      (amount.toNat : ℤ) = |(balance.toNat : ℤ) - prior|) ∧
    (∀ a info s', s.accountGet a = some info → Ledger.StepsKeeping p U info.head s s' →
      Ledger.balance p s' info.head = .ok info.balance) ∧
    ∀ now b s₁ ret s', b ∈ U → Ledger.process p now s b = .ok (s₁, ret) →
      ret.code = .progress → Ledger.StepsKeeping p U (b.hash p) s₁ s' →
      ∃ amount, ret.amount = some amount ∧ Ledger.amount p s' (b.hash p) = .ok amount := by
  obtain ⟨Λ, hv⟩ := Ledger.Reachable.valid hass s hs
  have hr := hv.refines
  have hread := hr.blocks.readable hr.blocksInfo
  refine ⟨fun a info hi => ?_, fun h b hb => ?_, fun a info s' hi hrun => ?_,
    fun now b s₁ ret s' hU hrun hcode hkeep => ?_⟩
  · obtain ⟨e, hd⟩ := hr.accounts.sound hi
    refine ⟨?_, ?_⟩
    · rw [hv.balance hd.head, eq_ofNat_of_toNat hd.balance]
    · rw [hread.representative hd.head, hd.rep]
  · rw [hr.blockGet_eq] at hb ⊢
    obtain ⟨e, he, rfl⟩ := Lattice.of_blocks hb
    refine ⟨_, _, e.prior, hv.balance he, hv.amount he, ?_,
      (Lattice.priorBalance_iff he).mpr rfl, ?_⟩
    · rw [toNat_ofNat_of_lt (Lattice.sound he).2.2]
      exact Lattice.balanceAt_entry h e he
    · rw [toNat_ofNat_of_lt (Lattice.sound he).2.2, ← e.amount_eq_abs]
      exact congrArg _ (Lattice.toNat_pendingInfo he)
  · obtain ⟨e, hd⟩ := hr.accounts.sound hi
    obtain ⟨Λ', hv', he'⟩ := hv.stepsKeeping hass hd.head hrun
    rw [hv'.balance he', eq_ofNat_of_toNat hd.balance]
  · obtain ⟨r, hrun', hout⟩ := hv.process hass hU now
    obtain rfl := Except.ok.inj (hrun'.symm.trans hrun)
    cases hout with
    | refused hne => exact absurd hcode hne
    | @accepted _ _ e ad hblock _ _ hamount hi =>
      have hv₁ := hv.accepted hass ad (hblock ▸ hU) hi
      obtain ⟨Λ', hv', he'⟩ := hv₁.stepsKeeping hass (Lattice.insert_entry_self ad) hkeep
      exact ⟨_, hamount, hv'.amount he'⟩

theorem recomputed_agree_sample :
    ∃ balance amount prior, Ledger.balance env store openHash = .ok balance ∧
      Ledger.amount env store openHash = .ok amount ∧
      (amount.toNat : ℤ) = |(balance.toNat : ℤ) - prior| := by
  obtain ⟨balance, amount, prior, hb, ha, _, _, heq⟩ :=
    (recomputed_agree assumptions reachable).2.1 openHash opens
      open_stored.2
  exact ⟨balance, amount, prior, hb, ha, heq⟩

/-! ## Forks -/

/-- **When a fork has an opponent.** For a block with result `fork` in a
reachable ledger, `forked_block` finds a stored block with the same root and
another hash exactly if the block is not a state block that names the last
block of a chain (then of another account) as its predecessor. In that case it
runs into its assertion. -/
theorem fork_has_opponent_iff (hass : HashAssumptions p U) (hs : Ledger.Reachable p U s)
    {b : Block} (hU : b ∈ U) {now : ℕ} {s' : BlockStore} {ret : ProcessReturn}
    (hrun : Ledger.process p now s b = .ok (s', ret)) (hfork : ret.code = .fork) :
    (∃ c, Ledger.forkedBlock p s' b = .ok c ∧ Opponent p s' b c) ↔ ¬ StateOnLast s b := by
  obtain ⟨Λ, hv⟩ := Ledger.Reachable.valid hass s hs
  have hr := hv.refines
  obtain ⟨r, hrun', hout⟩ := hv.process hass hU now
  obtain rfl := Except.ok.inj (hrun'.symm.trans hrun)
  cases hout with
  | accepted _ _ hcode => cases hfork.symm.trans hcode
  | refused _ _ hcontested =>
    obtain ⟨hfresh, hplace⟩ := hcontested hfork
    unfold StateOnLast
    rw [hr.blockGet_eq, Lattice.last_iff]
    cases hplace with
    | followed hq hh =>
      exact iff_of_true (forkedBlock_followed hr hfresh hq hh) fun hlast => hh hlast.2.2
    | opened hp ha hopen =>
      refine iff_of_true (forkedBlock_opened hr hfresh hass hU hp ha hopen) fun hlast => ?_
      have hexists := hlast.2.1
      rw [hp, hr.blocks.blockExists_false Λ.entry_zero] at hexists
      cases hexists
    | foreign hstate hq hh =>
      refine iff_of_false ?_ (not_not.mpr ⟨hstate, hr.blocks.blockExists_true hq, hh⟩)
      rintro ⟨c, hc, _⟩
      cases (forkedBlock_foreign hr hfresh hq hh).symm.trans hc

/-- The rival of the send finds it as its opponent. -/
theorem fork_has_opponent_iff_sample :
    ∃ s' ret c, Ledger.process env 3 store rival = .ok (s', ret) ∧
      Ledger.forkedBlock env s' rival = .ok c ∧
      Opponent env s' rival c := by
  have hrun := eq_ok_getD (x := Ledger.process env 3 store rival)
    (by decide +kernel) (.empty, .of .old)
  obtain ⟨c, hc, hopponent⟩ := (fork_has_opponent_iff assumptions reachable
    rival_mem hrun (by decide +kernel)).mpr
      fun hlast => absurd hlast.1 (by decide +kernel)
  exact ⟨_, _, c, hrun, hc, hopponent⟩

/-- The stray block forks, and `forked_block` fails an assertion on it: its
predecessor is the head of the genesis account. -/
theorem fork_without_opponent : HashAssumptions env blocks ∧
    Ledger.Reachable env blocks store ∧ stray ∈ blocks ∧
    ∃ s' ret, Ledger.process env 3 store stray = .ok (s', ret) ∧
      ret.code = .fork ∧ Ledger.forkedBlock env s' stray = .error .assertion := by
  have hcheck : (Ledger.process env 3 store stray).toOption.map
      (fun r => (r.2.code, Ledger.forkedBlock env r.1 stray)) =
        some (.fork, .error .assertion) := by decide +kernel
  cases hrun : Ledger.process env 3 store stray with
  | error e =>
    rw [hrun] at hcheck
    cases hcheck
  | ok r =>
    rw [hrun] at hcheck
    obtain ⟨hcode, hfault⟩ := Prod.mk.inj (Option.some.inj hcheck)
    exact ⟨assumptions, reachable, stray_mem, r.1, r.2, rfl, hcode, hfault⟩

end RaiBlocks
