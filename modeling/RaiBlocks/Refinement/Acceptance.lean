import RaiBlocks.Refinement.Determined

/-!
# Accepting blocks

A block is accepted exactly if it is valid, and then it joins the stored blocks. Blocks that
are accepted one after the other do so together, and rolling back the last one takes it away
alone.
-/

namespace RaiBlocks

open Foundation

variable {p : Env} {U : Set Block} {s s' : BlockStore} {Λ Λ' : Lattice p}

section Accept

variable (hass : HashAssumptions p U) {b : Block}

include hass

/-- A block that makes progress joins the stored blocks. -/
theorem Valid.progress (hv : Valid U s Λ) (hU : b ∈ U) {now : ℕ} {ret : ProcessReturn}
    (hrun : Ledger.process p now s b = .ok (s', ret)) (hcode : ret.code = .progress) :
    ∃ e, ∃ ad : Λ.Admissible (b.hash p) e, e.block = b ∧ Valid U s' (Λ.insert ad) := by
  obtain ⟨r, hrun', hout⟩ := hv.process hass hU now
  obtain rfl := Except.ok.inj (hrun'.symm.trans hrun)
  cases hout with
  | refused hne => exact absurd hcode hne
  | @accepted _ _ e ad hblock _ _ _ hi =>
    exact ⟨e, ad, hblock, hv.accepted hass ad (hblock ▸ hU) hi⟩

omit hass in
theorem Lattice.insert_blocks {h x : BlockHash} {e : Entry} (ad : Λ.Admissible h e) :
    (Λ.insert ad).blocks x = some b ↔ Λ.blocks x = some b ∨ e.block = b ∧ x = h := by
  constructor
  · intro hb
    obtain ⟨ex, hx, rfl⟩ := of_blocks hb
    by_cases hxh : x = h
    · subst hxh
      rw [insert_entry_self ad] at hx
      rw [Option.some.inj hx]
      exact Or.inr ⟨rfl, rfl⟩
    · rw [insert_entry_of_ne ad hxh] at hx
      exact Or.inl (blocks_some hx)
  · rintro (hb | ⟨rfl, rfl⟩)
    · obtain ⟨ex, hx, rfl⟩ := of_blocks hb
      exact blocks_some (insert_entry_of_stored ad hx)
    · exact blocks_some (insert_entry_self ad)

/-- Blocks accepted one after the other join the stored blocks. -/
theorem Valid.processAll {blocks : List (ℕ × Block)} (hU : ∀ x ∈ blocks, x.2 ∈ U) :
    ∀ {s Λ s' codes}, Valid (p := p) U s Λ → Ledger.processAll p s blocks = .ok (s', codes) →
    (∀ c ∈ codes, c = .progress) → ∃ Λ' : Lattice p, Valid U s' Λ' ∧ ∀ x b,
      Λ'.blocks x = some b ↔ Λ.blocks x = some b ∨ b ∈ blocks.map Prod.snd ∧ x = b.hash p := by
  induction blocks with
  | nil =>
    intro s Λ s' codes hv hrun _
    cases hrun
    exact ⟨Λ, hv, by simp⟩
  | cons y blocks ih =>
    intro s Λ s' codes hv hrun hcodes
    obtain ⟨s₁, ret, codes', hp, hrest, rfl⟩ := Ledger.processAll_cons hrun
    obtain ⟨e, ad, hblock, hv₁⟩ := hv.progress hass (hU y List.mem_cons_self) hp
      (hcodes _ List.mem_cons_self)
    obtain ⟨Λ', hv', hiff⟩ := ih (fun z hz => hU z (List.mem_cons_of_mem _ hz)) hv₁ hrest
      fun c hc => hcodes c (List.mem_cons_of_mem _ hc)
    refine ⟨Λ', hv', fun x b => ?_⟩
    rw [hiff, Lattice.insert_blocks ad, List.map_cons, List.mem_cons, hblock]
    constructor
    · rintro ((hb | ⟨rfl, hx⟩) | ⟨hb, hx⟩)
      · exact Or.inl hb
      · exact Or.inr ⟨Or.inl rfl, hx⟩
      · exact Or.inr ⟨Or.inr hb, hx⟩
    · rintro (hb | ⟨rfl | hb, hx⟩)
      · exact Or.inl (Or.inl hb)
      · exact Or.inl (Or.inr ⟨rfl, hx⟩)
      · exact Or.inr ⟨hb, hx⟩

omit hass in
/-- Nothing rests on a block that has just been added, so cutting back to it
takes it away alone. -/
theorem Lattice.Admissible.trimmed_blocks {h : BlockHash} {e : Entry} (ad : Λ.Admissible h e)
    (ht : (Λ.insert ad).Trimmed Λ' h) (hgone : Λ'.entry h = none) : Λ'.blocks = Λ.blocks := by
  funext x
  refine Option.ext fun b => ⟨fun hb => ?_, fun hb => ?_⟩
  · obtain ⟨ex, hx, rfl⟩ := of_blocks hb
    have hne : x ≠ h := by
      rintro rfl
      cases hgone.symm.trans hx
    have hx' := ht.sub hx
    rw [insert_entry_of_ne ad hne] at hx'
    exact blocks_some hx'
  · obtain ⟨ex, hx, rfl⟩ := of_blocks hb
    refine blocks_some ((ht.entry_iff hgone).mpr ⟨insert_entry_of_stored ad hx, fun hrest => ?_⟩)
    exact ad.ne_of_stored hx
      (hrest.eq_of_top (insert_isHead_self ad) (insert_not_received_self ad))

theorem valid_of_progress (hs : Ledger.Reachable p U s) (hU : b ∈ U) {now : ℕ}
    {r : BlockStore × ProcessReturn} (hrun : Ledger.process p now s b = .ok r)
    (hcode : r.2.code = .progress) : BlockSet.Valid p s.blockGet b := by
  obtain ⟨Λ, hv⟩ := Ledger.Reachable.valid hass s hs
  obtain ⟨r', hrun', hout⟩ := hv.process hass hU now
  obtain rfl := Except.ok.inj (hrun'.symm.trans hrun)
  rw [hv.refines.blockGet_eq]
  cases hout with
  | refused hne => exact absurd hcode hne
  | accepted ad hblock => exact hblock ▸ ad.valid

theorem progress_of_valid (hs : Ledger.Reachable p U s) (hU : b ∈ U) (now : ℕ)
    (hvalid : BlockSet.Valid p s.blockGet b) :
    ∃ r, Ledger.process p now s b = .ok r ∧ r.2.code = .progress := by
  obtain ⟨Λ, hv⟩ := Ledger.Reachable.valid hass s hs
  obtain ⟨r, hrun, hout⟩ := hv.process hass hU now
  refine ⟨r, hrun, ?_⟩
  rw [hv.refines.blockGet_eq] at hvalid
  obtain ⟨e, hb, ad⟩ := hv.refines.admissible_of_valid hass
    (hv.supply.trans_lt (by decide)) hU hvalid
  cases hout with
  | refused _ hno => exact absurd ad (hno e hb)
  | accepted _ _ hcode => exact hcode

end Accept

/-! ## A signed run

On the test network, with the keys, hashes, signatures and work values as the
real functions give them: the genesis account sends 100 raw to a second account
or to itself. `receive` and `change` are the two readings of one signed text on
top of the latter; `forged...` are copies with a signature that does not
validate. -/

namespace Signed

def account : Account := 0xC969EC348895A49E21824E10E6B829EDEA50CCC26A83CE8986A3B95D12576058

def genesisAccount : Account := 0xB0311EA55708D6A53C75CDBF88300259C6D018522FE3D4D0A242E431F9E8B6D0

def genesisHash : BlockHash := 0x04270D7F11C4B2B472F2854C5A59F2A7E84226CE9ED799DE75744BD7D85FC9D9
def sendHash : BlockHash := 0x4C0BD5AD6E18D7E398E610BC607E7D2912F425C5C9DDEFEA543369CEA7F54AA4
def openHash : BlockHash := 0x0145A5F065D0639A5C4C9DDAA9F83D3AABCAA236EA08715051E674FB22C8A7D0
def returnHash : BlockHash := 0xE6A8C54F44CACB45FB48860196327498B183736763D5B11CC0BDD2CCD97A815D
def twinHash : BlockHash := 0x94D52878EFA605A7C7A376DC51A70802A66B6AAC81FC905968757FB552B9E58C
def rivalHash : BlockHash := 0xF669312875585D720E7C26E37AD55B05F17ABF8FE8F1E961C76DE3DB58755976
def stateHash : BlockHash := 0xB6D142108BFB1327A2953C0B2E6FE478ECBDD8F4AA35DCF03FE4C686524FA4AD

def sendSignature : Signature := 0x6EB053E330385D7EF164639530D4849539308EF151AB95AFF73A566BACA49CCB80EFEC21948A3CCE48ED5FB27076277C5FBCDD5BFABF760D9421923060FE8A04
def openSignature : Signature := 0xF2381A323284C10DFB3A230B3158728CC7C28AC06B212F13D23A60A18A2E3C57C12171C0BD37C4AF3043239527F74CAFD557110217CE8F5C688055AB9106660B
def returnSignature : Signature := 0x8480848AB867788BAA0C2129EC83A522141C1979FBC791877C34C2A10267D8A8F499B0026897909A2A8A69B4999D1AA3A7FABE49F2F184C354FCAD9107A27B0E
def twinSignature : Signature := 0xB06C8C7CFD0624881D3C42C3D25F4DCA3DC6A986D93BA90730EDCD79F3A57726B8D34BE09928188B5EDEBA1CA62AA8239D5130B1D619132BAB6869A50DA01C09
def stateSignature : Signature := 0xFDD7CE013451358057EA0AD4E879BC9EF73DC63B88E13D20649974BFDFC2498BF9F59862718296561D191ACE3D16444E1CC067B7581BCAD603450A8D8C454608

def genesis : Block :=
  .openBlock
    ⟨⟨genesisAccount, genesisAccount, genesisAccount⟩,
      0xECDA914373A2F0CA1296475BAEE40500A7F0A7AD72A5A80C81D7FAB7F6C802B2CC7DB50F5DD0FB25B2EF11761FA7344A158DD5A700B21BD47DE5BD0F63153A02,
      0x9680625b39d3363d⟩

def sendHashables : SendHashables := ⟨genesisHash, account, BitVec.ofNat 128 (2 ^ 128 - 101)⟩

def send : Block := .sendBlock ⟨sendHashables, sendSignature, 0x19b⟩

def forgedSend : Block := .sendBlock ⟨sendHashables, 0, 0x19b⟩

def opens : Block := .openBlock ⟨⟨sendHash, account, account⟩, openSignature, 0x259⟩

def forgedOpen : Block := .openBlock ⟨⟨sendHash, account, account⟩, 0, 0x259⟩

/-- Opens the account with a state block. -/
def stateOpens : Block := .stateBlock ⟨⟨account, 0, account, 100, sendHash⟩, stateSignature, 0x259⟩

def forgedStateOpen : Block := .stateBlock ⟨⟨account, 0, account, 100, sendHash⟩, 0, 0x259⟩

/-- Competes with `send`, and its signature does not validate. -/
def forgedRival : Block :=
  .sendBlock ⟨⟨genesisHash, account, BitVec.ofNat 128 (2 ^ 128 - 201)⟩, 0, 0x19b⟩

/-- The genesis account sends 100 raw to itself. -/
def returns : Block :=
  .sendBlock ⟨⟨genesisHash, genesisAccount, BitVec.ofNat 128 (2 ^ 128 - 101)⟩, returnSignature,
    0x19b⟩

def receive : Block := .receiveBlock ⟨⟨returnHash, returnHash⟩, twinSignature, 0xaf⟩

def change : Block := .changeBlock ⟨⟨returnHash, returnHash⟩, twinSignature, 0xaf⟩

/-- Who signed what. -/
def signatures : List (Account × Uint256 × Signature) :=
  [(genesisAccount, sendHash, sendSignature), (account, openHash, openSignature),
    (genesisAccount, returnHash, returnSignature), (genesisAccount, twinHash, twinSignature),
    (account, stateHash, stateSignature)]

def env : Env where
  blake2b input :=
    if input = genesis.hashInput then genesisHash
    else if input = send.hashInput then sendHash
    else if input = opens.hashInput then openHash
    else if input = returns.hashInput then returnHash
    else if input = receive.hashInput then twinHash
    else if input = forgedRival.hashInput then rivalHash
    else if input = stateOpens.hashInput then stateHash
    else 0
  validateMessage a m sig := !signatures.contains (a, m, sig)
  network := .raiTestNetwork
  trap := false

def all : List Block :=
  [genesis, send, forgedSend, opens, forgedOpen, stateOpens, forgedStateOpen, forgedRival, returns,
    receive, change]

/-- The blocks of the run. -/
def blocks : Set Block := {b | b ∈ all}

theorem mem_blocks {b : Block} (h : b ∈ all) : b ∈ blocks := h

theorem assumptions : HashAssumptions env blocks :=
  .of_list List.mem_cons_self (by decide +kernel) (by decide +kernel) (by decide +kernel)

/-- The ledger after `genesis::initialize`. -/
def first : BlockStore := (genesisInitialize env 0 .empty).toOption.getD .empty

def returnRun : Except Fault (BlockStore × List ProcessResult) :=
  Ledger.processAll env first [(1, returns)]

/-- The ledger in which the genesis account has sent to itself. -/
def returned : BlockStore := (returnRun.toOption.getD (.empty, [])).1

theorem runs_isOk : (genesisInitialize env 0 .empty).isOk = true ∧ returnRun.isOk = true := by
  decide +kernel

theorem first_reachable : Ledger.Reachable env blocks first :=
  ⟨0, first, eq_ok_getD runs_isOk.1 .empty, .refl⟩

theorem returned_reachable : Ledger.Reachable env blocks returned := by
  have hU : ∀ x ∈ [(1, returns)], x.2 ∈ all := by simp [all]
  have hrun : returnRun = .ok (returned, (returnRun.toOption.getD (.empty, [])).2) := by
    unfold returned
    rw [Prod.mk.eta]
    exact eq_ok_getD runs_isOk.2 (.empty, [])
  exact first_reachable.processAll hU hrun

end Signed

end RaiBlocks
