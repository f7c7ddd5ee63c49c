import RaiBlocks.Wallet.Blocks

/-!
# Whose key the wallet signs with

`fetch` compares the public key of what it has decrypted with the account, so
whatever the wallet signs for an account is signed with its key. Whether there is a
key is another matter: `send_action`, `change_action` and `foreach_representative`
look for an entry of the account and then assert that `fetch` succeeds. For an
account that is only watched there is an entry and no key.
-/

namespace RaiBlocks

open Foundation Spending

/-! ## Signatures -/

/-- A signature for an account. -/
structure Signing where
  account : Account
  message : Uint256
  signature : Signature
deriving DecidableEq

namespace Signing

def ofBlock (p : Env) (b : Block) : Signing := ⟨b.account?.getD 0, b.hash p, b.blockSignature⟩

def ofVote (p : Env) (v : Vote) : Signing := ⟨v.account, v.hash p, v.signature⟩

variable {e : ActionEnv}

/-- Made with the key of the account, which one of the wallets holds. -/
def Own (items : List (WalletStore e.toWalletEnv)) (x : Signing) : Prop :=
  ∃ w ∈ items, ∃ prv, w.fetch x.account = some prv ∧ e.publicKey prv = x.account ∧
    x.signature = e.sign prv x.account x.message

end Signing

namespace ActionEnv

variable {e : ActionEnv}

theorem own_stateBlock {w : WalletStore e.toWalletEnv} {items : List (WalletStore e.toWalletEnv)}
    (hw : w ∈ items) {hashables : StateHashables} {prv : Uint256} {work : Work}
    (hprv : w.fetch hashables.account = some prv) :
    Signing.Own items (.ofBlock e.toEnv
      (e.ensureWork (e.stateBlock hashables prv hashables.account work))) := by
  obtain ⟨work', hwork⟩ := ensureWork_eq (e.stateBlock hashables prv hashables.account work)
  rw [hwork]
  exact ⟨w, hw, prv, hprv, WalletStore.publicKey_of_fetch hprv, rfl⟩

end ActionEnv

/-! ## The representatives -/

namespace WalletStore

variable {e : ActionEnv} {σ : Type} {weight : Account → Uint128}
  {action : Account → Uint256 → σ → σ} {items : List (WalletStore e.toWalletEnv)}

/-- Every representative in an unlocked wallet has a key. -/
def RepresentativesKeyed (weight : Account → Uint128) (items : List (WalletStore e.toWalletEnv)) :
    Prop :=
  ∀ w ∈ items, w.validPassword = true → ∀ a ∈ w.accounts, weight a ≠ 0 → (w.fetch a).isSome = true

theorem forRepresentative_ok_iff (w : WalletStore e.toWalletEnv) (st : σ) (a : Account) :
    (∃ st', forRepresentative weight action w st a = .ok st') ↔
      (weight a ≠ 0 ∧ w.validPassword = true → (w.fetch a).isSome = true) := by
  unfold forRepresentative
  by_cases hcall : weight a ≠ 0 ∧ w.validPassword = true
  · rw [if_pos hcall]
    cases w.fetch a with
    | none =>
      refine iff_of_false ?_ fun h => by cases h hcall
      rintro ⟨st', h⟩
      cases h
    | some prv => exact iff_of_true ⟨_, rfl⟩ fun _ => rfl
  · rw [if_neg hcall]
    exact iff_of_true ⟨st, rfl⟩ fun h => absurd h hcall

/-- The loop fails only at a representative without a key. -/
theorem foreachRepresentative_ok_iff (st : σ) :
    (∃ st', foreachRepresentative weight action items st = .ok st') ↔
      RepresentativesKeyed weight items := by
  unfold foreachRepresentative RepresentativesKeyed
  refine foldlM_ok_iff (fun st w _ => ?_) st
  have hone := foldlM_ok_iff (f := forRepresentative weight action w) (l := w.accounts)
    (fun st a _ => forRepresentative_ok_iff w st a) st
  rw [hone]
  exact ⟨fun h hv a ha hne => h a ha ⟨hne, hv⟩, fun h a ha hcall => h hcall.2 a ha hcall.1⟩

/-- What every call of the action preserves holds at the end. -/
theorem foreachRepresentative_invariant {P : σ → Prop}
    (hP : ∀ w ∈ items, ∀ a prv st, w.fetch a = some prv → P st → P (action a prv st)) {st st' : σ}
    (hst : P st) (h : foreachRepresentative weight action items st = .ok st') : P st' := by
  refine foldlM_invariant (fun t t' w hw ht hrun => ?_) hst h
  refine foldlM_invariant (fun u u' a _ hu hone => ?_) ht hrun
  unfold forRepresentative at hone
  split at hone
  · obtain ⟨prv, hprv, hone⟩ := bind_eq_ok hone
    obtain rfl := Except.ok.inj hone
    exact hP w hw a prv u (assertSome_eq_ok hprv) hu
  · obtain rfl := Except.ok.inj hone
    exact hu

/-- All votes are signed with the key of their account. -/
theorem computeRepVotes_own {table cache cache' : VoteTable} {winner : Block} {votes : List Vote}
    (h : computeRepVotes weight table items winner cache = .ok (cache', votes)) :
    ∀ v ∈ votes, Signing.Own items (.ofVote e.toEnv v) := by
  refine foreachRepresentative_invariant
    (P := fun st => ∀ v ∈ st.2, Signing.Own items (.ofVote e.toEnv v)) ?_ (by simp) h
  intro w hw a prv st hprv hst v hv
  rcases List.mem_append.mp hv with hv | hv
  · exact hst v hv
  · rw [List.mem_singleton.mp hv]
    exact ⟨w, hw, prv, hprv, publicKey_of_fetch hprv, rfl⟩

end WalletStore

/-! ## Calls that sign -/

/-- A call of `send_action`, `change_action` or the loop of `compute_rep_votes`. -/
inductive SigningCall (e : ActionEnv) : Type
  | send (w : WalletStore e.toWalletEnv) (ids : Table String BlockHash)
      (source destination : Account) (amount : Uint128) (id : Option String)
  | change (w : WalletStore e.toWalletEnv) (source representative : Account)
  | votes (bootstrap : Ledger.BootstrapWeights) (items : List (WalletStore e.toWalletEnv))
      (table cache : VoteTable) (winner : Block)

namespace SigningCall

open WalletStore

variable {e : ActionEnv} {U : Set Block} {Λ : Lattice e.toEnv} {s : BlockStore}

def wallets : SigningCall e → List (WalletStore e.toWalletEnv)
  | .send w .. => [w]
  | .change w .. => [w]
  | .votes _ items _ _ _ => items

/-- The signatures that a call makes. -/
def run (s : BlockStore) : SigningCall e → Except Fault (List Signing)
  | .send w ids source destination amount id => do
    let result ← sendAction s w ids source destination amount id
    if result.created then return (result.block.map (Signing.ofBlock e.toEnv)).toList
    else return []
  | .change w source representative => do
    let block ← changeAction s w source representative
    return (block.map (Signing.ofBlock e.toEnv)).toList
  | .votes bootstrap items table cache winner => do
    let (_, generated) ← computeRepVotes (Ledger.weight bootstrap s) table items winner cache
    return generated.map (Signing.ofVote e.toEnv)

/-- Where the call would sign, there is a key. -/
def Keyed (s : BlockStore) : SigningCall e → Prop
  | .send w ids source _ amount id =>
    readableId id = true → cachedBlock s ids id = none → w.validPassword = true →
      w.exists' source = true →
    Ledger.accountBalance s source ≠ 0 → amount ≤ Ledger.accountBalance s source →
    (w.fetch source).isSome = true
  | .change w source _ =>
    w.validPassword = true → w.exists' source = true → (s.accountGet source).isSome = true →
    (w.fetch source).isSome = true
  | .votes bootstrap items _ _ _ => RepresentativesKeyed (Ledger.weight bootstrap s) items

/-- The call returns, and signs with nothing but the keys of the accounts. -/
def Safe (s : BlockStore) (call : SigningCall e) : Prop :=
  ∃ signed, call.run s = .ok signed ∧ ∀ x ∈ signed, x.Own call.wallets

theorem safe_send_iff (hr : Refines U s Λ) (w : WalletStore e.toWalletEnv)
    (ids : Table String BlockHash) (source destination : Account) (amount : Uint128)
    (id : Option String) :
    (SigningCall.send w ids source destination amount id).Safe s ↔
      (SigningCall.send w ids source destination amount id).Keyed s := by
  simp only [Safe, Keyed, run, wallets]
  cases hid : readableId id with
  | false =>
    rw [sendAction_unreadable hid]
    exact iff_of_true ⟨[], rfl, by simp⟩ fun h => by cases h
  | true =>
    cases hcached : cachedBlock s ids id with
    | some b =>
      rw [sendAction_cached hid hcached]
      exact iff_of_true ⟨[], rfl, by simp⟩ fun _ h => by cases h
    | none =>
      by_cases hmay : MaySend s w source amount
      · rw [sendAction_new hid hcached hmay]
        obtain ⟨hv, hexists, hne, hle⟩ := hmay
        cases hprv : w.fetch source with
        | none =>
          refine iff_of_false ?_ fun h => by cases h rfl rfl hv hexists hne hle
          rintro ⟨signed, hrun, -⟩
          rw [sendBlock_keyless hprv] at hrun
          cases hrun
        | some prv =>
          obtain ⟨info, hi⟩ : ∃ info, s.accountGet source = some info := by
            cases hi : s.accountGet source with
            | some info => exact ⟨info, rfl⟩
            | none => exact absurd (by rw [Ledger.accountBalance, hi]; rfl) hne
          obtain ⟨rep, -, hblock⟩ := sendBlock_eq hr hi hprv destination amount
          rw [hblock, ok_bind, ok_bind]
          refine iff_of_true ?_ fun _ _ _ _ _ _ => rfl
          rcases finishSend_cases (e := e) ids id _ with ⟨-, hfinish⟩ | hfinish
          · rw [hfinish]
            refine ⟨_, rfl, fun x hx => ?_⟩
            obtain rfl := List.mem_singleton.mp hx
            exact ActionEnv.own_stateBlock (List.mem_singleton_self w) hprv
          · rw [hfinish]
            exact ⟨[], rfl, by simp⟩
      · rw [sendAction_idle hcached hmay]
        refine iff_of_true ⟨[], rfl, by simp⟩ fun _ _ hv hexists hne hle => ?_
        exact absurd ⟨hv, hexists, hne, hle⟩ hmay

theorem safe_change_iff (hr : Refines U s Λ) (w : WalletStore e.toWalletEnv)
    (source representative : Account) :
    (SigningCall.change w source representative).Safe s ↔
      (SigningCall.change w source representative).Keyed s := by
  simp only [Safe, Keyed, run, wallets, changeAction]
  by_cases hcall : w.validPassword = true ∧ w.exists' source = true ∧ Ledger.latest s source ≠ 0
  · rw [if_pos hcall]
    obtain ⟨hv, hexists, hlatest⟩ := hcall
    obtain ⟨info, hi⟩ := Option.isSome_iff_exists.mp (hr.latest_ne_zero_iff.mp hlatest)
    rw [hi]
    cases hprv : w.fetch source with
    | none =>
      refine iff_of_false ?_ fun h => by cases h hv hexists rfl
      rintro ⟨signed, hrun, -⟩
      cases hrun
    | some prv =>
      refine iff_of_true ⟨_, rfl, fun x hx => ?_⟩ fun _ _ _ => rfl
      obtain rfl := List.mem_singleton.mp hx
      exact ActionEnv.own_stateBlock (List.mem_singleton_self w) hprv
  · rw [if_neg hcall]
    refine iff_of_true ⟨[], rfl, by simp⟩ fun hv hexists hopen => ?_
    exact absurd ⟨hv, hexists, hr.latest_ne_zero_iff.mpr hopen⟩ hcall

theorem safe_votes_iff (bootstrap : Ledger.BootstrapWeights)
    (items : List (WalletStore e.toWalletEnv)) (table cache : VoteTable) (winner : Block) :
    (SigningCall.votes bootstrap items table cache winner).Safe s ↔
      (SigningCall.votes bootstrap items table cache winner).Keyed s := by
  constructor
  · rintro ⟨signed, hrun, -⟩
    obtain ⟨r, hvotes, -⟩ := bind_eq_ok hrun
    exact (foreachRepresentative_ok_iff _).mp ⟨r, hvotes⟩
  · intro hkeyed
    obtain ⟨⟨cache', generated⟩, hvotes⟩ : ∃ r,
      computeRepVotes (Ledger.weight bootstrap s) table items
        winner cache = .ok r := (foreachRepresentative_ok_iff _).mpr hkeyed
    refine ⟨generated.map (Signing.ofVote e.toEnv), ?_, fun x hx => ?_⟩
    · simp only [run, hvotes]
      rfl
    · obtain ⟨v, hv, rfl⟩ := List.mem_map.mp hx
      exact computeRepVotes_own hvotes v hv

end SigningCall

/-- **The wallet signs with its own keys, and fails where it has none.** On every
reachable ledger and for any wallets and accounts, `send_action`, `change_action` and
the loop over the representatives return, and every signature is made with the private
key of its account, which is in the wallet; if and only if there is a key wherever the
wallet has an entry and the ledger lets it get to signing. -/
theorem signing_safe_iff {e : ActionEnv} {U : Set Block} {s : BlockStore}
    (hass : HashAssumptions e.toEnv U) (hs : Ledger.Reachable e.toEnv U s) (call : SigningCall e) :
    call.Safe s ↔ call.Keyed s := by
  obtain ⟨Λ, hv⟩ := Ledger.Reachable.valid hass s hs
  cases call with
  | send w ids source destination amount id =>
    exact SigningCall.safe_send_iff hv.refines w ids source destination amount id
  | change w source representative =>
    exact SigningCall.safe_change_iff hv.refines w source representative
  | votes bootstrap items table cache winner =>
    exact SigningCall.safe_votes_iff bootstrap items table cache winner

/-- Sending from a watched account, changing its representative, and voting with its
weight all fail an assertion. -/
theorem watched_account_fails : watching.validPassword = true ∧
    ([SigningCall.send watching ∅ account 9 1 none, .change watching account 9,
      .votes bootstrap [watching] .empty .empty Sample.genesis].map
        (SigningCall.run ledger)) = List.replicate 3 (.error .assertion) := by
  decide +kernel

/-- With the key, all of them return. -/
theorem signing_safe_iff_keyed : (SigningCall.send keyed ∅ account 9 1 none).Safe ledger ∧
    (SigningCall.change keyed account 9).Safe ledger := by
  have hfetch : (keyed.fetch account).isSome = true := by decide +kernel
  exact ⟨(signing_safe_iff assumptions ledger_reachable _).mpr
      fun _ _ _ _ _ _ => hfetch,
    (signing_safe_iff assumptions ledger_reachable _).mpr fun _ _ _ => hfetch⟩

end RaiBlocks
