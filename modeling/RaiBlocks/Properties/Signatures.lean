import RaiBlocks.Lib.HashInput
import RaiBlocks.Refinement.Acceptance
import RaiBlocks.Votes.Vote

/-!
# What a signature covers

A signature is for a hash, so it authorises what feeds the same bytes to the hash: one operation,
or a receive block and a change block that cannot be told apart. And some keys have signatures
for every message.
-/

namespace RaiBlocks

open Foundation Signed Ledger

variable {p : Env} {U : Set Block} {s : BlockStore}

theorem hashInput_ne_vote (b : Block) (v : Vote) : b.hashInput ≠ v.hashInput p := by
  intro h
  have hlen := congrArg List.length h
  rw [Vote.length_hashInput] at hlen
  cases b <;> simp [Block.hashInput] at hlen

/-- The signature of `b'`, a block that is valid in some ledger, also validates for the other
message that `b` signs. Keys of small order have signatures that validate for every message. -/
def SignsBoth (p : Env) (U : Set Block) (b b' : Block) : Prop :=
  b.hash p ≠ b'.hash p ∧ (∃ a, p.validateMessage a (b.hash p) b'.blockSignature = false) ∧
    ∃ s, Reachable p U s ∧ BlockSet.Valid p s.blockGet b'

/-- **When a signature authorises one operation.** For two blocks of a run: they
feed the same bytes to the hash only if they are the same operation, neither
feeds the bytes of a vote, and no reachable ledger accepts the second on a
signature made for the first, other than as the same operation. All of this
holds exactly if they are not a receive and a change block on one predecessor
with the source of the one as the representative of the other, and the signature
of the second does not sign two texts. -/
theorem signature_authorises_iff (hass : HashAssumptions p U) {b b' : Block}
    (hb : b ∈ U) (hb' : b' ∈ U) :
    ((¬ SameOperation b b' → b.hashInput ≠ b'.hashInput) ∧
      (∀ v : Vote, b.hashInput ≠ v.hashInput p ∧ b'.hashInput ≠ v.hashInput p) ∧
      ∀ s a now r, Reachable p U s → p.validateMessage a (b.hash p) b'.blockSignature = false →
        process p now s b' = .ok r → r.2.code = .progress → SameOperation b b') ↔
    ¬ Confusable b b' ∧ ¬ SignsBoth p U b b' := by
  constructor
  · rintro ⟨hbytes, _, hone⟩
    refine ⟨fun hconf => hbytes hconf.not_sameOperation hconf.hashInput_eq, ?_⟩
    rintro ⟨hne, ⟨a, hmade⟩, s, hs, hvalid⟩
    obtain ⟨r, hrun, hcode⟩ := progress_of_valid hass hs hb' 0 hvalid
    have hsame := hashInput_eq_iff.mpr (Or.inl (hone s a 0 r hs hmade hrun hcode))
    exact hne (congrArg p.blake2b hsame)
  · rintro ⟨hconf, hboth⟩
    have hbytes : b.hashInput = b'.hashInput → SameOperation b b' := by
      intro h
      exact (hashInput_eq_iff.mp h).resolve_right hconf
    refine ⟨fun hne h => hne (hbytes h),
      fun v => ⟨hashInput_ne_vote b v, hashInput_ne_vote b' v⟩, ?_⟩
    intro s a now r hs hmade hrun hcode
    refine hbytes (hass.collision_free hb hb' (not_not.mp fun hne => ?_))
    exact hboth ⟨hne, ⟨a, hmade⟩, s, hs, valid_of_progress hass hs hb' hrun hcode⟩

/-- Send and open are told apart, and what is accepted on the signature of the send is the
send. -/
theorem signature_authorises_iff_signed : send.hashInput ≠ opens.hashInput ∧
    (∀ v : Vote, send.hashInput ≠ v.hashInput env) ∧
    (∃ r, process env 1 first send = .ok r ∧ r.2.code = .progress) ∧
    SameOperation forgedSend send := by
  have hmem : ∀ b ∈ all, b ∈ blocks := fun b hb => hb
  have hsign : ∀ a, env.validateMessage a (send.hash env)
      opens.blockSignature = true := by
    intro a
    have hnot : signatures.all (fun x => decide (x.2 ≠ (sendHash, openSignature))) = true := by
      decide +kernel
    rw [show send.hash env = sendHash by decide +kernel]
    refine (Bool.not_eq_true' _).mpr (Bool.eq_false_iff.mpr fun hmem => ?_)
    exact of_decide_eq_true (List.all_eq_true.mp hnot _ (List.contains_iff_mem.mp hmem)) rfl
  have hapart : ¬ Confusable send opens ∧ ¬ SignsBoth env blocks send opens := by
    refine ⟨nofun, ?_⟩
    rintro ⟨-, ⟨a, ha⟩, -⟩
    exact absurd (ha.symm.trans (hsign a)) (by decide)
  have hcopy : ¬ Confusable forgedSend send ∧ ¬ SignsBoth env blocks forgedSend send := by
    refine ⟨nofun, ?_⟩
    rintro ⟨hne, -⟩
    exact hne (by decide +kernel)
  obtain ⟨hbytes, hvotes, _⟩ := (signature_authorises_iff assumptions
    (hmem send (by simp [all])) (hmem opens (by simp [all]))).mpr hapart
  have hrun := eq_ok_getD (x := process env 1 first send)
    (by decide +kernel) (.empty, .of .old)
  obtain ⟨_, _, hone⟩ := (signature_authorises_iff assumptions
    (hmem forgedSend (by simp [all])) (hmem send (by simp [all]))).mpr hcopy
  have hother : ¬ SameOperation send opens := by
    simp [SameOperation, Block.unsigned, send, opens]
  exact ⟨hbytes hother, fun v => (hvotes v).1, ⟨_, hrun, by decide +kernel⟩,
    hone _ genesisAccount 1 _ first_reachable (by decide +kernel) hrun
      (by decide +kernel)⟩

/-- The signature of the receive block makes the ledger accept the change
block. -/
theorem receive_signature_accepts_change : HashAssumptions env blocks ∧
    receive ∈ blocks ∧ change ∈ blocks ∧ Reachable env blocks returned ∧
    receive.hashInput = change.hashInput ∧ ¬ SameOperation receive change ∧
    env.validateMessage genesisAccount (receive.hash env)
      change.blockSignature = false ∧
    ∃ r, process env 2 returned change = .ok r ∧
      r.2.code = .progress := by
  have hconf : Confusable receive change := .receiveChange rfl rfl
  have hrun := eq_ok_getD (x := process env 2 returned change)
    (by decide +kernel) (.empty, .of .old)
  exact ⟨assumptions, mem_blocks (by simp [all]),
    mem_blocks (by simp [all]), returned_reachable, hconf.hashInput_eq,
    hconf.not_sameOperation, by decide +kernel, _, hrun, by decide +kernel⟩

end RaiBlocks
