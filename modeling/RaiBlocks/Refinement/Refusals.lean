import RaiBlocks.Node.BlockProcessor
import RaiBlocks.Refinement.Reachable

/-!
# What a refusal says

The results with which `ledger::process` refuses a block that is not stored, and
what must be the case for them.
-/

namespace RaiBlocks

open Foundation Ledger ProcessReturn

variable {p : Env} {s : BlockStore} {now : ℕ}

/-! ## State blocks -/

/-- What the result of a state block tells. -/
structure StateVerdict (p : Env) (s : BlockStore) (b : StateBlock) (code : ProcessResult) :
    Prop where
  notOld : code ≠ .old
  gapSource : code = .gapSource →
    b.hashables.previous = 0 ∨ s.blockExists b.hashables.previous = true
  fork : code = .fork →
    p.validateMessage b.hashables.account ((Block.stateBlock b).hash p) b.signature = false ∧
    ∃ info, s.accountGet b.hashables.account = some info ∧
      (b.hashables.previous = 0 ∨ b.hashables.previous ≠ info.head)

theorem stateBlockFinish_code {b : StateBlock} (c : StateCheck) :
    Returns (fun r => r.2.code = stateBlockSource s b c)
      (stateBlockFinish p now s b c) := by
  unfold stateBlockFinish
  refine .ite (fun hcode => ?_) fun _ => .ok rfl
  exact .bind fun _ _ => .ok hcode.symm

/-- The source is looked at only if the position was fine. -/
theorem stateBlockSource_cases (s : BlockStore) (b : StateBlock) (c : StateCheck) :
    stateBlockSource s b c = c.code ∨ c.code = .progress ∧
      stateBlockSource s b c ∈
        [ProcessResult.gapSource, .unreceivable, .balanceMismatch] := by
  unfold stateBlockSource
  by_cases hc : c.code = .progress ∧ c.isSend = false
  · rw [if_pos hc, hc.1]
    repeat' split
    all_goals simp
  · exact Or.inl (if_neg hc)

/-- Where the block wants to be. -/
structure Placed (s : BlockStore) (b : StateBlock) (code : ProcessResult) : Prop where
  notOld : code ≠ .old
  stands : code = .progress ∨ code = .gapSource →
    b.hashables.previous = 0 ∨ s.blockExists b.hashables.previous = true
  fork : code = .fork → ∃ info, s.accountGet b.hashables.account = some info ∧
    (b.hashables.previous = 0 ∨ b.hashables.previous ≠ info.head)

theorem stateBlockPosition_code (b : StateBlock) :
    Returns (fun c => Placed s b c.code) (stateBlockPosition p s b) := by
  have hof : ∀ {code : ProcessResult} {info : AccountInfo} {isSend : Bool} {amount : Uint128},
      Placed s b code → Returns (ε := Fault) (fun c : StateCheck => Placed s b c.code)
        (.ok ⟨code, info, isSend, amount⟩) := fun h => .ok h
  unfold stateBlockPosition
  split
  · rename_i info hi
    refine .ite (fun hp => hof ?_) fun hp => .ite (fun _ => hof ?_) fun hexists => ?_
    · exact ⟨by decide, (by simp), fun _ => ⟨info, hi, Or.inl hp⟩⟩
    · exact ⟨by decide, (by simp), (by simp)⟩
    · have hstored : s.blockExists b.hashables.previous = true := by simpa using hexists
      have hplaced : Placed s b
          (if b.hashables.previous = info.head then .progress else .fork) := by
        by_cases hhead : b.hashables.previous = info.head
        · rw [if_pos hhead]
          exact ⟨by decide, fun _ => Or.inr hstored, (by simp)⟩
        · rw [if_neg hhead]
          exact ⟨by decide, fun _ => Or.inr hstored, fun _ => ⟨info, hi, Or.inr hhead⟩⟩
      exact .ite (fun _ => .bind fun _ _ => hof hplaced) fun _ => .bind fun _ _ => hof hplaced
  · refine .ite (fun _ => hof ?_) fun hp => .ite (fun _ => hof ?_) fun _ => hof ?_
    · exact ⟨by decide, (by simp), (by simp)⟩
    · exact ⟨by decide, fun _ => Or.inl (not_not.mp hp), (by simp)⟩
    · exact ⟨by decide, fun _ => Or.inl (not_not.mp hp), (by simp)⟩

theorem stateBlockImpl_code {b : StateBlock}
    (hn : s.blockExists ((Block.stateBlock b).hash p) = false) :
    Returns (fun r => StateVerdict p s b r.2.code) (stateBlockImpl p now s b) := by
  unfold stateBlockImpl
  refine .ite (fun hold => ?_) fun _ => .ite (fun _ => .ok ?_) fun hv =>
    .ite (fun _ => .ok ?_) fun _ => .bind fun c hc => ?_
  · cases hn.symm.trans hold
  · exact ⟨(by simp [of]), (by simp [of]), (by simp [of])⟩
  · exact ⟨(by simp [of]), (by simp [of]), (by simp [of])⟩
  · intro r hr
    have hpos := stateBlockPosition_code b c hc
    rw [stateBlockFinish_code c r hr]
    rcases stateBlockSource_cases s b c with hcode | ⟨hcode, hlist⟩
    · rw [hcode]
      exact ⟨hpos.notOld, fun hgap => hpos.stands (Or.inr hgap),
        fun hfork => ⟨Bool.not_eq_true _ ▸ hv, hpos.fork hfork⟩⟩
    · refine ⟨?_, fun _ => hpos.stands (Or.inl hcode), ?_⟩
      · intro hold
        rw [hold] at hlist
        simp at hlist
      · intro hfork
        rw [hfork] at hlist
        simp at hlist

/-! ## All kinds -/

theorem process_ne_old {b : Block} (hn : s.blockExists (b.hash p) = false) :
    Returns (fun r => r.2.code ≠ .old) (process p now s b) := by
  have hnot : ¬ s.blockExists (b.hash p) = true := Bool.not_eq_true _ ▸ hn
  -- every other branch names another result
  have hof : ∀ {s : BlockStore} {ret : ProcessReturn}, ret.code ≠ .old →
      Returns (ε := Fault) (fun r => r.2.code ≠ .old) (.ok (s, ret)) := fun h => .ok h
  cases b with
  | stateBlock b => exact fun r hr => (stateBlockImpl_code hn r hr).notOld
  | sendBlock b =>
    refine .ite (fun hold => absurd hold hnot) fun _ => ?_
    split
    · exact hof (by decide)
    · refine .ite (fun _ => hof (by decide)) fun _ => .ite (fun _ => hof (by decide)) fun _ =>
        .ite (fun _ => hof (by decide)) fun _ => ?_
      split
      · exact .error _
      · exact .bind fun _ _ => .ite (fun _ => hof (by decide)) fun _ =>
          .bind fun _ _ => .bind fun _ _ => hof (by simp)
  | receiveBlock b =>
    refine .ite (fun hold => absurd hold hnot) fun _ => ?_
    split
    · exact hof (by decide)
    · refine .ite (fun _ => hof (by decide)) fun _ => .ite (fun _ => hof (by decide)) fun _ =>
        .ite (fun _ => hof ?_) fun _ => .ite (fun _ => hof (by decide)) fun _ =>
        .ite (fun _ => hof (by decide)) fun _ => ?_
      · cases s.blockExists b.hashables.previous with
        | true => decide
        | false => decide
      · split
        · exact hof (by decide)
        · exact .bind fun _ _ => hof (by simp)
  | openBlock b =>
    refine .ite (fun hold => absurd hold hnot) fun _ => .ite (fun _ => hof (by decide)) fun _ =>
      .ite (fun _ => hof (by decide)) fun _ => ?_
    split
    · exact hof (by decide)
    · split
      · exact hof (by decide)
      · exact .ite (fun _ => hof (by decide)) fun _ => .bind fun _ _ => hof (by simp)
  | changeBlock b =>
    refine .ite (fun hold => absurd hold hnot) fun _ => ?_
    split
    · exact hof (by decide)
    · refine .ite (fun _ => hof (by decide)) fun _ => .ite (fun _ => hof (by decide)) fun _ => ?_
      split
      · exact .error _
      · exact .bind fun _ _ => .ite (fun _ => hof (by decide)) fun _ =>
          .bind fun _ _ => hof (by simp)

end RaiBlocks
