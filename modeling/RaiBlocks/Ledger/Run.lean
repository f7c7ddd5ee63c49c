import RaiBlocks.Ledger.Process
import RaiBlocks.Ledger.Rollback

/-!
# Runs of a ledger

A ledger starts with `genesis::initialize` on a new store and goes on by
processing blocks and rolling stored blocks back, in any order and at any time.
The blocks offered to it are taken from a set `U`, so that what is assumed of
the hash function can be restricted to the blocks of the run.
-/

namespace RaiBlocks

open Foundation

namespace Ledger

variable {p : Env} {U : Set Block} {s s' : BlockStore}

/-- One call that changes the ledger. -/
inductive Step (p : Env) (U : Set Block) (s s' : BlockStore) : Prop
  | process {b : Block} {ret : ProcessReturn} (now : ℕ) :
      b ∈ U → process p now s b = .ok (s', ret) → Step p U s s'
  | rollback {h : BlockHash} (now : ℕ) :
      s.blockExists h = true → h ≠ p.genesisHash → rollback p now s h = .ok s' → Step p U s s'

/-- The stores a run can lead to. -/
def Reachable (p : Env) (U : Set Block) (s : BlockStore) : Prop :=
  ∃ now s₀, genesisInitialize p now .empty = .ok s₀ ∧ Relation.ReflTransGen (Step p U) s₀ s

theorem Reachable.step (hs : Reachable p U s) (hstep : Step p U s s') : Reachable p U s' := by
  obtain ⟨now, s₀, hinit, hrun⟩ := hs
  exact ⟨now, s₀, hinit, hrun.tail hstep⟩

theorem Reachable.induction {P : BlockStore → Prop}
    (hinit : ∀ now s, genesisInitialize p now .empty = .ok s → P s)
    (hstep : ∀ s s', Reachable p U s → P s → Step p U s s' → P s') :
    ∀ s, Reachable p U s → P s := by
  rintro s ⟨now, s₀, h₀, hrun⟩
  induction hrun with
  | refl => exact hinit now s₀ h₀
  | @tail s₁ s₂ hrun hlast ih => exact hstep s₁ s₂ ⟨now, s₀, h₀, hrun⟩ ih hlast

/-- A call of `process` for a block of the run, or of `rollback` for any block but
the first. -/
inductive Call (p : Env) (U : Set Block) : Type
  | process (now : ℕ) (b : Block) (hb : b ∈ U)
  | rollback (now : ℕ) (h : BlockHash) (hg : h ≠ p.genesisHash)

def Call.apply {p : Env} {U : Set Block} (s : BlockStore) : Call p U → Except Fault BlockStore
  | .process now b _ => return (← Ledger.process p now s b).1
  | .rollback now h _ => Ledger.rollback p now s h

theorem blockExists_of_rollback {now : ℕ} {h : BlockHash} (hrun : rollback p now s h = .ok s') :
    s.blockExists h = true := by
  unfold rollback BlockStore.fuel rollbackFuel at hrun
  obtain ⟨_, hassert, _⟩ := bind_eq_ok hrun
  exact of_assertThat hassert

theorem Call.step {c : Call p U} (hrun : c.apply s = .ok s') : Step p U s s' := by
  cases c with
  | process now b hb =>
    obtain ⟨⟨s₁, ret⟩, hprocess, hrun⟩ := bind_eq_ok hrun
    obtain rfl := Except.ok.inj hrun
    exact .process now hb hprocess
  | rollback now h hg => exact .rollback now (blockExists_of_rollback hrun) hg hrun

/-- Process blocks one after the other, each at its time. -/
def processAll (p : Env) (s : BlockStore) :
    List (ℕ × Block) → Except Fault (BlockStore × List ProcessResult)
  | [] => .ok (s, [])
  | (now, b) :: blocks => do
    let (s, ret) ← process p now s b
    let (s, codes) ← processAll p s blocks
    return (s, ret.code :: codes)

theorem processAll_cons {now : ℕ} {b : Block} {blocks : List (ℕ × Block)}
    {codes : List ProcessResult} (hrun : processAll p s ((now, b) :: blocks) = .ok (s', codes)) :
    ∃ s₁ ret codes', process p now s b = .ok (s₁, ret) ∧
      processAll p s₁ blocks = .ok (s', codes') ∧ codes = ret.code :: codes' := by
  unfold processAll at hrun
  cases hp : process p now s b with
  | error e =>
    rw [hp] at hrun
    cases hrun
  | ok r =>
    rw [hp, ok_bind] at hrun
    obtain ⟨s₁, ret⟩ := r
    cases hq : processAll p s₁ blocks with
    | error e =>
      simp only [hq, error_bind] at hrun
      cases hrun
    | ok r =>
      simp only [hq, ok_bind] at hrun
      cases hrun
      exact ⟨s₁, ret, r.2, rfl, hq, rfl⟩

theorem Reachable.processAll {blocks : List (ℕ × Block)} (hU : ∀ x ∈ blocks, x.2 ∈ U) :
    ∀ {s s' codes}, Reachable p U s →
    Ledger.processAll p s blocks = .ok (s', codes) → Reachable p U s' := by
  induction blocks with
  | nil =>
    intro s s' codes hs hrun
    cases hrun
    exact hs
  | cons x blocks ih =>
    intro s s' codes hs hrun
    obtain ⟨s₁, ret, codes', hp, hrest, _⟩ := processAll_cons hrun
    exact ih (fun y hy => hU y (List.mem_cons_of_mem _ hy))
      (hs.step (.process x.1 (hU x List.mem_cons_self) hp)) hrest

end Ledger

end RaiBlocks
