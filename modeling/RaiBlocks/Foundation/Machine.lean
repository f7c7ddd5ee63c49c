import RaiBlocks.Foundation.Loop

/-!
# Runs of a machine

A machine makes moves, each of which may fail. A run is a list of moves made one
after the other. `Guarded` says that every move of a run is made in a state in
which a guard allows it, and `run_invariant` is the rule for such runs: what every
allowed move preserves holds at the end. With several threads a move says which
of them takes its next step, so a list of moves is an interleaving.
-/

namespace RaiBlocks.Foundation.Machine

variable {σ μ ε : Type} (step : σ → μ → Except ε σ) {P : σ → Prop} {s : σ} {ms : List μ} {t : σ}
  {G : σ → μ → Prop} {I : σ → Prop}

/-- Make the moves of a list in turn. -/
def run : σ → List μ → Except ε σ
  | s, [] => .ok s
  | s, m :: ms => step s m >>= fun s' => run s' ms

/-- Every move is made in a state that allows it. -/
def Guarded (G : σ → μ → Prop) : σ → List μ → Prop
  | _, [] => True
  | s, m :: ms => G s m ∧ ∀ s', step s m = .ok s' → Guarded G s' ms

/-- The guard can be tested along a run. -/
instance decidableGuarded (G : σ → μ → Prop) [∀ s m, Decidable (G s m)] :
    ∀ s ms, Decidable (Guarded step G s ms)
  | _, [] => .isTrue trivial
  | s, m :: ms =>
    haveI : Decidable (∀ s', step s m = .ok s' → Guarded step G s' ms) :=
      match h : step s m with
      | .error _ => .isTrue (by rintro _ ⟨⟩)
      | .ok t =>
        have := decidableGuarded G t ms
        decidable_of_iff (Guarded step G t ms)
          ⟨fun ht _ h' => Except.ok.inj h' ▸ ht, fun hall => hall t rfl⟩
    inferInstanceAs (Decidable (_ ∧ _))

/-- `P` holds at the start and after every move. -/
def Always (P : σ → Prop) : σ → List μ → Prop
  | s, [] => P s
  | s, m :: ms => P s ∧ ∀ s', step s m = .ok s' → Always P s' ms

instance decidableAlways (P : σ → Prop) [∀ s, Decidable (P s)] :
    ∀ s ms, Decidable (Always step P s ms)
  | s, [] => inferInstanceAs (Decidable (P s))
  | s, m :: ms =>
    haveI : Decidable (∀ s', step s m = .ok s' → Always step P s' ms) :=
      match h : step s m with
      | .error _ => .isTrue (by rintro _ ⟨⟩)
      | .ok t =>
        have := decidableAlways P t ms
        decidable_of_iff (Always step P t ms)
          ⟨fun ht _ h' => Except.ok.inj h' ▸ ht, fun hall => hall t rfl⟩
    inferInstanceAs (Decidable (_ ∧ _))

variable {step}

theorem Always.start (h : Always step P s ms) : P s := by
  cases ms with
  | nil => exact h
  | cons m ms => exact h.1

theorem run_cons {m : μ} (h : run step s (m :: ms) = .ok t) :
    ∃ s', step s m = .ok s' ∧ run step s' ms = .ok t :=
  bind_eq_ok h

theorem run_append {ms' : List μ} :
    run step s (ms ++ ms') = run step s ms >>= fun s' => run step s' ms' := by
  induction ms generalizing s with
  | nil => rfl
  | cons m ms ih =>
    rw [List.cons_append, run, run]
    cases step s m with
    | error e => rfl
    | ok s' => exact ih

theorem guarded_append_iff {ms' : List μ} (h : run step s ms = .ok t) :
    Guarded step G s (ms ++ ms') ↔ Guarded step G s ms ∧ Guarded step G t ms' := by
  induction ms generalizing s with
  | nil =>
    obtain rfl := Except.ok.inj h
    exact (Iff.of_eq (true_and _)).symm
  | cons m ms ih =>
    obtain ⟨s', hs', hrest⟩ := run_cons h
    have hall : ∀ {l : List μ}, (∀ s'', step s m = .ok s'' → Guarded step G s'' l) ↔
        Guarded step G s' l := by
      intro l
      refine ⟨fun hg => hg s' hs', fun hg s'' hs'' => ?_⟩
      obtain rfl := Except.ok.inj (hs'.symm.trans hs'')
      exact hg
    rw [List.cons_append, Guarded, Guarded, hall, hall, ih hrest, and_assoc]

/-- A guard that allows a move in every state can be forgotten. -/
theorem Guarded.of_forall (h : ∀ m ∈ ms, ∀ s, G s m) : Guarded step G s ms := by
  induction ms generalizing s with
  | nil => trivial
  | cons m ms ih =>
    exact ⟨h m List.mem_cons_self s, fun _ _ => ih fun m' hm' => h m' (List.mem_cons_of_mem _ hm')⟩

/-- If no move fails where the invariant holds, no run fails. -/
theorem run_total (hstep : ∀ s m, I s → ∃ s', step s m = .ok s' ∧ I s') (hs : I s) (ms : List μ) :
    ∃ t, run step s ms = .ok t := by
  induction ms generalizing s with
  | nil => exact ⟨s, rfl⟩
  | cons m ms ih =>
    obtain ⟨s', hs', hI⟩ := hstep s m hs
    obtain ⟨t, ht⟩ := ih hI
    exact ⟨t, by rw [run, hs', ok_bind, ht]⟩

/-- **Invariants of guarded runs.** -/
theorem run_invariant (hstep : ∀ s m s', I s → G s m → step s m = .ok s' → I s') (hI : I s)
    (hg : Guarded step G s ms) (h : run step s ms = .ok t) : I t := by
  induction ms generalizing s with
  | nil =>
    obtain rfl := Except.ok.inj h
    exact hI
  | cons m ms ih =>
    obtain ⟨s', hs', hrest⟩ := run_cons h
    exact ih (hstep s m s' hI hg.1 hs') (hg.2 s' hs') hrest

/-- What every allowed move relates is related by the run, if it is a preorder. -/
theorem run_relation {R : σ → σ → Prop} (hrefl : ∀ s, R s s)
    (htrans : ∀ {s t u}, R s t → R t u → R s u)
    (hI : ∀ s m s', I s → G s m → step s m = .ok s' → I s')
    (hstep : ∀ s m s', I s → G s m → step s m = .ok s' → R s s') (hs : I s)
    (hg : Guarded step G s ms) (h : run step s ms = .ok t) : R s t := by
  induction ms generalizing s with
  | nil =>
    obtain rfl := Except.ok.inj h
    exact hrefl s
  | cons m ms ih =>
    obtain ⟨s', hs', hrest⟩ := run_cons h
    exact htrans (hstep s m s' hs hg.1 hs') (ih (hI s m s' hs hg.1 hs') (hg.2 s' hs') hrest)

theorem Always.of_step (hI : ∀ s m s', I s → step s m = .ok s' → I s') (hs : I s) (ms : List μ) :
    Always step I s ms := by
  induction ms generalizing s with
  | nil => exact hs
  | cons m ms ih => exact ⟨hs, fun s' hs' => ih (hI s m s' hs hs')⟩

theorem Always.and {Q : σ → Prop} (hP : Always step P s ms) (hQ : Always step Q s ms) :
    Always step (fun t => P t ∧ Q t) s ms := by
  induction ms generalizing s with
  | nil => exact ⟨hP, hQ⟩
  | cons m ms ih => exact ⟨⟨hP.1, hQ.1⟩, fun s' hs' => ih (hP.2 s' hs') (hQ.2 s' hs')⟩

/-- **When a property holds throughout.** If the guard says of each move whether
the property survives it, then the property holds throughout the guarded runs and
no others. The guard has to be right only where `I` holds, before the move and after
it, which it does throughout the run. -/
theorem always_iff_guarded_within
    (hG : ∀ s m, I s → (∀ s', step s m = .ok s' → I s') → P s →
      (G s m ↔ ∀ s', step s m = .ok s' → P s'))
    (hi : Always step I s ms) (hs : P s) : Always step P s ms ↔ Guarded step G s ms := by
  induction ms generalizing s with
  | nil => exact iff_of_true hs trivial
  | cons m ms ih =>
    rw [Always, Guarded]
    have hguard := hG s m hi.1 (fun s' hs' => (hi.2 s' hs').start) hs
    constructor
    · rintro ⟨-, hall⟩
      have hnext : ∀ s', step s m = .ok s' → P s' := fun s' hs' => (hall s' hs').start
      exact ⟨hguard.mpr hnext, fun s' hs' => (ih (hi.2 s' hs') (hnext s' hs')).mp (hall s' hs')⟩
    · rintro ⟨hm, hall⟩
      have hnext := hguard.mp hm
      exact ⟨hs, fun s' hs' => (ih (hi.2 s' hs') (hnext s' hs')).mpr (hall s' hs')⟩

/-- `always_iff_guarded_within` with an invariant of all moves. -/
theorem always_iff_guarded (hI : ∀ s m s', I s → step s m = .ok s' → I s')
    (hG : ∀ s m, I s → P s → (G s m ↔ ∀ s', step s m = .ok s' → P s')) (hi : I s) (hs : P s)
    (ms : List μ) : Always step P s ms ↔ Guarded step G s ms :=
  always_iff_guarded_within (fun s m hi _ hs => hG s m hi hs) (.of_step hI hi ms) hs

/-- **When no move fails and a property holds throughout.** The guard says of each move
whether it succeeds and keeps the property. -/
theorem run_always_iff_guarded (hI : ∀ s m s', I s → step s m = .ok s' → I s')
    (hG : ∀ s m, I s → P s → (G s m ↔ ∃ s', step s m = .ok s' ∧ P s')) (hi : I s) (hs : P s)
    (ms : List μ) : ((∃ t, run step s ms = .ok t) ∧ Always step P s ms) ↔ Guarded step G s ms := by
  induction ms generalizing s with
  | nil => exact iff_of_true ⟨⟨s, rfl⟩, hs⟩ trivial
  | cons m ms ih =>
    constructor
    · rintro ⟨⟨t, ht⟩, -, hall⟩
      obtain ⟨s', hs', hrest⟩ := run_cons ht
      refine ⟨(hG s m hi hs).mpr ⟨s', hs', (hall s' hs').start⟩, fun s'' hs'' => ?_⟩
      obtain rfl := Except.ok.inj (hs'.symm.trans hs'')
      have hnext := hall s' hs'
      exact (ih (hI s m s' hi hs') hnext.start).mp ⟨⟨t, hrest⟩, hnext⟩
    · rintro ⟨hm, hrest⟩
      obtain ⟨s', hs', hP⟩ := (hG s m hi hs).mp hm
      obtain ⟨⟨t, ht⟩, hall⟩ := (ih (hI s m s' hi hs') hP).mpr (hrest s' hs')
      refine ⟨⟨t, by rw [run, hs', ok_bind, ht]⟩, hs, fun s'' hs'' => ?_⟩
      obtain rfl := Except.ok.inj (hs'.symm.trans hs'')
      exact hall

end RaiBlocks.Foundation.Machine
