import Mathlib.Tactic

/-!
# Loops that may fail

A `while` loop over a state, whose body may fail, run for at most a given
number of iterations. The bound is what makes the loop a function; a loop that
still wants to run when the bound is spent fails with `exhausted`. The rule
`whileLoop_total` is total correctness: an indexed invariant whose index drops
with every iteration shows that the loop ends, does not fail, and leaves a
state where the condition is false. `whileLoop_invariant` is about loops that may
fail: an invariant holds of what they return.
-/

namespace RaiBlocks.Foundation

variable {σ ε α β : Type} {x : Except ε α} {f : α → Except ε β} {s : σ} {I : σ → Prop}

@[simp] theorem ok_bind (a : α) (f : α → Except ε β) : (Except.ok a >>= f) = f a := rfl

@[simp] theorem error_bind (e : ε) (f : α → Except ε β) :
    ((Except.error e : Except ε α) >>= f) = Except.error e := rfl

theorem bind_eq_ok {b : β} (h : (x >>= f) = .ok b) : ∃ a, x = .ok a ∧ f a = .ok b := by
  cases x with
  | error e => cases h
  | ok a => exact ⟨a, rfl, h⟩

/-- A computation that succeeds has the result it has. -/
theorem eq_ok_getD (h : x.isOk = true) (d : α) : x = .ok (x.toOption.getD d) := by
  cases x with
  | error e => cases h
  | ok a => rfl

def whileLoop (exhausted : ε) (cond : σ → Bool) (body : σ → Except ε σ) : ℕ → σ → Except ε σ
  | 0, s => if cond s then .error exhausted else .ok s
  | n + 1, s => if cond s then body s >>= whileLoop exhausted cond body n else .ok s

variable {exhausted : ε} {cond : σ → Bool} {body : σ → Except ε σ}

theorem whileLoop_done (h : cond s = false) : ∀ n, whileLoop exhausted cond body n s = .ok s
  | 0 => by simp [whileLoop, h]
  | n + 1 => by simp [whileLoop, h]

theorem whileLoop_step {t : σ} (h : cond s = true) (hb : body s = .ok t) (n : ℕ) :
    whileLoop exhausted cond body (n + 1) s = whileLoop exhausted cond body n t := by
  rw [whileLoop, if_pos h, hb, ok_bind]

/-- **Total correctness of a loop.** `I k s` reads "`s` is a state of the loop
with at most `k` iterations to go". -/
theorem whileLoop_total {I : ℕ → σ → Prop}
    (hstep : ∀ k s, I k s → cond s = true → ∃ k' s', body s = .ok s' ∧ k' < k ∧ I k' s') :
    ∀ n k s, k ≤ n → I k s →
      ∃ k' s', whileLoop exhausted cond body n s = .ok s' ∧ I k' s' ∧ cond s' = false := by
  intro n
  induction n with
  | zero =>
    intro k s hk hI
    cases hc : cond s with
    | false => exact ⟨k, s, whileLoop_done hc 0, hI, hc⟩
    | true =>
      obtain ⟨k', s', _, hlt, _⟩ := hstep k s hI hc
      omega
  | succ n ih =>
    intro k s hk hI
    cases hc : cond s with
    | false => exact ⟨k, s, whileLoop_done hc _, hI, hc⟩
    | true =>
      obtain ⟨k', s', hb, hlt, hI'⟩ := hstep k s hI hc
      rw [whileLoop_step hc hb]
      exact ih k' s' (by omega) hI'

/-- A loop that never gets to its end uses up its fuel. -/
theorem whileLoop_exhausted (hstep : ∀ s, I s → cond s = true ∧ ∃ s', body s = .ok s' ∧ I s') :
    ∀ n s, I s → whileLoop exhausted cond body n s = .error exhausted := by
  intro n
  induction n with
  | zero =>
    intro s hI
    rw [whileLoop, if_pos (hstep s hI).1]
  | succ n ih =>
    intro s hI
    obtain ⟨hc, s', hb, hI'⟩ := hstep s hI
    rw [whileLoop_step hc hb]
    exact ih s' hI'

/-- **Partial correctness of a loop.** What every iteration preserves holds of the
state that the loop returns. -/
theorem whileLoop_invariant (hstep : ∀ s s', I s → cond s = true → body s = .ok s' → I s') :
    ∀ n s t, I s → whileLoop exhausted cond body n s = .ok t → I t ∧ cond t = false := by
  intro n
  induction n with
  | zero =>
    intro s t hI h
    rw [whileLoop] at h
    cases hc : cond s with
    | true => simp [hc] at h
    | false =>
      rw [hc] at h
      obtain rfl := Except.ok.inj h
      exact ⟨hI, hc⟩
  | succ n ih =>
    intro s t hI h
    rw [whileLoop] at h
    cases hc : cond s with
    | true =>
      rw [if_pos hc] at h
      obtain ⟨s', hb, h'⟩ := bind_eq_ok h
      exact ih s' t (hstep s s' hI hc hb) h'
    | false =>
      rw [hc] at h
      obtain rfl := Except.ok.inj h
      exact ⟨hI, hc⟩

/-! ## What is returned -/

/-- Whatever `x` returns satisfies `P`. -/
def Returns (P : α → Prop) (x : Except ε α) : Prop := ∀ a, x = .ok a → P a

namespace Returns

variable {P : α → Prop}

theorem ok {a : α} (h : P a) : Returns P (Except.ok (ε := ε) a) := by
  intro a' ha'
  cases ha'
  exact h

theorem error (e : ε) : Returns P (Except.error e) := by
  intro a ha
  cases ha

theorem bind {x : Except ε β} {f : β → Except ε α} (hf : ∀ b, x = .ok b → Returns P (f b)) :
    Returns P (x >>= f) := by
  intro a ha
  obtain ⟨b, hb, hfb⟩ := bind_eq_ok ha
  exact hf b hb a hfb

theorem ite {c : Prop} [Decidable c] {x y : Except ε α} (hpos : c → Returns P x)
    (hneg : ¬ c → Returns P y) : Returns P (if c then x else y) := by
  split
  · exact hpos ‹c›
  · exact hneg ‹¬ c›

end Returns

/-! ## Comparing computations -/

/-- What `x` achieves, `y` achieves. -/
def Below (x y : Except ε α) : Prop := ∀ r, x = .ok r → y = .ok r

namespace Below

theorem refl (x : Except ε α) : Below x x := fun _ h => h

theorem bind {x y : Except ε α} {f g : α → Except ε β} (hx : Below x y)
    (hf : ∀ a, Below (f a) (g a)) : Below (x >>= f) (y >>= g) := by
  intro r hr
  cases hxa : x with
  | error e =>
    rw [hxa] at hr
    cases hr
  | ok a =>
    rw [hxa, ok_bind] at hr
    rw [hx a hxa, ok_bind]
    exact hf a r hr

/-- The common case of `bind`: the same first step. -/
theorem bind_right (x : Except ε α) {f g : α → Except ε β} (hf : ∀ a, Below (f a) (g a)) :
    Below (x >>= f) (x >>= g) :=
  .bind (.refl x) hf

theorem ite {c : Prop} [Decidable c] {x x' y y' : Except ε α} (hpos : c → Below x y)
    (hneg : ¬ c → Below x' y') : Below (if c then x else x') (if c then y else y') := by
  split
  · exact hpos ‹c›
  · exact hneg ‹¬ c›

theorem whileLoop {body' : σ → Except ε σ} (hbody : ∀ s, Below (body s) (body' s)) :
    ∀ n s, Below (whileLoop exhausted cond body n s) (whileLoop exhausted cond body' n s)
  | 0, _ => .refl _
  | n + 1, _ => .ite (fun _ => .bind (hbody _) fun s => Below.whileLoop hbody n s) fun _ => .refl _

end Below

/-! ## Loops over a list -/

section Folds

variable {f : σ → α → Except ε σ}

/-- What every iteration preserves holds of what the loop returns. -/
theorem foldlM_invariant {P : σ → Prop} : ∀ {l : List α} {s s' : σ},
    (∀ t t', ∀ a ∈ l, P t → f t a = .ok t' → P t') → P s → l.foldlM f s = .ok s' → P s' := by
  intro l
  induction l with
  | nil =>
    intro s s' _ hs h
    obtain rfl := Except.ok.inj h
    exact hs
  | cons a l ih =>
    intro s s' hstep hs h
    rw [List.foldlM_cons] at h
    obtain ⟨t, ht, h⟩ := bind_eq_ok h
    exact ih (fun t t' b hb => hstep t t' b (List.mem_cons_of_mem _ hb))
      (hstep s t a List.mem_cons_self hs ht) h

/-- If it depends on the element alone whether an iteration succeeds, then the loop
succeeds exactly if all do. -/
theorem foldlM_ok_iff {Q : α → Prop} : ∀ {l : List α},
    (∀ s, ∀ a ∈ l, (∃ s', f s a = .ok s') ↔ Q a) →
    ∀ s, (∃ s', l.foldlM f s = .ok s') ↔ ∀ a ∈ l, Q a := by
  intro l
  induction l with
  | nil => exact fun _ s => iff_of_true ⟨s, rfl⟩ (by simp)
  | cons a l ih =>
    intro hstep s
    rw [List.forall_mem_cons, ← hstep s a List.mem_cons_self, List.foldlM_cons]
    have hrest := ih fun t b hb => hstep t b (List.mem_cons_of_mem _ hb)
    constructor
    · rintro ⟨s', h⟩
      obtain ⟨t, ht, h⟩ := bind_eq_ok h
      exact ⟨⟨t, ht⟩, (hrest t).mp ⟨s', h⟩⟩
    · rintro ⟨⟨t, ht⟩, hall⟩
      rw [ht, ok_bind]
      exact (hrest t).mpr hall

end Folds

theorem mapM_eq_ok {g : α → β} : ∀ {l : List α},
    (∀ a ∈ l, f a = .ok (g a)) → l.mapM f = .ok (l.map g) := by
  intro l
  induction l with
  | nil => exact fun _ => rfl
  | cons a l ih =>
    intro hl
    rw [List.mapM_cons, hl a List.mem_cons_self, ok_bind,
      ih fun b hb => hl b (List.mem_cons_of_mem _ hb)]
    rfl

end RaiBlocks.Foundation
