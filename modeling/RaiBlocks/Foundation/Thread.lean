import RaiBlocks.Foundation.Machine

/-!
# A thread among others

A thread is a program in pieces. A piece sees and changes the shared state without
interruption; between two pieces the other threads may change the state. Every piece
has a label, by which conditions on the state in which it runs can be stated.

`alone` runs a thread without interruption. `Safe` is the rule for interrupted runs:
whatever the others do within a relation `R`, and as long as the pieces run in states
permitted for their labels, the thread ends with its postcondition. `run_safe` is about
any interleaving with moves of the others.
-/

namespace RaiBlocks.Foundation

/-- What a thread still has to do. What comes after a piece depends on the state that
the piece has seen. -/
inductive Thread (ℓ σ ε α : Type) : Type
  | ret (a : α)
  | piece (label : ℓ) (body : σ → Except ε σ) (next : σ → Thread ℓ σ ε α)

namespace Thread

variable {ℓ σ ε α β ω : Type}

def bind : Thread ℓ σ ε α → (α → Thread ℓ σ ε β) → Thread ℓ σ ε β
  | ret a, k => k a
  | piece label body next, k => piece label body fun s => (next s).bind k

instance instMonad : Monad (Thread ℓ σ ε) where
  pure := ret
  bind := bind

/-- A piece that only looks at the state. -/
def look (label : ℓ) (f : σ → α) : Thread ℓ σ ε α := piece label .ok fun s => ret (f s)

/-- A piece that fails unless the state passes a test. -/
def require (label : ℓ) (fault : ε) (test : σ → Bool) : Thread ℓ σ ε Unit :=
  piece label (fun s => if test s then .ok s else .error fault) fun _ => ret ()

/-- A piece that changes the state. -/
def change (label : ℓ) (f : σ → σ) (a : α) : Thread ℓ σ ε α :=
  piece label (fun s => .ok (f s)) fun _ => ret a

/-! ## Without interruption -/

def alone : Thread ℓ σ ε α → σ → Except ε (α × σ)
  | ret a, s => .ok (a, s)
  | piece _ body next, s => body s >>= fun s' => (next s).alone s'

theorem alone_bind (t : Thread ℓ σ ε α) (k : α → Thread ℓ σ ε β) (s : σ) :
    (t >>= k).alone s = t.alone s >>= fun r => (k r.1).alone r.2 := by
  change (t.bind k).alone s = _
  induction t generalizing s with
  | ret a => rfl
  | piece label body next ih =>
    rw [bind, alone, alone]
    cases body s with
    | error e => rfl
    | ok s' => exact ih s s'

/-! ## With others -/

section Safe

variable (R : σ → σ → Prop) (P : ℓ → σ → Prop) {s : σ} {label : ℓ}

/-- From `s` the thread ends with `Q`, if the others keep to `R` and every piece runs
in a state that `P` permits. -/
def Safe (Q : α → σ → Prop) : Thread ℓ σ ε α → σ → Prop
  | ret a, s => ∀ s', R s s' → Q a s'
  | piece label body next, s =>
    ∀ s', R s s' → P label s' → ∀ s'', body s' = .ok s'' → (next s').Safe Q s''

variable {R P} {Q : α → σ → Prop}

theorem Safe.outside (htrans : ∀ s t u, R s t → R t u → R s u) {t : Thread ℓ σ ε α} {s' : σ}
    (h : t.Safe R P Q s) (hR : R s s') : t.Safe R P Q s' := by
  cases t with
  | ret a => exact fun u hu => h u (htrans _ _ _ hR hu)
  | piece label body next => exact fun u hu => h u (htrans _ _ _ hR hu)

theorem Safe.bind (hrefl : ∀ s, R s s) {Q' : β → σ → Prop} {t : Thread ℓ σ ε α}
    {k : α → Thread ℓ σ ε β} (h : t.Safe R P Q s) (hk : ∀ a s', Q a s' → (k a).Safe R P Q' s') :
    (t >>= k).Safe R P Q' s := by
  change (t.bind k).Safe R P Q' s
  induction t generalizing s with
  | ret a => exact hk a s (h s (hrefl s))
  | piece label body next ih =>
    exact fun u hu hP u' hbody => ih u (h u hu hP u' hbody)

theorem Safe.look {f : σ → α} (h : ∀ s', R s s' → P label s' → ∀ s'', R s' s'' → Q (f s') s'') :
    (look label f : Thread ℓ σ ε α).Safe R P Q s := by
  intro s' hs' hP s'' hbody
  obtain rfl := Except.ok.inj hbody
  exact h s' hs' hP

theorem Safe.require {fault : ε} {test : σ → Bool} {Q : Unit → σ → Prop}
    (h : ∀ s', R s s' → P label s' → test s' = true → ∀ s'', R s' s'' → Q () s'') :
    (Thread.require label fault test).Safe R P Q s := by
  intro s' hs' hP s'' hbody
  dsimp only at hbody
  split_ifs at hbody with htest
  obtain rfl := Except.ok.inj hbody
  exact h s' hs' hP htest

theorem Safe.change {f : σ → σ} {a : α}
    (h : ∀ s', R s s' → P label s' → ∀ s'', R (f s') s'' → Q a s'') :
    (change label f a : Thread ℓ σ ε α).Safe R P Q s := by
  intro s' hs' hP s'' hbody
  obtain rfl := Except.ok.inj hbody
  exact h s' hs' hP

end Safe

/-! ## Interleavings -/

/-- Who moves: the thread makes its next piece, or another one does something. -/
inductive Move (ω : Type)
  | thread
  | other (op : ω)

variable (others : ω → σ → Except ε σ)

def step (x : σ × Thread ℓ σ ε α) : Move ω → Except ε (σ × Thread ℓ σ ε α)
  | .other op => others op x.1 >>= fun s' => .ok (s', x.2)
  | .thread =>
    match x.2 with
    | ret _ => .ok x
    | piece _ body next => body x.1 >>= fun s' => .ok (s', next x.1)

/-- The run is over for the thread, in a state that passes a test. -/
def endsIn (T : σ → Bool) : Except ε (σ × Thread ℓ σ ε α) → Bool
  | .ok (s, ret _) => T s
  | _ => false

theorem exists_of_endsIn {T : σ → Bool} {x : Except ε (σ × Thread ℓ σ ε α)}
    (h : endsIn T x = true) : ∃ s a, x = .ok (s, ret a) ∧ T s = true := by
  unfold endsIn at h
  split at h
  · exact ⟨_, _, rfl, h⟩
  · cases h

/-- The condition on a move: `P` on the piece of the thread, `O` on what another does. -/
def Allowed (P : ℓ → σ → Prop) (O : ω → σ → Prop) (x : σ × Thread ℓ σ ε α) : Move ω → Prop
  | .other op => O op x.1
  | .thread =>
    match x.2 with
    | ret _ => True
    | piece label _ _ => P label x.1

instance decidableAllowed (P : ℓ → σ → Prop) (O : ω → σ → Prop) [∀ l s, Decidable (P l s)]
    [∀ op s, Decidable (O op s)] (x : σ × Thread ℓ σ ε α) (m : Move ω) :
    Decidable (Allowed P O x m) :=
  match m, x with
  | .other op, x => inferInstanceAs (Decidable (O op x.1))
  | .thread, (_, ret _) => .isTrue trivial
  | .thread, (s, piece label _ _) => inferInstanceAs (Decidable (P label s))

/-- **A safe thread in any interleaving.** When it has ended, its postcondition holds. -/
theorem run_safe {R : σ → σ → Prop} {P : ℓ → σ → Prop} {O : ω → σ → Prop} {Q : α → σ → Prop}
    {others : ω → σ → Except ε σ} (hrefl : ∀ s, R s s)
    (htrans : ∀ s t u, R s t → R t u → R s u)
    (hothers : ∀ op s s', O op s → others op s = .ok s' → R s s') {t : Thread ℓ σ ε α} {s s' : σ}
    {a : α} (hsafe : t.Safe R P Q s) {ms : List (Move ω)}
    (hg : Machine.Guarded (step others) (Allowed P O) (s, t) ms)
    (hrun : Machine.run (step others) (s, t) ms = .ok (s', ret a)) : Q a s' := by
  have hinv : (ret a : Thread ℓ σ ε α).Safe R P Q s' := by
    refine Machine.run_invariant (I := fun x => x.2.Safe R P Q x.1) ?_ hsafe hg hrun
    rintro ⟨s, t⟩ m ⟨u, t'⟩ hI hG hstep
    cases m with
    | thread =>
      cases t with
      | ret b =>
        obtain ⟨rfl, rfl⟩ := Prod.mk.inj (Except.ok.inj hstep)
        exact hI
      | piece label body next =>
        obtain ⟨v, hbody, hv⟩ := bind_eq_ok hstep
        obtain ⟨rfl, rfl⟩ := Prod.mk.inj (Except.ok.inj hv)
        exact hI s (hrefl s) hG v hbody
    | other op =>
      obtain ⟨v, hv, heq⟩ := bind_eq_ok hstep
      obtain ⟨rfl, rfl⟩ := Prod.mk.inj (Except.ok.inj heq)
      exact Safe.outside htrans hI (hothers op s v hG hv)
  exact hinv s' (hrefl s')

end Thread

end RaiBlocks.Foundation
