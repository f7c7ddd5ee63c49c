import Mathlib.Data.Set.Card
import Mathlib.Data.Prod.Lex
import Mathlib.Tactic

/-!
# Work lists with dependencies

A processor takes items from a list one at a time. An item whose key is done is
old; one whose dependencies are done gets done itself; one with a missing
dependency waits under it; anything else is dropped. When the key of an item is
done, what waits under it goes back to the list. Items may be given to the list
at any time and any number of times.

Of several items with one key, only the first may wait under a dependency: the
others are taken for the same item. This is what a list of items that are all
different does not notice, and what `Apart` excludes.

The results are: the processor comes to rest (`Inv.acc`); if every genuine item
is given, all of them are done when it does (`Run.complete`); and an item that
is nowhere to be found stays so until it is given again (`Lost.step`).
-/

namespace RaiBlocks.Foundation.Worklist

variable {κ α : Type} {l : List α} {D₀ : Set κ}

/-- The items: their keys, what they depend on, and which of them may get done. -/
structure Items (κ α : Type) where
  key : α → κ
  deps : α → Set κ
  genuine : Set α

/-- What the processor is at. -/
inductive Hand (κ α : Type) where
  | free
  | held (a : α)
  | releasing (k : κ) (rest : List α)

structure State (κ α : Type) where
  done : Set κ
  queue : List α
  hand : Hand κ α
  waiting : Set (κ × α)

/-- Nothing is left to be processed. -/
def State.AtRest (σ : State κ α) : Prop := σ.queue = [] ∧ σ.hand = .free

/-- The list `l` has what waits under `k`. -/
def Lists (W : Set (κ × α)) (k : κ) (l : List α) : Prop := ∀ a, a ∈ l ↔ (k, a) ∈ W

/-- One step of the processor. -/
inductive Step (I : Items κ α) : State κ α → State κ α → Prop
  | take {D : Set κ} {q : List α} {a : α} {W : Set (κ × α)} :
      Step I ⟨D, a :: q, .free, W⟩ ⟨D, q, .held a, W⟩
  | old {D : Set κ} {q l : List α} {a : α} {W : Set (κ × α)} :
      I.key a ∈ D → Lists W (I.key a) l →
      Step I ⟨D, q, .held a, W⟩ ⟨D, q, .releasing (I.key a) l, W⟩
  | accept {D : Set κ} {q l : List α} {a : α} {W : Set (κ × α)} :
      a ∈ I.genuine → I.key a ∉ D → I.deps a ⊆ D → Lists W (I.key a) l →
      Step I ⟨D, q, .held a, W⟩ ⟨insert (I.key a) D, q, .releasing (I.key a) l, W⟩
  | wait {D : Set κ} {q : List α} {a : α} {W : Set (κ × α)} {k : κ} :
      I.key a ∉ D → k ∈ I.deps a → k ∉ D → Step I ⟨D, q, .held a, W⟩ ⟨D, q, .free, insert (k, a) W⟩
  | duplicate {D : Set κ} {q : List α} {a x : α} {W : Set (κ × α)} {k : κ} :
      I.key a ∉ D → k ∈ I.deps a → k ∉ D → (k, x) ∈ W → I.key x = I.key a →
      Step I ⟨D, q, .held a, W⟩ ⟨D, q, .free, W⟩
  | drop {D : Set κ} {q : List α} {a : α} {W : Set (κ × α)} :
      a ∉ I.genuine → I.key a ∉ D → Step I ⟨D, q, .held a, W⟩ ⟨D, q, .free, W⟩
  | release {D : Set κ} {q l : List α} {a : α} {W : Set (κ × α)} {k : κ} :
      Step I ⟨D, q, .releasing k (a :: l), W⟩ ⟨D, a :: q, .releasing k l, W \ {(k, a)}⟩
  | finish {D : Set κ} {q : List α} {W : Set (κ × α)} {k : κ} :
      Step I ⟨D, q, .releasing k [], W⟩ ⟨D, q, .free, W⟩

/-- A run: the processor steps, and the listed items are given meanwhile. -/
inductive Run (I : Items κ α) (σ₀ : State κ α) : List α → State κ α → Prop
  | start : Run I σ₀ [] σ₀
  | give {l : List α} {σ : State κ α} (a : α) : Run I σ₀ l σ →
      Run I σ₀ (l ++ [a]) { σ with queue := a :: σ.queue }
  | step {l : List α} {σ τ : State κ α} : Run I σ₀ l σ → Step I σ τ → Run I σ₀ l τ

variable {I : Items κ α} {σ τ σ₀ : State κ α} {a : α}

theorem Step.done_subset (hstep : Step I σ τ) : σ.done ⊆ τ.done := by
  cases hstep with
  | accept => exact Set.subset_insert _ _
  | _ => exact subset_rfl

theorem Run.done_subset (hrun : Run I σ₀ l σ) : σ₀.done ⊆ σ.done := by
  induction hrun with
  | start => exact subset_rfl
  | give a _ ih => exact ih
  | step _ hstep ih => exact ih.trans hstep.done_subset

/-! ## What waits, waits for something missing -/

/-- Items wait under dependencies of theirs, and these are missing, or the item
is about to be released. -/
structure Inv (I : Items κ α) (σ : State κ α) : Prop where
  needed : ∀ k a, (k, a) ∈ σ.waiting → k ∈ I.deps a
  missing : ∀ k a, (k, a) ∈ σ.waiting → k ∉ σ.done ∨ ∃ l, σ.hand = .releasing k l ∧ a ∈ l

theorem Inv.empty (D : Set κ) : Inv I ⟨D, [], .free, ∅⟩ := by
  constructor
  · intro k a h
    cases h
  · intro k a h
    cases h

theorem Inv.missing_of_held {D : Set κ} {q : List α} {W : Set (κ × α)} {x : α} {k : κ}
    (hinv : Inv I ⟨D, q, .held x, W⟩) (hk : (k, a) ∈ W) : k ∉ D := by
  rcases hinv.missing k a hk with hn | ⟨l, hl, _⟩
  · exact hn
  · cases hl

theorem Inv.step (hinv : Inv I σ) (hstep : Step I σ τ) : Inv I τ := by
  cases hstep with
  | take =>
    refine ⟨hinv.needed, fun k x hx => ?_⟩
    rcases hinv.missing k x hx with hn | ⟨l, hl, _⟩
    · exact Or.inl hn
    · cases hl
  | old _ _ => exact ⟨hinv.needed, fun k x hx => Or.inl (hinv.missing_of_held hx)⟩
  | @accept D q l a W _ _ _ hl =>
    refine ⟨hinv.needed, fun k x hx => ?_⟩
    by_cases hk : k = I.key a
    · subst hk
      exact Or.inr ⟨l, rfl, (hl x).mpr hx⟩
    · exact Or.inl fun hd => (Set.mem_insert_iff.mp hd).elim hk (hinv.missing_of_held hx)
  | @wait D q a W k _ hdep hk =>
    constructor
    · rintro k' x (heq | hx)
      · cases heq
        exact hdep
      · exact hinv.needed k' x hx
    · rintro k' x (heq | hx)
      · cases heq
        exact Or.inl hk
      · exact Or.inl (hinv.missing_of_held hx)
  | duplicate _ _ _ _ _ => exact ⟨hinv.needed, fun k x hx => Or.inl (hinv.missing_of_held hx)⟩
  | drop _ _ => exact ⟨hinv.needed, fun k x hx => Or.inl (hinv.missing_of_held hx)⟩
  | @release D q l a W k =>
    refine ⟨fun k' x hx => hinv.needed k' x hx.1, fun k' x hx => ?_⟩
    rcases hinv.missing k' x hx.1 with hn | ⟨l', hl', hmem⟩
    · exact Or.inl hn
    · obtain ⟨rfl, rfl⟩ := Hand.releasing.inj hl'
      rcases List.mem_cons.mp hmem with rfl | hmem
      · exact absurd rfl hx.2
      · exact Or.inr ⟨l, rfl, hmem⟩
  | finish =>
    refine ⟨hinv.needed, fun k' x hx => ?_⟩
    rcases hinv.missing k' x hx with hn | ⟨l', hl', hmem⟩
    · exact Or.inl hn
    · obtain ⟨rfl, rfl⟩ := Hand.releasing.inj hl'
      cases hmem

theorem Run.inv (hrun : Run I σ₀ l σ) (h₀ : Inv I σ₀) : Inv I σ := by
  induction hrun with
  | start => exact h₀
  | give a _ ih => exact ⟨ih.needed, ih.missing⟩
  | step _ hstep ih => exact ih.step hstep

theorem Inv.missing_at_rest (hinv : Inv I σ) (hrest : σ.AtRest) {k : κ}
    (hk : (k, a) ∈ σ.waiting) : k ∉ σ.done := by
  rcases hinv.missing k a hk with hn | ⟨l, hl, _⟩
  · exact hn
  · cases hrest.2.symm.trans hl

/-! ## Coming to rest -/

def Hand.weight : Hand κ α → ℕ
  | .free => 0
  | .held _ => 2
  | .releasing _ l => 4 * l.length + 1

/-- What is left to do on the list. -/
def State.weight (σ : State κ α) : ℕ := 3 * σ.queue.length + σ.hand.weight

/-- How many keys may still get done. -/
noncomputable def remaining (I : Items κ α) (σ : State κ α) : ℕ :=
  (I.key '' I.genuine \ σ.done).ncard

theorem remaining_insert_lt (hfin : I.genuine.Finite) (ha : a ∈ I.genuine)
    (hn : I.key a ∉ σ.done) (hdone : τ.done = insert (I.key a) σ.done) :
    remaining I τ < remaining I σ := by
  unfold remaining
  rw [hdone]
  apply Set.ncard_lt_ncard _ ((hfin.image I.key).subset Set.sdiff_subset)
  constructor
  · exact Set.sdiff_subset_sdiff_right (Set.subset_insert _ _)
  · intro hsub
    exact (hsub ⟨Set.mem_image_of_mem I.key ha, hn⟩).2 (Set.mem_insert _ _)

/-- Every step does something that cannot be done for ever. -/
theorem Inv.decreases (hfin : I.genuine.Finite) (hinv : Inv I σ) (hstep : Step I σ τ) :
    Prod.Lex (· < ·) (· < ·) (remaining I τ, τ.weight) (remaining I σ, σ.weight) := by
  cases hstep with
  | @accept D q l a W ha hn _ _ => exact .left _ _ (remaining_insert_lt hfin ha hn rfl)
  | @old D q l a W ha hl =>
    -- nothing waits under a key that is done
    have hnil : l = [] := by
      apply List.eq_nil_iff_forall_not_mem.mpr
      intro x hx
      exact hinv.missing_of_held ((hl x).mp hx) ha
    apply Prod.Lex.right
    simp [State.weight, Hand.weight, hnil]
  | take =>
    apply Prod.Lex.right
    simp only [State.weight, Hand.weight, List.length_cons]
    omega
  | release =>
    apply Prod.Lex.right
    simp only [State.weight, Hand.weight, List.length_cons]
    omega
  | finish =>
    apply Prod.Lex.right
    simp [State.weight, Hand.weight]
  | _ =>
    apply Prod.Lex.right
    simp [State.weight, Hand.weight]

/-- **The processor comes to rest.** -/
theorem Inv.acc (hfin : I.genuine.Finite) (hinv : Inv I σ) :
    Acc (fun τ σ => Step I σ τ) σ := by
  have hwf := (Nat.lt_wfRel.wf).prod_lex (Nat.lt_wfRel.wf)
  have main : ∀ m : ℕ × ℕ, ∀ σ, (remaining I σ, σ.weight) = m → Inv I σ →
      Acc (fun τ σ => Step I σ τ) σ := by
    intro m
    induction m using hwf.induction with
    | _ m ih =>
      rintro σ rfl hinv
      constructor
      intro τ hstep
      exact ih _ (hinv.decreases hfin hstep) τ rfl (hinv.step hstep)
  exact main _ σ rfl hinv

/-! ## Where an item is -/

/-- The item is on the list, in hand, or waits. -/
inductive Holds (σ : State κ α) (a : α) : Prop
  | queued : a ∈ σ.queue → Holds σ a
  | held : σ.hand = .held a → Holds σ a
  | releasing {k : κ} {l : List α} : σ.hand = .releasing k l → a ∈ l → Holds σ a
  | waiting {k : κ} : (k, a) ∈ σ.waiting → Holds σ a

/-- The item has been given and is not lost. -/
def Tracked (I : Items κ α) (σ : State κ α) (a : α) : Prop := I.key a ∈ σ.done ∨ Holds σ a

/-- The item is not done and nowhere to be found. -/
def Lost (I : Items κ α) (σ : State κ α) (a : α) : Prop := I.key a ∉ σ.done ∧ ¬ Holds σ a

/-- Listed items with the key of `a` do not get into its way: they or `a` have all
dependencies in `D`. -/
def Apart (I : Items κ α) (D : Set κ) (l : List α) (a : α) : Prop :=
  ∀ x ∈ l, I.key x = I.key a → x = a ∨ I.deps x ⊆ D ∨ I.deps a ⊆ D

theorem Step.holds (hstep : Step I σ τ) (hh : Holds τ a) : Holds σ a := by
  cases hstep with
  | @take D q x W =>
    rcases hh with hq | hheld | ⟨hr, _⟩ | hw
    · exact .queued (List.mem_cons_of_mem _ hq)
    · cases hheld
      exact .queued List.mem_cons_self
    · cases hr
    · exact .waiting hw
  | @old D q l x W _ hlist =>
    rcases hh with hq | hheld | ⟨hr, hmem⟩ | hw
    · exact .queued hq
    · cases hheld
    · cases hr
      exact .waiting ((hlist a).mp hmem)
    · exact .waiting hw
  | @accept D q l x W _ _ _ hlist =>
    rcases hh with hq | hheld | ⟨hr, hmem⟩ | hw
    · exact .queued hq
    · cases hheld
    · cases hr
      exact .waiting ((hlist a).mp hmem)
    · exact .waiting hw
  | @wait D q x W k _ _ _ =>
    rcases hh with hq | hheld | ⟨hr, _⟩ | heq | hw
    · exact .queued hq
    · cases hheld
    · cases hr
    · cases heq
      exact .held rfl
    · exact .waiting hw
  | @release D q l x W k =>
    rcases hh with hq | hheld | ⟨hr, hmem⟩ | hw
    · rcases List.mem_cons.mp hq with rfl | hq
      · exact .releasing rfl List.mem_cons_self
      · exact .queued hq
    · cases hheld
    · cases hr
      exact .releasing rfl (List.mem_cons_of_mem _ hmem)
    · exact .waiting hw.1
  | _ =>
    rcases hh with hq | hheld | ⟨hr, _⟩ | hw
    · exact .queued hq
    · cases hheld
    · cases hr
    · exact .waiting hw

theorem Run.mem_of_holds (hrun : Run I ⟨D₀, [], .free, ∅⟩ l σ) (hh : Holds σ a) : a ∈ l := by
  induction hrun with
  | start =>
    rcases hh with hq | hheld | ⟨hr, _⟩ | hw
    · cases hq
    · cases hheld
    · cases hr
    · cases hw
  | @give l σ x _ ih =>
    rcases hh with hq | hheld | ⟨hr, hmem⟩ | hw
    · rcases List.mem_cons.mp hq with rfl | hq
      · exact List.mem_append_right _ List.mem_cons_self
      · exact List.mem_append_left _ (ih (.queued hq))
    · exact List.mem_append_left _ (ih (.held hheld))
    · exact List.mem_append_left _ (ih (.releasing hr hmem))
    · exact List.mem_append_left _ (ih (.waiting hw))
  | step _ hstep ih => exact ih (hstep.holds hh)

/-- Nothing that waits is mistaken for `a`. -/
def Clear (I : Items κ α) (σ : State κ α) (a : α) : Prop :=
  ∀ k x, (k, x) ∈ σ.waiting → I.key x = I.key a → x = a ∨ I.deps a ⊆ σ.done

theorem Clear.step (hap : Apart I D₀ l a) (hl : ∀ x, Holds σ x → x ∈ l) (hD : D₀ ⊆ σ.done)
    (hc : Clear I σ a) (hstep : Step I σ τ) : Clear I τ a := by
  cases hstep with
  | @wait D q x W k _ hdep hk =>
    rintro k' y (heq | hy) hkey
    · cases heq
      rcases hap x (hl x (.held rfl)) hkey with rfl | hsub | hsub
      · exact Or.inl rfl
      · exact absurd (hD (hsub hdep)) hk
      · exact Or.inr (hsub.trans hD)
    · exact hc k' y hy hkey
  | @accept D q l x W _ _ _ _ =>
    intro k y hy hkey
    exact (hc k y hy hkey).imp_right fun hsub => hsub.trans (Set.subset_insert _ _)
  | release =>
    intro k y hy hkey
    exact hc k y hy.1 hkey
  | _ => exact hc

/-- **A genuine item is not lost** by a step. -/
theorem Tracked.step (ha : a ∈ I.genuine) (hc : Clear I σ a) (ht : Tracked I σ a)
    (hstep : Step I σ τ) : Tracked I τ a := by
  rcases ht with hd | hh
  · exact Or.inl (hstep.done_subset hd)
  cases hstep with
  | @take D q x W =>
    right
    cases hh with
    | queued hq =>
      rcases List.mem_cons.mp hq with rfl | hq
      · exact .held rfl
      · exact .queued hq
    | waiting hw => exact .waiting hw
    | held hx => cases hx
    | releasing hx _ => cases hx
  | @old D q l x W hx hl =>
    cases hh with
    | queued hq => exact Or.inr (.queued hq)
    | held hheld =>
      cases hheld
      exact Or.inl hx
    | waiting hw => exact Or.inr (.waiting hw)
    | releasing hr _ => cases hr
  | @accept D q l x W hx _ _ hl =>
    cases hh with
    | queued hq => exact Or.inr (.queued hq)
    | held hheld =>
      cases hheld
      exact Or.inl (Set.mem_insert _ _)
    | waiting hw => exact Or.inr (.waiting hw)
    | releasing hr _ => cases hr
  | @wait D q x W k _ _ _ =>
    right
    cases hh with
    | queued hq => exact .queued hq
    | held hheld =>
      cases hheld
      exact .waiting (Set.mem_insert _ _)
    | waiting hw => exact .waiting (Set.mem_insert_of_mem _ hw)
    | releasing hr _ => cases hr
  | @duplicate D q x y W k _ hdep hk hy hkey =>
    right
    cases hh with
    | queued hq => exact .queued hq
    | held hheld =>
      cases hheld
      -- the one that waits is the item itself
      rcases hc k y hy hkey with rfl | hsub
      · exact .waiting hy
      · exact absurd (hsub hdep) hk
    | waiting hw => exact .waiting hw
    | releasing hr _ => cases hr
  | @drop D q x W hx _ =>
    right
    cases hh with
    | queued hq => exact .queued hq
    | held hheld =>
      cases hheld
      exact absurd ha hx
    | waiting hw => exact .waiting hw
    | releasing hr _ => cases hr
  | @release D q l x W k =>
    right
    by_cases hax : a = x
    · subst hax
      exact .queued List.mem_cons_self
    cases hh with
    | queued hq => exact .queued (List.mem_cons_of_mem _ hq)
    | held hheld => cases hheld
    | releasing hr hmem =>
      cases hr
      exact .releasing rfl (List.mem_of_ne_of_mem hax hmem)
    | waiting hw => exact .waiting ⟨hw, fun heq => hax (Prod.ext_iff.mp heq).2⟩
  | @finish D q W k =>
    right
    cases hh with
    | queued hq => exact .queued hq
    | held hheld => cases hheld
    | releasing hr hmem =>
      cases hr
      cases hmem
    | waiting hw => exact .waiting hw

theorem Run.clear (hrun : Run I ⟨D₀, [], .free, ∅⟩ l σ) (hap : Apart I D₀ l a) : Clear I σ a := by
  induction hrun with
  | start =>
    intro k x hx
    cases hx
  | give x _ ih => exact ih fun y hy => hap y (List.mem_append_left _ hy)
  | step hprev hstep ih =>
    exact (ih hap).step hap (fun x => hprev.mem_of_holds) hprev.done_subset hstep

theorem Run.tracked (hrun : Run I ⟨D₀, [], .free, ∅⟩ l σ) (hap : Apart I D₀ l a)
    (ha : a ∈ I.genuine) (hl : a ∈ l) : Tracked I σ a := by
  induction hrun with
  | start => cases hl
  | @give l σ x hprev ih =>
    rcases List.mem_append.mp hl with hl | hl
    · rcases ih (fun y hy => hap y (List.mem_append_left _ hy)) hl with hd | hh
      · exact Or.inl hd
      · right
        cases hh with
        | queued hq => exact .queued (List.mem_cons_of_mem _ hq)
        | held hheld => exact .held hheld
        | releasing hr hmem => exact .releasing hr hmem
        | waiting hw => exact .waiting hw
    · obtain rfl := List.mem_singleton.mp hl
      exact Or.inr (.queued List.mem_cons_self)
  | step hprev hstep ih => exact (ih hap hl).step ha (hprev.clear hap) hstep

/-! ## At rest everything is done -/

/-- What a genuine item depends on is in `D` or is the key of a genuine item of
lower rank. -/
def Closed (I : Items κ α) (D : Set κ) (rank : α → ℕ) : Prop :=
  ∀ a ∈ I.genuine, ∀ k ∈ I.deps a, k ∈ D ∨ ∃ g ∈ I.genuine, I.key g = k ∧ rank g < rank a

theorem done_of_tracked {rank : α → ℕ} (hinv : Inv I σ) (hrest : σ.AtRest)
    (hclosed : Closed I σ.done rank) (htr : ∀ a ∈ I.genuine, Tracked I σ a) :
    ∀ a ∈ I.genuine, I.key a ∈ σ.done := by
  have main : ∀ n, ∀ a ∈ I.genuine, rank a < n → I.key a ∈ σ.done := by
    intro n
    induction n with
    | zero =>
      intro a _ hn
      omega
    | succ n ih =>
      intro a ha hn
      rcases htr a ha with hd | hq | hh | ⟨hr, _⟩ | hw
      · exact hd
      · rw [hrest.1] at hq
        cases hq
      · cases hrest.2.symm.trans hh
      · cases hrest.2.symm.trans hr
      · -- it waits under a key that is missing, and that is done by now
        have hmissing := hinv.missing_at_rest hrest hw
        rcases hclosed a ha _ (hinv.needed _ _ hw) with hk | ⟨g, hg, rfl, hlt⟩
        · exact absurd hk hmissing
        · exact absurd (ih g hg (by omega)) hmissing
  intro a ha
  exact main (rank a + 1) a ha (Nat.lt_succ_self _)

/-- **At rest, everything is done.** If all genuine items have been given, none
of them is left on any list. -/
theorem Run.complete {rank : α → ℕ} (hrun : Run I ⟨D₀, [], .free, ∅⟩ l σ) (hrest : σ.AtRest)
    (hap : ∀ a ∈ I.genuine, Apart I D₀ l a) (hclosed : Closed I D₀ rank)
    (hall : ∀ a ∈ I.genuine, a ∈ l) :
    ∀ a ∈ I.genuine, I.key a ∈ σ.done ∧ ∀ k, (k, a) ∉ σ.waiting := by
  have hinv := hrun.inv (Inv.empty D₀)
  have hsub := hrun.done_subset
  have hdone := done_of_tracked hinv hrest
    (fun a ha k hk => (hclosed a ha k hk).imp_left fun h => hsub h)
    (fun a ha => hrun.tracked (hap a ha) ha (hall a ha))
  intro a ha
  refine ⟨hdone a ha, fun k hw => hinv.missing_at_rest hrest hw ?_⟩
  rcases hclosed a ha k (hinv.needed k a hw) with hk | ⟨g, hg, rfl, _⟩
  · exact hsub hk
  · exact hdone g hg

/-! ## Lost items -/

/-- **What is lost stays lost**, if nothing else may get done under its key. -/
theorem Lost.step (hsole : ∀ g ∈ I.genuine, I.key g = I.key a → g = a) (hl : Lost I σ a)
    (hstep : Step I σ τ) : Lost I τ a := by
  refine ⟨fun hd => ?_, fun hh => hl.2 (hstep.holds hh)⟩
  cases hstep with
  | @accept D q l x W hx _ _ _ =>
    rcases Set.mem_insert_iff.mp hd with heq | hd
    · obtain rfl := hsole x hx heq.symm
      exact hl.2 (.held rfl)
    · exact hl.1 hd
  | _ => exact hl.1 hd

end RaiBlocks.Foundation.Worklist
