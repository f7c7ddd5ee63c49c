import RaiBlocks.Node.DistributedWork

/-!
# Work from peers calls back once

The flag of a round is set once, by a handler with valid work or by the last handler that
fails. Who sets it calls the callback or hands over to the work pool or to an alarm, so at
any time exactly one of them is still to call the callback, or it has been called.

But a handler with valid work removes its peer first and sets the flag later. If the handler
of the last other peer fails in between, it finds the map empty and the flag clear: the round
fails, although valid work was there.
-/

namespace RaiBlocks

open Foundation DistributedWork WorkRound

namespace WorkRound

variable {α : Type} {c : DistributedConfig} {r : WorkRound α} {a : α}

/-! ## One round -/

/-- While the flag is clear: the peers in the map are those that have not answered, and some
handler is going to try the flag. -/
structure Open (r : WorkRound α) : Prop where
  outstanding : ∀ a, a ∈ r.outstanding ↔ r.exchanges a = .waiting
  running : ∀ a, r.exchanges a ≠ .stopping
  last : ∀ a, r.exchanges a = .failing true → ∀ b, r.exchanges b ≠ .waiting
  trying : ∃ a, r.exchanges a = .waiting ∨ r.exchanges a = .failing true ∨
    ∃ w, r.exchanges a = .settingOnce w
  inFlight : r.valid ≠ [] → ∃ a w, r.exchanges a = .settingOnce w
  called : r.called = []
  fallbacks : r.fallbacks = 0

/-- When it is set: the round has failed after all answers, or the callback was called. -/
def Settled (r : WorkRound α) : Prop :=
  (r.fallbacks = 1 ∧ r.called = [] ∧ ∀ a, r.exchanges a ≠ .waiting) ∨
    (r.fallbacks = 0 ∧ ∃ w ∈ r.valid, r.called = [w])

structure Inv (c : DistributedConfig) (r : WorkRound α) : Prop where
  isOpen : r.completed = false → r.Open
  settled : r.completed = true → r.Settled
  works : ∀ a w, r.exchanges a = .settingOnce w → w ∈ r.valid
  valid : ∀ w ∈ r.valid, c.workValidate c.root w = false

/-- While a peer has not answered, no round has failed. -/
theorem Inv.fallbacks_eq_zero (hr : r.Inv c) (ha : r.exchanges a = .waiting) :
    r.fallbacks = 0 := by
  cases hc : r.completed with
  | false => exact (hr.isOpen hc).fallbacks
  | true =>
    rcases hr.settled hc with ⟨-, -, hnone⟩ | ⟨h, -⟩
    · exact absurd ha (hnone a)
    · exact h

/-! ### Sound rounds -/

/-- All peers have answered and their handlers have ended. -/
def Finished (r : WorkRound α) : Prop :=
  ∀ a, r.exchanges a = .ended

/-- A round falls back at most once, after the last answer and only if no answer was valid.
At the end it has called the callback once with the work of an answer, or fallen back. -/
structure Sound (r : WorkRound α) : Prop where
  fallbacks_le : r.fallbacks ≤ 1
  fallback : r.fallbacks ≠ 0 → r.valid = [] ∧ ∀ a, r.exchanges a ≠ .waiting
  called : r.Finished → r.valid ≠ [] → ∃ w ∈ r.valid, r.called = [w]
  fallen : r.Finished → r.valid = [] → r.called = [] ∧ r.fallbacks = 1

/-- A round goes wrong only by falling back in spite of valid work. -/
theorem Inv.sound_iff (hr : r.Inv c) : r.Sound ↔ (r.fallbacks ≠ 0 → r.valid = []) := by
  refine ⟨fun h hf => (h.fallback hf).1, fun h => ?_⟩
  cases hc : r.completed with
  | false =>
    have hopen := hr.isOpen hc
    have hrunning : ¬ r.Finished := by
      intro hfinished
      obtain ⟨b, hb | hb | ⟨w, hb⟩⟩ := hopen.trying
      all_goals exact Exchange.noConfusion ((hfinished b).symm.trans hb)
    exact ⟨hopen.fallbacks.trans_le zero_le_one, fun hf => absurd hopen.fallbacks hf,
      fun hf => absurd hf hrunning, fun hf => absurd hf hrunning⟩
  | true =>
    rcases hr.settled hc with ⟨hone, hcalled, hnone⟩ | ⟨hzero, w, hw, hcalled⟩
    · have hvalid := h (hone.trans_ne one_ne_zero)
      exact ⟨hone.le, fun _ => ⟨hvalid, hnone⟩, fun _ hne => absurd hvalid hne,
        fun _ _ => ⟨hcalled, hone⟩⟩
    · exact ⟨hzero.trans_le zero_le_one, fun hf => absurd hzero hf, fun _ _ => ⟨w, hw, hcalled⟩,
        fun _ hnil => absurd hw (hnil ▸ List.not_mem_nil)⟩

/-- No handler is between an answer with valid work and the flag. -/
def Quiet (r : WorkRound α) : Prop :=
  ∀ b w, r.exchanges b ≠ .settingOnce w

theorem Inv.valid_eq_nil_iff (hr : r.Inv c) (hc : r.completed = false) :
    r.valid = [] ↔ r.Quiet := by
  constructor
  · intro hnil b w hb
    exact absurd (hr.works b w hb) (hnil ▸ List.not_mem_nil)
  · intro hquiet
    by_contra hvalid
    obtain ⟨b, w, hb⟩ := (hr.isOpen hc).inFlight hvalid
    exact hquiet b w hb

/-! ### Steps -/

/-- The effect of a failed round. -/
def fallback (c : DistributedConfig) (r : WorkRound α) : WorkEffect :=
  if c.localWork then .generate else .alarm (min (r.backoff * 2) (60 * 5))

/-- What is still to come of a round: one call or fallback while the flag is clear. -/
def owed (r : WorkRound α) : ℕ := if r.completed then 0 else 1

/-- While the flag is clear a call or a fallback is to come, and then it has come. -/
theorem Inv.owed_add (hr : r.Inv c) : r.owed + (r.fallbacks + r.called.length) = 1 := by
  cases hc : r.completed with
  | false =>
    have hopen := hr.isOpen hc
    rw [owed, hc, hopen.fallbacks, hopen.called]
    rfl
  | true =>
    rw [owed, hc]
    rcases hr.settled hc with ⟨hone, hcalled, -⟩ | ⟨hzero, w, -, hcalled⟩
    · rw [hone, hcalled]
      rfl
    · rw [hzero, hcalled]
      rfl

/-- A round `x.1` with the effect `x.2`, after one that owed `n` and had called the callback
with `called`. -/
structure Advances (c : DistributedConfig) (n : ℕ) (called : List Work)
    (x : WorkRound α × Option WorkEffect) : Prop where
  inv : x.1.Inv c
  owed : x.1.owed + x.2.toList.length = n
  called : ∀ w ∈ x.1.called, w ∈ called ∨ x.2 = some (.call w)
  calls : ∀ w, x.2 = some (.call w) → c.workValidate c.root w = false
  generate : x.2 = some .generate → c.localWork = true
  alarm : ∀ backoff, x.2 = some (.alarm backoff) → c.localWork = false

theorem fallback_eq_generate : fallback c r = .generate ↔ c.localWork = true := by
  unfold fallback
  cases c.localWork with
  | false => exact iff_of_false WorkEffect.noConfusion Bool.false_ne_true
  | true => exact iff_of_true rfl rfl

theorem fallback_ne_call (w : Work) : fallback c r ≠ .call w := by
  unfold fallback
  split_ifs with h
  · exact WorkEffect.noConfusion
  · exact WorkEffect.noConfusion

theorem localWork_of_fallback_eq_alarm {backoff : ℕ} (h : fallback c r = .alarm backoff) :
    c.localWork = false := by
  unfold fallback at h
  split_ifs at h with hl
  exact Bool.eq_false_iff.mpr hl

theorem advances_fallback {r' : WorkRound α} {called : List Work} (hinv : r'.Inv c)
    (hcompleted : r'.completed = true) (hcalled : r'.called ⊆ called) :
    Advances c 1 called (r', some (fallback c r)) := by
  refine ⟨hinv, ?_, fun w hw => Or.inl (hcalled hw), fun w hw => ?_, fun h => ?_, fun b hb => ?_⟩
  · rw [owed, if_pos hcompleted]
    rfl
  · exact absurd (Option.some.inj hw) (fallback_ne_call w)
  · exact fallback_eq_generate.mp (Option.some.inj h)
  · exact localWork_of_fallback_eq_alarm (Option.some.inj hb)

/-- A piece that does nothing outside keeps the counts. -/
theorem advances_none {r' : WorkRound α} {n : ℕ} {called : List Work} (hinv : r'.Inv c)
    (howed : r'.owed = n) (hcalled : r'.called ⊆ called) : Advances c n called (r', none) :=
  ⟨hinv, howed, fun _ hw => Or.inl (hcalled hw), fun _ hw => absurd hw.symm (Option.some_ne_none _),
    fun h => absurd h.symm (Option.some_ne_none _),
    fun _ hb => absurd hb.symm (Option.some_ne_none _)⟩

variable [DecidableEq α]

/-! ### The start -/

theorem exchanges_new (backoff : ℕ) (peers : Finset α) (a : α) :
    ((new backoff peers).exchanges a = .waiting ∧ a ∈ peers) ∨
      ((new backoff peers).exchanges a = .ended ∧ a ∉ peers) := by
  by_cases ha : a ∈ peers
  · exact Or.inl ⟨if_pos ha, ha⟩
  · exact Or.inr ⟨if_neg ha, ha⟩

theorem open_new (backoff : ℕ) {peers : Finset α} (h : peers ≠ ∅) : (new backoff peers).Open := by
  obtain ⟨a, ha⟩ := Finset.nonempty_iff_ne_empty.mpr h
  refine ⟨fun b => ?_, fun b hb => ?_, fun b hb => ?_, ⟨a, Or.inl (if_pos ha)⟩,
    fun hvalid => absurd rfl hvalid, rfl, rfl⟩
  · rcases exchanges_new backoff peers b with ⟨hb, hmem⟩ | ⟨hb, hmem⟩
    · exact iff_of_true hmem hb
    · rw [hb]
      exact iff_of_false hmem Exchange.noConfusion
  · rcases exchanges_new backoff peers b with ⟨hb', -⟩ | ⟨hb', -⟩
    · exact Exchange.noConfusion (hb'.symm.trans hb)
    · exact Exchange.noConfusion (hb'.symm.trans hb)
  · rcases exchanges_new backoff peers b with ⟨hb', -⟩ | ⟨hb', -⟩
    · exact Exchange.noConfusion (hb'.symm.trans hb)
    · exact Exchange.noConfusion (hb'.symm.trans hb)

theorem startWork_cases (backoff : ℕ) (peers : Finset α) :
    (peers ≠ ∅ ∧ startWork c backoff peers = (new backoff peers, none)) ∨
    (peers = ∅ ∧ startWork c backoff peers =
      ({ new backoff peers with completed := true, fallbacks := 1 },
        some (fallback c (new backoff peers)))) := by
  by_cases h : peers = ∅
  · exact Or.inr ⟨h, if_neg (not_not.mpr h)⟩
  · exact Or.inl ⟨h, if_pos h⟩

theorem advances_startWork (backoff : ℕ) (peers : Finset α) :
    Advances c 1 [] (startWork c backoff peers) := by
  have hworks : ∀ (b : α) (w : Work), (new backoff peers).exchanges b ≠ .settingOnce w := by
    intro b w hb
    rcases exchanges_new backoff peers b with ⟨hb', -⟩ | ⟨hb', -⟩
    · exact Exchange.noConfusion (hb'.symm.trans hb)
    · exact Exchange.noConfusion (hb'.symm.trans hb)
  rcases startWork_cases (c := c) backoff peers with ⟨h, heq⟩ | ⟨h, heq⟩
  · rw [heq]
    refine advances_none ?_ rfl (List.Subset.refl _)
    exact ⟨fun _ => open_new backoff h, fun hc => absurd hc Bool.false_ne_true,
      fun b w hb => absurd hb (hworks b w), fun w hw => absurd hw List.not_mem_nil⟩
  · rw [heq]
    refine advances_fallback ?_ rfl (List.Subset.refl _)
    refine ⟨fun hc => absurd hc.symm Bool.false_ne_true,
      fun _ => Or.inl ⟨rfl, rfl, fun b hb => ?_⟩,
      fun b w hb => absurd hb (hworks b w), fun w hw => absurd hw List.not_mem_nil⟩
    rcases exchanges_new backoff peers b with ⟨-, hmem⟩ | ⟨hb', -⟩
    · rw [h] at hmem
      exact Finset.notMem_empty b hmem
    · exact Exchange.noConfusion (hb'.symm.trans hb)

theorem valid_startWork (backoff : ℕ) (peers : Finset α) :
    (startWork c backoff peers).1.valid = [] := by
  rcases startWork_cases (c := c) backoff peers with ⟨-, heq⟩ | ⟨-, heq⟩ <;> rw [heq] <;> rfl

/-! ### Answers -/

/-- An answer removes its peer, and is valid work or a failure. -/
theorem receive_cases (a : α) (response : WorkResponse) :
    (∃ w, c.workValidate c.root w = false ∧
      r.receive c a response =
        { r with
          outstanding := r.outstanding.erase a
          exchanges := Function.update r.exchanges a (.settingOnce w)
          valid := r.valid ++ [w] }) ∨
    r.receive c a response =
      { r with
        outstanding := r.outstanding.erase a
        exchanges := Function.update r.exchanges a
          (.failing (decide (r.outstanding.erase a = ∅))) } := by
  unfold receive afterRemove
  rcases response with _ | _ | _ | _ | (_ | _ | w)
  case ok.work =>
    by_cases hw : c.workValidate c.root w = false
    · refine Or.inl ⟨w, hw, ?_⟩
      simp only [hw, Bool.not_false, if_true]
    · refine Or.inr ?_
      simp only [Bool.not_eq_false _ ▸ hw, Bool.not_true, Bool.false_eq_true, if_false]
  all_goals exact Or.inr rfl

/-- Where a handler is after that of `a` has gone on to `e`, it was before, unless it is at `e`. -/
theorem of_update {exchanges : α → Exchange} {b : α} {e x : Exchange}
    (h : Function.update exchanges a e b = x) (hne : e ≠ x) : exchanges b = x := by
  rcases eq_or_ne b a with rfl | hba
  · exact absurd ((Function.update_self ..).symm.trans h) hne
  · exact (Function.update_of_ne hba ..).symm.trans h

/-- The handler of `a` goes on, its peer is not in the map any more, and some handler is still
going to try the flag. -/
theorem Open.update (hr : r.Open) {outstanding : Finset α} {e : Exchange} {valid : List Work}
    (ho : ∀ b, b ∈ outstanding ↔ b ≠ a ∧ b ∈ r.outstanding) (hwaiting : e ≠ .waiting)
    (hstopping : e ≠ .stopping) (hlast : e = .failing true → outstanding = ∅)
    (htrying : ∃ b, Function.update r.exchanges a e b = .waiting ∨
      Function.update r.exchanges a e b = .failing true ∨
      ∃ w, Function.update r.exchanges a e b = .settingOnce w)
    (hvalid : valid ≠ [] → ∃ b w, Function.update r.exchanges a e b = .settingOnce w) :
    Open { r with
      outstanding := outstanding
      exchanges := Function.update r.exchanges a e
      valid := valid } := by
  have hmem : ∀ b, b ∈ outstanding ↔ Function.update r.exchanges a e b = .waiting := by
    intro b
    rcases eq_or_ne b a with rfl | hb
    · rw [Function.update_self]
      exact iff_of_false (fun hb => ((ho b).mp hb).1 rfl) hwaiting
    · rw [Function.update_of_ne hb, ho b, hr.outstanding b]
      exact and_iff_right hb
  refine ⟨hmem, fun b hb => ?_, fun b hb b' hb' => ?_, htrying, hvalid, hr.called, hr.fallbacks⟩
  · exact hr.running b (of_update hb hstopping)
  · -- who waits is in the map, now and before
    have hin := (hmem b').mpr hb'
    rcases eq_or_ne b a with rfl | hba
    · rw [hlast ((Function.update_self b e r.exchanges).symm.trans hb)] at hin
      exact Finset.notMem_empty b' hin
    · have hfailing := (Function.update_of_ne hba e r.exchanges).symm.trans hb
      exact hr.last b hfailing b' ((hr.outstanding b').mp ((ho b').mp hin).2)

theorem Inv.receive (hr : r.Inv c) (ha : r.exchanges a = .waiting) (response : WorkResponse) :
    (r.receive c a response).Inv c := by
  have herase : ∀ b, b ∈ r.outstanding.erase a ↔ b ≠ a ∧ b ∈ r.outstanding :=
    fun b => Finset.mem_erase
  rcases receive_cases (c := c) (r := r) a response with ⟨w, hw, heq⟩ | heq
  · rw [heq]
    have hself : Function.update r.exchanges a (.settingOnce w) a = .settingOnce w :=
      Function.update_self ..
    refine ⟨fun hc => ?_, fun hc => ?_, fun b w' hb => ?_, fun w' hw' => ?_⟩
    · exact (hr.isOpen hc).update herase Exchange.noConfusion Exchange.noConfusion
        (fun h => Exchange.noConfusion h) ⟨a, Or.inr (Or.inr ⟨w, hself⟩)⟩ (fun _ => ⟨a, w, hself⟩)
    · rcases hr.settled hc with ⟨-, -, hnone⟩ | ⟨hzero, w', hw', hcalled⟩
      · exact absurd ha (hnone a)
      · exact Or.inr ⟨hzero, w', List.mem_append_left _ hw', hcalled⟩
    · rcases eq_or_ne b a with rfl | hba
      · obtain rfl := Exchange.settingOnce.inj (hself.symm.trans hb)
        exact List.mem_append_right _ (List.mem_singleton_self w)
      · have hold := (Function.update_of_ne hba _ r.exchanges).symm.trans hb
        exact List.mem_append_left _ (hr.works b w' hold)
    · rcases List.mem_append.mp hw' with hold | hnew
      · exact hr.valid w' hold
      · rw [List.mem_singleton.mp hnew]
        exact hw
  · rw [heq]
    set last := decide (r.outstanding.erase a = ∅) with hlast
    have hself : Function.update r.exchanges a (.failing last) a = .failing last :=
      Function.update_self ..
    refine ⟨fun hc => ?_, fun hc => ?_, fun b w' hb => ?_, hr.valid⟩
    · refine (hr.isOpen hc).update herase Exchange.noConfusion Exchange.noConfusion
        (fun h => ?_) ?_ (fun hvalid => ?_)
      · exact of_decide_eq_true (Exchange.failing.inj h)
      · -- the last peer tries the flag; before it, another one is waiting
        by_cases hempty : r.outstanding.erase a = ∅
        · exact ⟨a, Or.inr (Or.inl (by rw [hself, hlast, decide_eq_true hempty]))⟩
        · obtain ⟨b, hb⟩ := Finset.nonempty_iff_ne_empty.mpr hempty
          obtain ⟨hba, hmem⟩ := (herase b).mp hb
          refine ⟨b, Or.inl ?_⟩
          rw [Function.update_of_ne hba]
          exact ((hr.isOpen hc).outstanding b).mp hmem
      · obtain ⟨b, w, hb⟩ := (hr.isOpen hc).inFlight hvalid
        have hba : b ≠ a := by
          rintro rfl
          exact Exchange.noConfusion (ha.symm.trans hb)
        exact ⟨b, w, (Function.update_of_ne hba ..).trans hb⟩
    · rcases hr.settled hc with ⟨-, -, hnone⟩ | hcalled
      · exact absurd ha (hnone a)
      · exact Or.inr hcalled
    · exact hr.works b w' (of_update hb Exchange.noConfusion)

/-! ### Handlers that go on -/

/-- A handler that finds the flag clear calls the callback or falls back. All others end
without an effect. -/
theorem proceed_cases (a : α) :
    (r.completed = false ∧ ∃ w, r.exchanges a = .settingOnce w ∧ r.proceed c a =
      ({ r with
        completed := true
        exchanges := Function.update r.exchanges a .stopping
        called := r.called ++ [w] }, some (.call w))) ∨
    (r.completed = false ∧ r.exchanges a = .failing true ∧ r.proceed c a =
      ({ r with
        completed := true
        exchanges := Function.update r.exchanges a .ended
        fallbacks := r.fallbacks + 1 }, some (fallback c r))) ∨
    ((r.exchanges a = .waiting ∨ r.exchanges a = .ended) ∧ r.proceed c a = (r, none)) ∨
    (r.exchanges a = .failing false ∧ r.proceed c a =
      ({ r with exchanges := Function.update r.exchanges a .ended }, none)) ∨
    ((r.exchanges a = .stopping ∨ r.completed = true) ∧
      ∃ outstanding e, (e = .stopping ∨ e = .ended) ∧ r.proceed c a =
        ({ r with
          outstanding := outstanding
          exchanges := Function.update r.exchanges a e }, none)) := by
  unfold proceed
  cases ha : r.exchanges a with
  | waiting => exact Or.inr (Or.inr (Or.inl ⟨Or.inl rfl, rfl⟩))
  | ended => exact Or.inr (Or.inr (Or.inl ⟨Or.inr rfl, rfl⟩))
  | stopping =>
    exact Or.inr (Or.inr (Or.inr (Or.inr ⟨Or.inl rfl, ∅, .ended, Or.inr rfl, rfl⟩)))
  | settingOnce w =>
    by_cases hc : r.completed = true
    · have hset : r.setOnce w = (r, none) := if_pos hc
      refine Or.inr (Or.inr (Or.inr (Or.inr ⟨Or.inr hc, r.outstanding, .stopping, Or.inl rfl, ?_⟩)))
      simp only [hset]
    · have hset : r.setOnce w =
          ({ r with completed := true, called := r.called ++ [w] }, some (.call w)) := if_neg hc
      refine Or.inl ⟨Bool.eq_false_iff.mpr hc, w, rfl, ?_⟩
      simp only [hset]
  | failing last =>
    cases last with
    | false => exact Or.inr (Or.inr (Or.inr (Or.inl ⟨rfl, rfl⟩)))
    | true =>
      by_cases hc : r.completed = true
      · have hfail : r.handleFailure c true = (r, none) := if_pos hc
        refine Or.inr (Or.inr (Or.inr (Or.inr ⟨Or.inr hc, r.outstanding, .ended, Or.inr rfl, ?_⟩)))
        simp only [hfail]
      · have hfail : r.handleFailure c true =
            ({ r with completed := true, fallbacks := r.fallbacks + 1 },
              some (fallback c r)) := if_neg hc
        refine Or.inr (Or.inl ⟨Bool.eq_false_iff.mpr hc, rfl, ?_⟩)
        simp only [hfail]

/-- The handler of `a` ends without an effect. -/
theorem Inv.pass (hr : r.Inv c) {outstanding : Finset α} {e : Exchange}
    (he : e = .stopping ∨ e = .ended)
    (hopen : r.completed = false → Open { r with
      outstanding := outstanding
      exchanges := Function.update r.exchanges a e }) :
    Inv c { r with
      outstanding := outstanding
      exchanges := Function.update r.exchanges a e } := by
  have hwaiting : e ≠ .waiting := by
    rcases he with rfl | rfl <;> exact Exchange.noConfusion
  have hsetting : ∀ w, e ≠ .settingOnce w := by
    rcases he with rfl | rfl <;> exact fun _ => Exchange.noConfusion
  refine ⟨hopen, fun hc => ?_, fun b w hb => hr.works b w (of_update hb (hsetting w)), hr.valid⟩
  rcases hr.settled hc with ⟨hone, hcalled, hnone⟩ | hcalled
  · exact Or.inl ⟨hone, hcalled, fun b hb => hnone b (of_update hb hwaiting)⟩
  · exact Or.inr hcalled

/-- A handler that fails before the last one leaves the others to try the flag. -/
theorem Open.fail (hr : r.Open) (ha : r.exchanges a = .failing false) :
    Open { r with exchanges := Function.update r.exchanges a .ended } := by
  have hne : ∀ {b : α} {e : Exchange}, r.exchanges b = e → e ≠ .failing false →
      Function.update r.exchanges a .ended b = e := by
    intro b e hb he
    have hba : b ≠ a := by
      rintro rfl
      exact he (hb.symm.trans ha)
    exact (Function.update_of_ne hba ..).trans hb
  have hout : a ∉ r.outstanding := by
    rw [hr.outstanding, ha]
    exact Exchange.noConfusion
  refine hr.update (fun b => ?_) Exchange.noConfusion Exchange.noConfusion
    (fun h => Exchange.noConfusion h) ?_ (fun hvalid => ?_)
  · exact (and_iff_right_of_imp fun hb => ne_of_mem_of_not_mem hb hout).symm
  · obtain ⟨b, hb | hb | ⟨w, hb⟩⟩ := hr.trying
    · exact ⟨b, Or.inl (hne hb Exchange.noConfusion)⟩
    · exact ⟨b, Or.inr (Or.inl (hne hb fun h => Bool.noConfusion (Exchange.failing.inj h)))⟩
    · exact ⟨b, Or.inr (Or.inr ⟨w, hne hb Exchange.noConfusion⟩)⟩
  · obtain ⟨b, w, hb⟩ := hr.inFlight hvalid
    exact ⟨b, w, hne hb Exchange.noConfusion⟩

theorem advances_proceed (hr : r.Inv c) (a : α) :
    Advances c r.owed r.called (r.proceed c a) := by
  rcases proceed_cases (c := c) (r := r) a with ⟨hc, w, ha, heq⟩ | ⟨hc, ha, heq⟩ | ⟨-, heq⟩ |
    ⟨ha, heq⟩ | ⟨h, outstanding, e, he, heq⟩
  · -- the callback is called
    have hopen := hr.isOpen hc
    rw [heq, owed, hc]
    refine ⟨⟨fun h => absurd h.symm Bool.false_ne_true, fun _ => Or.inr ⟨hopen.fallbacks, w,
      hr.works a w ha, ?_⟩, fun b w' hb => ?_, hr.valid⟩, rfl, fun w' hw' => ?_, fun w' hw' => ?_,
      fun h => ?_, fun b hb => ?_⟩
    · rw [hopen.called]
      rfl
    · exact hr.works b w' (of_update hb Exchange.noConfusion)
    · rcases List.mem_append.mp hw' with hold | hnew
      · exact Or.inl hold
      · rw [List.mem_singleton.mp hnew]
        exact Or.inr rfl
    · obtain rfl := WorkEffect.call.inj (Option.some.inj hw')
      exact hr.valid w (hr.works a w ha)
    · exact WorkEffect.noConfusion (Option.some.inj h)
    · exact WorkEffect.noConfusion (Option.some.inj hb)
  · -- the round fails
    have hopen := hr.isOpen hc
    rw [heq, owed, hc]
    refine advances_fallback ⟨fun h => absurd h.symm Bool.false_ne_true, fun _ => Or.inl ⟨?_,
      hopen.called, fun b hb => ?_⟩, fun b w hb => ?_, hr.valid⟩ rfl (List.Subset.refl _)
    · exact congrArg (· + 1) hopen.fallbacks
    · exact hopen.last a ha b (of_update hb Exchange.noConfusion)
    · exact hr.works b w (of_update hb Exchange.noConfusion)
  · rw [heq]
    exact advances_none hr rfl (List.Subset.refl _)
  · rw [heq]
    exact advances_none (hr.pass (Or.inr rfl) fun hc => (hr.isOpen hc).fail ha) rfl
      (List.Subset.refl _)
  · rw [heq]
    refine advances_none (hr.pass he fun hc => ?_) rfl (List.Subset.refl _)
    rcases h with ha | hcompleted
    · exact absurd ha ((hr.isOpen hc).running a)
    · exact absurd (hc.symm.trans hcompleted) Bool.false_ne_true

/-! ### When a round stays sound -/

/-- **What the last failing handler has to find.** -/
theorem Inv.sound_proceed_iff (hr : r.Inv c) (hs : r.Sound) (a : α) :
    ((r.proceed c a).1.Sound ∧ ((r.proceed c a).2 = some .generate → c.root ≠ 0)) ↔
      (r.exchanges a = .failing true → r.completed = false →
        r.Quiet ∧ (c.localWork = true → c.root ≠ 0)) := by
  rw [(advances_proceed hr a).inv.sound_iff]
  have hkept := hr.sound_iff.mp hs
  rcases proceed_cases (c := c) (r := r) a with ⟨hc, w, ha, heq⟩ | ⟨hc, ha, heq⟩ | ⟨ha, heq⟩ |
    ⟨ha, heq⟩ | ⟨h, outstanding, e, he, heq⟩
  · rw [heq, ha]
    exact iff_of_true ⟨hkept, fun h => WorkEffect.noConfusion (Option.some.inj h)⟩
      (fun h => Exchange.noConfusion h)
  · rw [heq]
    have hgenerate : some (fallback c r) = some .generate ↔ c.localWork = true :=
      (Option.some_inj).trans fallback_eq_generate
    rw [hgenerate, ← hr.valid_eq_nil_iff hc]
    constructor
    · rintro ⟨hvalid, hroot⟩ - -
      exact ⟨hvalid (Nat.succ_ne_zero _), hroot⟩
    · intro h
      obtain ⟨hvalid, hroot⟩ := h ha hc
      exact ⟨fun _ => hvalid, hroot⟩
  · rw [heq]
    refine iff_of_true ⟨hkept, fun h => absurd h.symm (Option.some_ne_none _)⟩ fun h => ?_
    rcases ha with ha | ha <;> exact Exchange.noConfusion (ha.symm.trans h)
  · rw [heq]
    refine iff_of_true ⟨hkept, fun h => absurd h.symm (Option.some_ne_none _)⟩ fun h => ?_
    exact Bool.noConfusion (Exchange.failing.inj (ha.symm.trans h))
  · rw [heq]
    refine iff_of_true ⟨hkept, fun h => absurd h.symm (Option.some_ne_none _)⟩ fun hf hc => ?_
    rcases h with ha | hcompleted
    · exact Exchange.noConfusion (ha.symm.trans hf)
    · exact absurd (hc.symm.trans hcompleted) Bool.false_ne_true

end WorkRound

/-! ## All rounds -/

namespace DistributedWork

variable {α : Type} {c : DistributedConfig} {s s' : DistributedWork α} {effect : Option WorkEffect}
  {r : WorkRound α} {rounds before after : List (WorkRound α)} {peers : Finset α}

/-- What the rounds have handed over. -/
def outside (s : DistributedWork α) : ℕ := s.generating + s.alarms.length + s.calls.length

structure Inv (c : DistributedConfig) (s : DistributedWork α) : Prop where
  rounds : ∀ r ∈ s.rounds, r.Inv c ∧ r.called ⊆ s.calls
  /-- The callback has been called, or there is one who is going to call it. -/
  one : (s.rounds.map owed).sum + s.outside = 1
  calls : ∀ w ∈ s.calls, c.workValidate c.root w = false
  alarms : c.localWork = true → s.alarms = []

/-- The callback is called at most once and with valid work, the rounds are sound, and every
fallback of a round is a request to the work pool, answered or not, or an alarm, for which
there may be a new round already. -/
structure Once (c : DistributedConfig) (s : DistributedWork α) : Prop where
  calls_le : s.calls.length ≤ 1
  calls_valid : ∀ w ∈ s.calls, c.workValidate c.root w = false
  called : ∀ r ∈ s.rounds, r.called ⊆ s.calls
  sound : ∀ r ∈ s.rounds, r.Sound
  handed : (s.rounds.map fun r => r.fallbacks + r.called.length).sum + 1 =
    s.rounds.length + s.generating + s.alarms.length + s.calls.length

theorem Inv.sum_owed_add (h : ∀ r ∈ rounds, r.Inv c) :
    (rounds.map owed).sum +
      (rounds.map fun r => r.fallbacks + r.called.length).sum = rounds.length := by
  induction rounds with
  | nil => rfl
  | cons r rounds ih =>
    have hr := (h r List.mem_cons_self).owed_add
    have hrest := ih fun r' hr' => h r' (List.mem_cons_of_mem r hr')
    simp only [List.map_cons, List.sum_cons, List.length_cons]
    omega

/-- All but the soundness of the rounds is an invariant. -/
theorem Inv.once_iff (hs : s.Inv c) : s.Once c ↔ ∀ r ∈ s.rounds, r.Sound := by
  refine ⟨Once.sound, fun h => ⟨?_, hs.calls, fun r hr => (hs.rounds r hr).2, h, ?_⟩⟩
  · have hone := hs.one
    rw [outside] at hone
    omega
  · have hone := hs.one
    have hsum := sum_owed_add fun r hr => (hs.rounds r hr).1
    rw [outside] at hone
    omega

/-! ### Effects -/

structure Performed (s : DistributedWork α) (effect : Option WorkEffect)
    (s' : DistributedWork α) : Prop where
  rounds : s'.rounds = s.rounds
  outside : s'.outside = s.outside + effect.toList.length
  calls : ∀ w, w ∈ s'.calls ↔ w ∈ s.calls ∨ effect = some (.call w)
  alarms : ∀ backoff ∈ s'.alarms, backoff ∈ s.alarms ∨ effect = some (.alarm backoff)

theorem performed (h : perform c s effect = .ok s') : Performed s effect s' := by
  rcases effect with _ | (w | _ | backoff)
  · obtain rfl := Except.ok.inj h
    exact ⟨rfl, rfl, fun w => (or_iff_left (Option.some_ne_none _).symm).symm, fun _ => Or.inl⟩
  · obtain rfl := Except.ok.inj h
    refine ⟨rfl, ?_, fun w' => ?_, fun _ => Or.inl⟩
    · simp only [outside, List.length_append, List.length_singleton, Option.toList_some]
      omega
    · rw [List.mem_append, List.mem_singleton, Option.some_inj, WorkEffect.call.injEq,
        eq_comm (a := w)]
  · obtain ⟨u, -, h⟩ := bind_eq_ok h
    obtain rfl := Except.ok.inj h
    refine ⟨rfl, ?_, fun w => ?_, fun _ => Or.inl⟩
    · simp only [outside, List.length_singleton, Option.toList_some]
      omega
    · exact (or_iff_left fun h => WorkEffect.noConfusion (Option.some.inj h)).symm
  · obtain rfl := Except.ok.inj h
    refine ⟨rfl, ?_, fun w => ?_, fun b hb => ?_⟩
    · simp only [outside, List.length_append, List.length_singleton, Option.toList_some]
      omega
    · exact (or_iff_left fun h => WorkEffect.noConfusion (Option.some.inj h)).symm
    · rcases List.mem_append.mp hb with hold | hnew
      · exact Or.inl hold
      · rw [List.mem_singleton.mp hnew]
        exact Or.inr rfl

theorem exists_perform :
    (∃ s', perform c s effect = .ok s') ↔ (effect = some .generate → c.root ≠ 0) := by
  rcases effect with _ | (w | _ | backoff)
  · exact iff_of_true ⟨s, rfl⟩ fun h => absurd h.symm (Option.some_ne_none _)
  · exact iff_of_true ⟨_, rfl⟩ fun h => WorkEffect.noConfusion (Option.some.inj h)
  · constructor
    · rintro ⟨s', h⟩ -
      obtain ⟨u, hu, -⟩ := bind_eq_ok h
      exact of_decide_eq_true (of_assertThat hu)
    · intro h
      refine ⟨{ s with generating := s.generating + 1 }, ?_⟩
      rw [perform, decide_eq_true (h rfl)]
      rfl
  · exact iff_of_true ⟨_, rfl⟩ fun h => WorkEffect.noConfusion (Option.some.inj h)

theorem Inv.perform {x : WorkRound α × Option WorkEffect} {n : ℕ} {called : List Work}
    (hx : Advances c n called x)
    (hs' : perform c s x.2 = .ok s')
    (hrounds : ∀ r ∈ s.rounds, r = x.1 ∨ r.Inv c ∧ r.called ⊆ s.calls)
    (hone : (s.rounds.map owed).sum + s.outside + x.2.toList.length = 1)
    (hcalled : called ⊆ s.calls) (hcalls : ∀ w ∈ s.calls, c.workValidate c.root w = false)
    (halarms : c.localWork = true → s.alarms = []) : s'.Inv c := by
  have hp := performed hs'
  refine ⟨fun r hr => ?_, ?_, fun w hw => ?_, fun hlocal => ?_⟩
  · rw [hp.rounds] at hr
    rcases hrounds r hr with rfl | ⟨hinv, hsub⟩
    · refine ⟨hx.inv, fun w hw => (hp.calls w).mpr ?_⟩
      exact (hx.called w hw).imp_left fun h => hcalled h
    · exact ⟨hinv, fun w hw => (hp.calls w).mpr (Or.inl (hsub hw))⟩
  · rw [hp.rounds, hp.outside]
    omega
  · rcases (hp.calls w).mp hw with hold | hnew
    · exact hcalls w hold
    · exact hx.calls w hnew
  · refine List.eq_nil_iff_forall_not_mem.mpr fun b hb => ?_
    rcases hp.alarms b hb with hold | hnew
    · rw [halarms hlocal] at hold
      exact List.not_mem_nil hold
    · exact absurd (hlocal.symm.trans (hx.alarm b hnew)) Bool.noConfusion

/-! ### Moves -/

theorem exists_split {i : ℕ} (h : rounds[i]? = some r) (r' : WorkRound α) :
    ∃ before after, rounds = before ++ r :: after ∧ rounds.set i r' = before ++ r' :: after := by
  obtain ⟨hi, rfl⟩ := List.getElem?_eq_some_iff.mp h
  obtain ⟨before, after, heq, -, hset⟩ : ∃ before after, rounds = before ++ rounds[i] :: after ∧
      before.length = i ∧ rounds.set i r' = before ++ r' :: after := List.exists_of_set hi
  exact ⟨before, after, heq, hset⟩

theorem Inv.replaced (hs : s.Inv c) (heq : s.rounds = before ++ r :: after) (r' : WorkRound α) :
    (∀ q ∈ before ++ r' :: after, q = r' ∨ q.Inv c ∧ q.called ⊆ s.calls) ∧
      ((before ++ r' :: after).map owed).sum + r.owed + s.outside = 1 + r'.owed := by
  have hone := hs.one
  have hrounds := hs.rounds
  rw [heq] at hone hrounds
  constructor
  · intro q hq
    rcases List.mem_append.mp hq with hq | hq
    · exact Or.inr (hrounds q (List.mem_append_left _ hq))
    · rcases List.mem_cons.mp hq with rfl | hq
      · exact Or.inl rfl
      · exact Or.inr (hrounds q (List.mem_append_right _ (List.mem_cons_of_mem r hq)))
  · simp only [List.map_append, List.map_cons, List.sum_append, List.sum_cons] at hone ⊢
    omega

/-- All rounds are sound if those are that did not change and the one that did. -/
theorem sound_replaced {r' : WorkRound α} (h : ∀ q ∈ before ++ r :: after, q.Sound) :
    (∀ q ∈ before ++ r' :: after, q.Sound) ↔ r'.Sound := by
  refine ⟨fun h' => h' r' (List.mem_append_right _ List.mem_cons_self), fun hr' q hq => ?_⟩
  rcases List.mem_append.mp hq with hq | hq
  · exact h q (List.mem_append_left _ hq)
  · rcases List.mem_cons.mp hq with rfl | hq
    · exact hr'
    · exact h q (List.mem_append_right _ (List.mem_cons_of_mem r hq))

theorem exists_perform_sound :
    (∃ s', perform c s effect = .ok s' ∧ ∀ r ∈ s'.rounds, r.Sound) ↔
      (effect = some .generate → c.root ≠ 0) ∧ ∀ r ∈ s.rounds, r.Sound := by
  rw [← exists_perform (s := s), exists_and_right.symm]
  exact exists_congr fun s' => and_congr_right fun h => by rw [(performed h).rounds]

variable [DecidableEq α]

theorem inv_workGenerate (h : workGenerate c peers = .ok s) : s.Inv c := by
  have hx := advances_startWork (c := c) 1 peers
  refine Inv.perform hx h (fun r hr => Or.inl (List.mem_singleton.mp hr)) ?_
    (List.Subset.refl _) (fun w hw => absurd hw List.not_mem_nil) (fun _ => rfl)
  have howed := hx.owed
  simpa [outside] using howed

/-- A move does nothing, or an answer comes in, a handler goes on, the work pool answers or an
alarm goes off. -/
theorem apply_cases (s : DistributedWork α) (move : Move α) :
    (apply c s move = .ok s ∧ ∀ i a, move = .proceed i a → s.rounds[i]? = none) ∨
    (∃ i a response before r after, move = .answer i a response ∧
      s.rounds = before ++ r :: after ∧ r.exchanges a = .waiting ∧
      apply c s move = .ok { s with rounds := before ++ r.receive c a response :: after }) ∨
    (∃ i a before r after, move = .proceed i a ∧ s.rounds[i]? = some r ∧
      s.rounds = before ++ r :: after ∧
      apply c s move =
        perform c { s with rounds := before ++ (r.proceed c a).1 :: after } (r.proceed c a).2) ∨
    (∃ work, move = .generated work ∧ s.generating ≠ 0 ∧ c.workValidate c.root work = false ∧
      apply c s move = .ok { s with generating := s.generating - 1, calls := s.calls ++ [work] }) ∨
    (∃ peers backoff alarms, move = .alarm peers ∧ s.alarms = backoff :: alarms ∧
      apply c s move =
        perform c { s with
            rounds := s.rounds ++ [(startWork c backoff peers).1]
            alarms := alarms }
          (startWork c backoff peers).2) := by
  cases move with
  | answer i a response =>
    cases hr : s.rounds[i]? with
    | none =>
      exact Or.inl ⟨by simp only [apply, hr], fun i a h => Move.noConfusion rfl (heq_of_eq h)⟩
    | some r =>
      by_cases ha : r.exchanges a = .waiting
      · obtain ⟨before, after, heq, hset⟩ := exists_split hr (r.receive c a response)
        refine Or.inr (Or.inl ⟨i, a, response, before, r, after, rfl, heq, ha, ?_⟩)
        simp only [apply, hr, if_pos ha, hset]
      · exact Or.inl ⟨by simp only [apply, hr, if_neg ha],
          fun i a h => Move.noConfusion rfl (heq_of_eq h)⟩
  | proceed i a =>
    cases hr : s.rounds[i]? with
    | none =>
      refine Or.inl ⟨by simp only [apply, hr], fun i' a' h => ?_⟩
      obtain ⟨rfl, -⟩ := Move.proceed.inj h
      exact hr
    | some r =>
      obtain ⟨before, after, heq, hset⟩ := exists_split hr (r.proceed c a).1
      refine Or.inr (Or.inr (Or.inl ⟨i, a, before, r, after, rfl, hr, heq, ?_⟩))
      simp only [apply, hr, hset]
  | generated work =>
    by_cases h : s.generating ≠ 0 ∧ c.workValidate c.root work = false
    · exact Or.inr (Or.inr (Or.inr (Or.inl ⟨work, rfl, h.1, h.2, if_pos h⟩)))
    · exact Or.inl ⟨if_neg h, fun i a h => Move.noConfusion rfl (heq_of_eq h)⟩
  | alarm peers =>
    cases ha : s.alarms with
    | nil =>
      exact Or.inl ⟨by simp only [apply, ha], fun i a h => Move.noConfusion rfl (heq_of_eq h)⟩
    | cons backoff alarms =>
      refine Or.inr (Or.inr (Or.inr (Or.inr ⟨peers, backoff, alarms, rfl, rfl, ?_⟩)))
      simp only [apply, ha]

/-- **One move keeps the invariant.** -/
theorem inv_apply (s : DistributedWork α) (move : Move α) (s' : DistributedWork α)
    (hs : s.Inv c) (h : apply c s move = .ok s') : s'.Inv c := by
  rcases apply_cases (c := c) s move with ⟨heq, -⟩ |
    ⟨i, a, response, before, r, after, -, hsplit, ha, heq⟩ |
    ⟨i, a, before, r, after, -, -, hsplit, heq⟩ | ⟨work, -, hgenerating, hvalid, heq⟩ |
    ⟨peers, backoff, alarms, -, halarms, heq⟩
  · obtain rfl := Except.ok.inj (heq.symm.trans h)
    exact hs
  · obtain rfl := Except.ok.inj (heq.symm.trans h)
    obtain ⟨hinv, hsub⟩ := hs.rounds r (hsplit ▸ List.mem_append_right _ List.mem_cons_self)
    obtain ⟨hrounds, hone⟩ := hs.replaced hsplit (r.receive c a response)
    refine ⟨fun q hq => ?_, Nat.add_right_cancel ((Nat.add_right_comm ..).trans hone),
      hs.calls, hs.alarms⟩
    rcases hrounds q hq with rfl | hq
    · exact ⟨hinv.receive ha response, hsub⟩
    · exact hq
  · obtain ⟨hinv, hsub⟩ := hs.rounds r (hsplit ▸ List.mem_append_right _ List.mem_cons_self)
    obtain ⟨hrounds, hone⟩ := hs.replaced hsplit (r.proceed c a).1
    have hx := advances_proceed hinv a
    refine Inv.perform hx (heq.symm.trans h) hrounds ?_ hsub hs.calls hs.alarms
    have howed := hx.owed
    simp only [outside] at hone ⊢
    omega
  · obtain rfl := Except.ok.inj (heq.symm.trans h)
    refine ⟨fun r hr => ?_, ?_, fun w hw => ?_, hs.alarms⟩
    · obtain ⟨hinv, hsub⟩ := hs.rounds r hr
      exact ⟨hinv, fun w hw => List.mem_append_left _ (hsub hw)⟩
    · have hone := hs.one
      simp only [outside, List.length_append, List.length_singleton] at hone ⊢
      omega
    · rcases List.mem_append.mp hw with hold | hnew
      · exact hs.calls w hold
      · rw [List.mem_singleton.mp hnew]
        exact hvalid
  · have hx := advances_startWork (c := c) backoff peers
    refine Inv.perform hx (heq.symm.trans h) (fun r hr => ?_) ?_ (List.nil_subset _) hs.calls
      fun hlocal => ?_
    · rcases List.mem_append.mp hr with hold | hnew
      · exact Or.inr (hs.rounds r hold)
      · exact Or.inl (List.mem_singleton.mp hnew)
    · have hone := hs.one
      have howed := hx.owed
      simp only [outside, halarms, List.length_cons, List.map_append, List.map_singleton,
        List.sum_append, List.sum_singleton] at hone ⊢
      omega
    · exact absurd (halarms.symm.trans (hs.alarms hlocal)) (List.cons_ne_nil _ _)

/-! ### When the callback is called once -/

/-- A handler that fails as the last one and finds the flag clear must not overtake one that
has valid work and is about to set the flag. The work pool takes no root 0. -/
def Allowed (c : DistributedConfig) (s : DistributedWork α) : Move α → Prop
  | .proceed i a => ∀ r, s.rounds[i]? = some r → r.exchanges a = .failing true →
      r.completed = false → r.Quiet ∧ (c.localWork = true → c.root ≠ 0)
  | _ => True

/-- **What each move needs.** -/
theorem allowed_iff (s : DistributedWork α) (move : Move α) (hs : s.Inv c) (honce : s.Once c) :
    Allowed c s move ↔ ∃ s', apply c s move = .ok s' ∧ s'.Once c := by
  -- the new state satisfies the invariant, so that only its rounds matter
  have hiff : (∃ s', apply c s move = .ok s' ∧ s'.Once c) ↔
      ∃ s', apply c s move = .ok s' ∧ ∀ r ∈ s'.rounds, r.Sound :=
    exists_congr fun s' => and_congr_right fun h => (inv_apply s move s' hs h).once_iff
  rw [hiff]
  have hsound := honce.sound
  rcases apply_cases (c := c) s move with ⟨heq, hnone⟩ |
    ⟨i, a, response, before, r, after, rfl, hsplit, ha, heq⟩ |
    ⟨i, a, before, r, after, rfl, hr, hsplit, heq⟩ | ⟨work, rfl, -, -, heq⟩ |
    ⟨peers, backoff, alarms, rfl, halarms, heq⟩
  · refine iff_of_true ?_ ⟨s, heq, hsound⟩
    cases move with
    | proceed i a =>
      intro r hr
      exact absurd (hr.symm.trans (hnone i a rfl)) (Option.some_ne_none r)
    | answer | generated | alarm => trivial
  · refine iff_of_true trivial ⟨_, heq, ?_⟩
    rw [hsplit] at hsound
    have hinv := (hs.rounds r (hsplit ▸ List.mem_append_right _ List.mem_cons_self)).1
    refine (sound_replaced hsound).mpr ((hinv.receive ha response).sound_iff.mpr fun hf => ?_)
    exact absurd (hinv.fallbacks_eq_zero ha) hf
  · rw [heq, exists_perform_sound]
    rw [hsplit] at hsound
    have hmem : r ∈ before ++ r :: after := List.mem_append_right _ List.mem_cons_self
    have hinv := (hs.rounds r (hsplit ▸ hmem)).1
    rw [sound_replaced hsound, and_comm, hinv.sound_proceed_iff (hsound r hmem) a]
    refine ⟨fun h => h r hr, fun h r' hr' => ?_⟩
    obtain rfl := Option.some.inj (hr.symm.trans hr')
    exact h
  · exact iff_of_true trivial ⟨_, heq, hsound⟩
  · rw [heq, exists_perform_sound]
    have hx := advances_startWork (c := c) backoff peers
    refine iff_of_true trivial ⟨fun hgenerate => ?_, fun r hr => ?_⟩
    · -- there are alarms only without the work pool
      have hnil := hs.alarms (hx.generate hgenerate)
      exact absurd (halarms.symm.trans hnil) (List.cons_ne_nil _ _)
    · rcases List.mem_append.mp hr with hold | hnew
      · exact hsound r hold
      · rw [List.mem_singleton.mp hnew]
        exact hx.inv.sound_iff.mpr fun _ => valid_startWork backoff peers

theorem workGenerate_ok_iff (peers : Finset α) :
    (∃ s, workGenerate c peers = .ok s) ↔ (peers = ∅ → c.localWork = true → c.root ≠ 0) := by
  rw [workGenerate, exists_perform]
  rcases startWork_cases (c := c) 1 peers with ⟨h, heq⟩ | ⟨h, heq⟩
  · rw [heq]
    exact iff_of_true (fun hg => absurd hg.symm (Option.some_ne_none _))
      (fun hempty => absurd hempty h)
  · rw [heq, Option.some_inj, fallback_eq_generate]
    exact ⟨fun hroot _ => hroot, fun hroot => hroot h⟩

theorem once_workGenerate (h : workGenerate c peers = .ok s) : s.Once c := by
  refine (inv_workGenerate h).once_iff.mpr fun r hr => ?_
  rw [(performed h).rounds, List.mem_singleton] at hr
  rw [hr]
  refine (advances_startWork 1 peers).inv.sound_iff.mpr fun _ => ?_
  exact valid_startWork 1 peers

end DistributedWork

/-- **When distributed work calls back once.** For any peers and any interleaving of their
answers and handlers, of the work pool and of later rounds: nothing fails and the callback is
called at most once over all rounds, with valid work, every round calls it if an answer was
valid and falls back once otherwise, exactly if no handler that fails as the last one of a
round overtakes a handler with valid work, and the root is not 0 where the work pool is
asked. -/
theorem distributed_work_once_iff {α : Type} [DecidableEq α] (c : DistributedConfig)
    (peers : Finset α) (moves : List (Move α)) :
    (∃ s, workGenerate c peers = .ok s ∧ (∃ t, Machine.run (apply c) s moves = .ok t) ∧
      Machine.Always (apply c) (Once c) s moves) ↔
    (peers = ∅ → c.localWork = true → c.root ≠ 0) ∧
      ∀ s, workGenerate c peers = .ok s →
        Machine.Guarded (apply c) (Allowed c) s moves := by
  have hrun : ∀ s, workGenerate c peers = .ok s → _ := fun s hs =>
    Machine.run_always_iff_guarded inv_apply allowed_iff
      (inv_workGenerate hs) (once_workGenerate hs) moves
  rw [← workGenerate_ok_iff]
  constructor
  · rintro ⟨s, hs, hall⟩
    refine ⟨⟨s, hs⟩, fun s' hs' => ?_⟩
    obtain rfl := Except.ok.inj (hs.symm.trans hs')
    exact (hrun s hs).mp hall
  · rintro ⟨⟨s, hs⟩, hguarded⟩
    exact ⟨s, hs, (hrun s hs).mpr (hguarded s hs)⟩

namespace WorkPeers

/-- A node without work threads. All work passes. -/
def config : DistributedConfig where
  toNodeEnv := ⟨⟨fun _ => 0, fun _ _ _ => false, .raiTestNetwork, false⟩,
    fun _ _ => BitVec.allOnes 64⟩
  root := 1
  localWork := false

/-- The first of two peers answers with valid work. Before its handler sets the flag, the
other one fails and falls back. -/
def overtaking : List (Move Bool) :=
  [.answer 0 true (.ok (.work 7)), .answer 0 false .connectError, .proceed 0 false,
    .proceed 0 true, .proceed 0 true]

/-- The same answers, but the handler of the valid work goes on first. -/
def orderly : List (Move Bool) :=
  [.answer 0 true (.ok (.work 7)), .answer 0 false .connectError, .proceed 0 true,
    .proceed 0 true, .proceed 0 false]

end WorkPeers

/-- Valid work is thrown away: the round has ended with it, but the callback was not called and
a new round is to start in its place. -/
theorem valid_work_overtaken : ∃ s t r, workGenerate WorkPeers.config Finset.univ = .ok s ∧
    Machine.run (apply WorkPeers.config) s WorkPeers.overtaking = .ok t ∧
    t.rounds = [r] ∧ r.Finished ∧ r.valid = [7] ∧ r.called = [] ∧ t.calls = [] ∧
    t.alarms = [2] := by
  refine ⟨_, _, _, rfl, rfl, rfl, fun a => ?_, rfl, rfl, rfl, rfl⟩
  cases a <;> rfl

/-- The peer that fails as the last one finds the flag set. -/
theorem distributed_work_once_iff_orderly : ∃ s t,
    workGenerate WorkPeers.config Finset.univ = .ok s ∧
    Machine.run (apply WorkPeers.config) s WorkPeers.orderly = .ok t ∧
    t.calls = [7] ∧ t.alarms = [] ∧
    Machine.Always (apply WorkPeers.config)
      (Once WorkPeers.config) s WorkPeers.orderly := by
  have hguarded : ∀ s, workGenerate WorkPeers.config (Finset.univ : Finset Bool) =
      .ok s → Machine.Guarded (apply WorkPeers.config)
        (Allowed WorkPeers.config) s WorkPeers.orderly := by
    intro s hs
    obtain rfl := Except.ok.inj hs
    refine ⟨trivial, fun s₁ h₁ => ⟨trivial, fun s₂ h₂ => ⟨fun r hr hfailing => ?_, fun s₃ h₃ =>
      ⟨fun r hr hfailing => ?_, fun s₄ h₄ => ⟨fun r hr _ hclear => ?_, fun _ _ => trivial⟩⟩⟩⟩⟩
    · obtain rfl := Except.ok.inj h₁
      obtain rfl := Except.ok.inj h₂
      obtain rfl := Option.some.inj hr
      exact Exchange.noConfusion hfailing
    · obtain rfl := Except.ok.inj h₁
      obtain rfl := Except.ok.inj h₂
      obtain rfl := Except.ok.inj h₃
      obtain rfl := Option.some.inj hr
      exact Exchange.noConfusion hfailing
    · obtain rfl := Except.ok.inj h₁
      obtain rfl := Except.ok.inj h₂
      obtain rfl := Except.ok.inj h₃
      obtain rfl := Except.ok.inj h₄
      obtain rfl := Option.some.inj hr
      cases hclear
  have hne : (Finset.univ : Finset Bool) ≠ ∅ := Finset.univ_nonempty.ne_empty
  obtain ⟨s, hs, ⟨t, hrun⟩, halways⟩ := (distributed_work_once_iff WorkPeers.config Finset.univ
    WorkPeers.orderly).mpr ⟨fun h => absurd h hne, hguarded⟩
  obtain rfl := Except.ok.inj hs
  obtain rfl := Except.ok.inj hrun
  exact ⟨_, _, rfl, rfl, rfl, rfl, halways⟩

end RaiBlocks
