import RaiBlocks.Bootstrap.Attempt
import RaiBlocks.Foundation.Lists

/-!
# Pulls that are outstanding when an attempt ends

`still_pulling` looks at the queue and at the counter of live clients. A pull that
has left the queue and whose client is not constructed yet is in neither, so the
loops of `run` can end while a task waits. Where no such task waits at the last
test, every pull has been dealt with.
-/

namespace RaiBlocks

open Foundation Bootstrap

namespace BootstrapAttempt

variable {a a' : BootstrapAttempt}

/-- No pull is queued, and every pull that was taken has had its client constructed
and destroyed. -/
def Settled (a : BootstrapAttempt) : Prop :=
  a.pulls = [] ∧ ∀ t < a.taken, t ∈ a.created ∧ t ∈ a.destroyed

/-- When the outer loop is about to end, no task of `request_pull` waits and the
counter of clients has not wrapped. -/
def Prompt (a : BootstrapAttempt) : Move → Prop
  | .run _ => a.position = .outerLoop → a.stillPulling = false →
      (∀ task ∈ a.tasks, task.ticket = none) ∧ a.clients.length < 2 ^ 32
  | _ => True

instance decidablePrompt : ∀ a m, Decidable (Prompt a m)
  | a, .run _ => inferInstanceAs (Decidable (a.position = .outerLoop → a.stillPulling = false →
      (∀ task ∈ a.tasks, task.ticket = none) ∧ a.clients.length < 2 ^ 32))
  | _, .stop | _, .addPull _ | _, .poolConnection | _, .construct _ | _, .close ..
  | _, .destroy _ =>
    .isTrue trivial

/-! ## Where pulls are -/

/-- Every pull taken waits for a thread, has a live client or is done with. -/
structure Accounted (a : BootstrapAttempt) : Prop where
  pulling : a.pulling = BitVec.ofNat 32 a.clients.length
  tickets : ∀ t < a.taken, some t ∈ a.tasks.map Task.ticket ∨
    (t ∈ a.created ∧ (some t ∈ a.clients.map Client.ticket ∨ t ∈ a.destroyed))

/-- Nothing changes for the pulls that were taken. -/
structure SameBooks (a a' : BootstrapAttempt) : Prop where
  pulling : a'.pulling = a.pulling
  tasks : a'.tasks = a.tasks
  clients : a'.clients = a.clients
  taken : a'.taken = a.taken
  created : a'.created = a.created
  destroyed : a'.destroyed = a.destroyed
  completed : a'.pullCompleted = a.pullCompleted

theorem SameBooks.accounted (hs : SameBooks a a') (h : Accounted a) : Accounted a' := by
  constructor
  · rw [hs.pulling, hs.clients, h.pulling]
  · intro t ht
    rw [hs.taken] at ht
    rw [hs.tasks, hs.clients, hs.created, hs.destroyed]
    exact h.tickets t ht

/-! ## Steps of the run thread -/

/-- What the thread in `run` can do. -/
inductive Ran (a a' : BootstrapAttempt) : Prop
  | moved (books : SameBooks a a')
  | took (pull : PullInfo) (pulls : List PullInfo) (eq : a' = a.take pull pulls)
  | ended (position : a.position = .outerLoop) (test : a.stillPulling = false)
      (eq : a' = { a with position := .finished, pullCompleted := !a.stopped })

theorem ran_requestFrontier (a : BootstrapAttempt) : Ran a a.requestFrontier := by
  unfold requestFrontier
  split <;> exact .moved ⟨rfl, rfl, rfl, rfl, rfl, rfl, rfl⟩

theorem ran_enterLoops (a : BootstrapAttempt) (draws : ℕ → ℕ) : Ran a (a.enterLoops draws) :=
  .moved ⟨rfl, rfl, rfl, rfl, rfl, rfl, rfl⟩

theorem ran_position (a : BootstrapAttempt) (position : Position) : Ran a { a with position } :=
  .moved ⟨rfl, rfl, rfl, rfl, rfl, rfl, rfl⟩

theorem ran_requestPull (h : a.requestPull = .ok a') : Ran a a' := by
  unfold requestPull at h
  split at h
  · obtain rfl := Except.ok.inj h
    exact ran_position a _
  · obtain rfl := Except.ok.inj h
    exact ran_position a _
  · split at h
    · cases h
    · obtain rfl := Except.ok.inj h
      exact .took _ _ rfl

theorem ran_run {i : RunInput} (h : a.run i = .ok a') : Ran a a' := by
  unfold run at h
  split at h
  · -- the loop around `request_frontier`
    obtain rfl := Except.ok.inj h
    split
    · exact ran_enterLoops a _
    · exact ran_requestFrontier a
  · obtain rfl := Except.ok.inj h
    exact ran_requestFrontier a
  · split at h
    · obtain rfl := Except.ok.inj h
      exact .moved ⟨rfl, rfl, rfl, rfl, rfl, rfl, rfl⟩
    · obtain rfl := Except.ok.inj h
      exact ran_enterLoops a _
  · -- the test of the outer loop
    rename_i hposition
    split at h
    · obtain rfl := Except.ok.inj h
      exact ran_position a _
    · rename_i htest
      exact .ended hposition (Bool.not_eq_true _ ▸ htest) (Except.ok.inj h).symm
  · -- the test of the inner loop
    split at h
    · split at h
      · split at h
        · exact ran_requestPull h
        · obtain rfl := Except.ok.inj h
          exact ran_position a _
      · obtain rfl := Except.ok.inj h
        exact ran_position a _
    · obtain rfl := Except.ok.inj h
      exact ran_position a _
  · exact ran_requestPull h
  · obtain rfl := Except.ok.inj h
    exact ran_position a _
  · obtain rfl := Except.ok.inj h
    exact ran_position a _
  · obtain rfl := Except.ok.inj h
    exact ran_position a _

theorem Accounted.take (h : Accounted a) (pull : PullInfo) (pulls : List PullInfo) :
    Accounted (a.take pull pulls) := by
  refine ⟨h.pulling, fun t ht => ?_⟩
  unfold BootstrapAttempt.take
  rw [List.map_append, List.mem_append]
  rcases Nat.lt_succ_iff_lt_or_eq.mp ht with hlt | rfl
  · rcases h.tickets t hlt with htask | hdone
    · exact Or.inl (Or.inl htask)
    · exact Or.inr hdone
  · exact Or.inl (Or.inr List.mem_cons_self)

/-- At the last test an empty queue and a counter at zero leave only what waits. -/
theorem Accounted.settled (h : Accounted a) (hstopped : a.stopped = false)
    (htest : a.stillPulling = false) (htasks : ∀ task ∈ a.tasks, task.ticket = none)
    (hclients : a.clients.length < 2 ^ 32) : a.Settled := by
  unfold stillPulling at htest
  rw [hstopped] at htest
  simp only [Bool.not_false, Bool.true_and, Bool.or_eq_false_iff, Bool.not_eq_false',
    List.isEmpty_iff, decide_eq_false_iff_not] at htest
  obtain ⟨hpulls, hpulling⟩ := htest
  have hnone : a.clients = [] := by
    rw [h.pulling, BitVec.lt_def, BitVec.toNat_ofNat, Nat.mod_eq_of_lt hclients] at hpulling
    exact List.length_eq_zero_iff.mp (Nat.eq_zero_of_not_pos hpulling)
  refine ⟨hpulls, fun t ht => ?_⟩
  rcases h.tickets t ht with htask | ⟨hcreated, hclient | hdestroyed⟩
  · obtain ⟨task, htask, hticket⟩ := List.mem_map.mp htask
    rw [htasks task htask] at hticket
    cases hticket
  · rw [hnone] at hclient
    cases hclient
  · exact ⟨hcreated, hdestroyed⟩

/-! ## Steps of the other threads -/

theorem Accounted.construct (h : Accounted a) (i : ℕ) : Accounted (a.construct i) := by
  unfold BootstrapAttempt.construct
  split
  · exact h
  · rename_i task htask
    constructor
    · show a.pulling + 1 = BitVec.ofNat 32 (a.clients ++ [_]).length
      rw [h.pulling, List.length_append, BitVec.ofNat_add]
      rfl
    · intro t ht
      rw [List.map_append, List.mem_append, List.mem_append]
      rcases h.tickets t ht with hwaits | ⟨hcreated, hclient | hdestroyed⟩
      · -- the ticket is that of the task, or of one that goes on waiting
        rcases (mem_map_eraseIdx htask).mp hwaits with hticket | hwaits
        · refine Or.inr ⟨Or.inr ?_, Or.inl (Or.inr ?_)⟩
          · rw [← hticket]
            exact List.mem_singleton_self t
          · rw [hticket]
            exact List.mem_singleton_self _
        · exact Or.inl hwaits
      · exact Or.inr ⟨Or.inl hcreated, Or.inl (Or.inl hclient)⟩
      · exact Or.inr ⟨Or.inl hcreated, Or.inr hdestroyed⟩

theorem Accounted.destroy (h : Accounted a) (i : ℕ) : Accounted (a.destroy i) := by
  unfold BootstrapAttempt.destroy
  split
  · exact h
  · rename_i c hc
    split
    · constructor
      · show a.pulling - 1 = BitVec.ofNat 32 (a.clients.eraseIdx i).length
        obtain ⟨hi, _⟩ := List.getElem?_eq_some_iff.mp hc
        obtain ⟨k, hk⟩ : ∃ k, a.clients.length = k + 1 := Nat.exists_eq_add_one.mpr (by omega)
        rw [h.pulling, List.length_eraseIdx_of_lt hi, hk, BitVec.ofNat_add]
        exact add_sub_cancel_right _ _
      · intro t ht
        rw [List.mem_append]
        rcases h.tickets t ht with hwaits | ⟨hcreated, hclient | hdestroyed⟩
        · exact Or.inl hwaits
        · rcases (mem_map_eraseIdx hc).mp hclient with hticket | hclient
          · refine Or.inr ⟨hcreated, Or.inr (Or.inr ?_)⟩
            rw [← hticket]
            exact List.mem_singleton_self t
          · exact Or.inr ⟨hcreated, Or.inl hclient⟩
        · exact Or.inr ⟨hcreated, Or.inr (Or.inl hdestroyed)⟩
    · exact h

theorem Accounted.requeuePull (h : Accounted a) (pull : PullInfo) (peer : Bool) :
    Accounted (a.requeuePull pull peer) := by
  unfold BootstrapAttempt.requeuePull
  dsimp only
  split
  · exact ⟨h.pulling, h.tickets⟩
  · split
    · split
      · refine ⟨h.pulling, fun t ht => ?_⟩
        rw [List.map_append, List.mem_append]
        exact (h.tickets t ht).imp_left Or.inl
      · exact h
    · exact h

theorem Accounted.close (h : Accounted a) (i : ℕ) (expected : BlockHash) (peer : Bool) :
    Accounted (a.close i expected peer) := by
  unfold BootstrapAttempt.close
  split
  · exact h
  · rename_i c hc
    split
    · exact h
    · have hmap : (a.clients.set i { c with closing := true }).map Client.ticket =
          a.clients.map Client.ticket := by
        obtain ⟨hi, rfl⟩ := List.getElem?_eq_some_iff.mp hc
        rw [List.map_set]
        refine List.ext_getElem (by simp) fun j hj hj' => ?_
        rw [List.getElem_set]
        split
        · subst_vars
          rw [List.getElem_map]
        · rfl
      have hset : Accounted { a with clients := a.clients.set i { c with closing := true } } := by
        refine ⟨?_, fun t ht => ?_⟩
        · rw [List.length_set]
          exact h.pulling
        · rw [hmap]
          exact h.tickets t ht
      dsimp only
      split
      · exact hset.requeuePull _ peer
      · exact hset

/-! ## Runs -/

/-- What holds at all times. -/
structure Sound (a : BootstrapAttempt) : Prop where
  accounted : Accounted a
  completed : a.pullCompleted = true → a.position = .finished ∧ a.Settled

theorem sound_start (pulls : List PullInfo) (idle : ℕ) : Sound (start pulls idle) := by
  refine ⟨⟨rfl, fun t ht => absurd ht (Nat.not_lt_zero t)⟩, fun h => ?_⟩
  cases h

/-- Steps in the middle of the run only have to keep the accounts. -/
theorem Sound.going (hs : Sound a) (hpos : a.position ≠ .finished)
    (hcompleted : a'.pullCompleted = a.pullCompleted) (h : Accounted a') : Sound a' := by
  refine ⟨h, fun hdone => ?_⟩
  rw [hcompleted] at hdone
  exact absurd (hs.completed hdone).1 hpos

theorem Sound.run {i : RunInput} (hs : Sound a) (hpos : a.position ≠ .finished)
    (hprompt : Prompt a (.run i)) (h : a.run i = .ok a') : Sound a' := by
  cases ran_run h with
  | moved books => exact hs.going hpos books.completed (books.accounted hs.accounted)
  | took pull pulls eq =>
    subst eq
    exact hs.going hpos rfl (hs.accounted.take pull pulls)
  | ended position test eq =>
    subst eq
    have hacc : Accounted { a with position := .finished, pullCompleted := !a.stopped } :=
      ⟨hs.accounted.pulling, hs.accounted.tickets⟩
    refine ⟨hacc, fun hdone => ⟨rfl, ?_⟩⟩
    obtain ⟨htasks, hclients⟩ := hprompt position test
    exact hs.accounted.settled (Bool.not_eq_true' _ ▸ hdone) test htasks hclients

/-- A step of another thread, which has to wait if `run` has the mutex. -/
theorem Sound.other {b : Bool} {t : BootstrapAttempt} (hs : Sound a) (hpos : a.position ≠ .finished)
    (hcompleted : t.pullCompleted = a.pullCompleted) (h : Accounted t) :
    Sound (if b then a else t) := by
  split
  · exact hs
  · exact hs.going hpos hcompleted h

theorem completed_requeuePull (a : BootstrapAttempt) (pull : PullInfo) (peer : Bool) :
    (a.requeuePull pull peer).pullCompleted = a.pullCompleted := by
  unfold requeuePull
  dsimp only
  split
  · rfl
  · split
    · split <;> rfl
    · rfl

theorem completed_close (a : BootstrapAttempt) (i : ℕ) (expected : BlockHash) (peer : Bool) :
    (a.close i expected peer).pullCompleted = a.pullCompleted := by
  unfold close
  split
  · rfl
  · split
    · rfl
    · dsimp only
      split
      · exact completed_requeuePull _ _ _
      · rfl

theorem completed_construct (a : BootstrapAttempt) (i : ℕ) :
    (a.construct i).pullCompleted = a.pullCompleted := by
  unfold construct
  split <;> rfl

theorem completed_destroy (a : BootstrapAttempt) (i : ℕ) :
    (a.destroy i).pullCompleted = a.pullCompleted := by
  unfold destroy
  split
  · rfl
  · split <;> rfl

theorem Sound.apply {m : Move} (hs : Sound a) (hprompt : Prompt a m) (h : a.apply m = .ok a') :
    Sound a' := by
  unfold BootstrapAttempt.apply at h
  split at h
  · obtain rfl := Except.ok.inj h
    exact hs
  · rename_i hpos
    have hacc := hs.accounted
    cases m with
    | run i => exact hs.run hpos hprompt h
    | stop =>
      obtain rfl := Except.ok.inj h
      exact hs.going hpos rfl ⟨hacc.pulling, hacc.tickets⟩
    | addPull pull =>
      obtain rfl := Except.ok.inj h
      exact hs.other hpos rfl ⟨hacc.pulling, hacc.tickets⟩
    | poolConnection =>
      obtain rfl := Except.ok.inj h
      exact hs.other hpos rfl ⟨hacc.pulling, hacc.tickets⟩
    | construct i =>
      obtain rfl := Except.ok.inj h
      exact hs.other hpos (completed_construct a i) (hacc.construct i)
    | close i expected peer =>
      obtain rfl := Except.ok.inj h
      exact hs.other hpos (completed_close a i expected peer) (hacc.close i expected peer)
    | destroy i =>
      obtain rfl := Except.ok.inj h
      exact hs.other hpos (completed_destroy a i) (hacc.destroy i)

/-- **No pull is outstanding when an attempt succeeds**, provided the tasks of
`request_pull` are run before the outer loop ends. In every interleaving in which
that is so, when `run` has set `pull_completed` the queue is empty and every pull
taken from it has had its client constructed and destroyed. -/
theorem no_pull_outstanding (pulls : List PullInfo) (idle : ℕ) (moves : List Move)
    (hprompt : Machine.Guarded BootstrapAttempt.apply Prompt (start pulls idle) moves)
    (hrun : Machine.run BootstrapAttempt.apply (start pulls idle) moves = .ok a)
    (hdone : a.pullCompleted = true) : a.Settled := by
  have hsound : Sound a := Machine.run_invariant (fun _ _ _ hs hp h => hs.apply hp h)
    (sound_start pulls idle) hprompt hrun
  exact (hsound.completed hdone).2

/-! ## Every interleaving goes on

`request_pull` reads the front of the queue after it may have waited for a
connection. The queue was not empty before, and no other thread takes from it. -/

/-- A pull is there as long as `request_pull` waits. -/
def Queued (a : BootstrapAttempt) : Prop := a.position = .pullConnection → a.pulls ≠ []

theorem Queued.elsewhere (h : decide (a.position = .pullConnection) = false) : Queued a :=
  fun hp => absurd hp (of_decide_eq_false h)

theorem Queued.grow (h : Queued a) (hpos : a'.position = a.position)
    (hpulls : a.pulls ≠ [] → a'.pulls ≠ []) : Queued a' := by
  intro hp
  rw [hpos] at hp
  exact hpulls (h hp)

theorem requestPull_total (hpulls : a.pulls ≠ []) : ∃ a', a.requestPull = .ok a' ∧ Queued a' := by
  unfold requestPull
  split
  · exact ⟨_, rfl, fun _ => hpulls⟩
  · exact ⟨_, rfl, .elsewhere rfl⟩
  · split
    · exact absurd ‹_› hpulls
    · exact ⟨_, rfl, .elsewhere rfl⟩

theorem queued_requestFrontier (a : BootstrapAttempt) : Queued a.requestFrontier := by
  unfold requestFrontier
  split <;> exact .elsewhere rfl

theorem queued_enterLoops (a : BootstrapAttempt) (draws : ℕ → ℕ) : Queued (a.enterLoops draws) :=
  .elsewhere rfl

theorem run_total (h : Queued a) (i : RunInput) : ∃ a', a.run i = .ok a' ∧ Queued a' := by
  unfold run
  split
  · refine ⟨_, rfl, ?_⟩
    split
    · exact queued_enterLoops a _
    · exact queued_requestFrontier a
  · exact ⟨_, rfl, queued_requestFrontier a⟩
  · split
    · exact ⟨_, rfl, .elsewhere rfl⟩
    · exact ⟨_, rfl, queued_enterLoops a _⟩
  · split
    · exact ⟨_, rfl, .elsewhere rfl⟩
    · exact ⟨_, rfl, .elsewhere rfl⟩
  · split
    · split
      · split
        · exact requestPull_total (by simpa using ‹(!a.pulls.isEmpty) = true›)
        · exact ⟨_, rfl, .elsewhere rfl⟩
      · exact ⟨_, rfl, .elsewhere rfl⟩
    · exact ⟨_, rfl, .elsewhere rfl⟩
  · exact requestPull_total (h ‹_›)
  · exact ⟨_, rfl, .elsewhere rfl⟩
  · exact ⟨_, rfl, .elsewhere rfl⟩
  · exact ⟨a, rfl, h⟩

theorem queued_close (h : Queued a) (i : ℕ) (expected : BlockHash) (peer : Bool) :
    Queued (a.close i expected peer) := by
  unfold close
  split
  · exact h
  · split
    · exact h
    · dsimp only
      split
      · unfold requeuePull
        dsimp only
        split
        · exact h.grow rfl fun _ => List.cons_ne_nil _ _
        · split
          · split
            · exact h.grow rfl id
            · exact h.grow rfl id
          · exact h.grow rfl id
      · exact h.grow rfl id

theorem apply_total (h : Queued a) (m : Move) : ∃ a', a.apply m = .ok a' ∧ Queued a' := by
  have hother : ∀ {b : Bool} {t : BootstrapAttempt}, Queued t → Queued (if b then a else t) := by
    intro b t ht
    split
    · exact h
    · exact ht
  unfold BootstrapAttempt.apply
  split
  · exact ⟨a, rfl, h⟩
  · cases m with
    | run i => exact run_total h i
    | stop => exact ⟨_, rfl, h.grow rfl id⟩
    | addPull pull =>
      refine ⟨_, rfl, hother (h.grow rfl fun _ => ?_)⟩
      exact List.append_ne_nil_of_right_ne_nil _ (List.cons_ne_nil _ _)
    | poolConnection => exact ⟨_, rfl, hother (h.grow rfl id)⟩
    | construct i =>
      refine ⟨_, rfl, hother ?_⟩
      unfold construct
      split
      · exact h
      · exact h.grow rfl id
    | close i expected peer =>
      refine ⟨_, rfl, ?_⟩
      exact hother (queued_close h i expected peer)
    | destroy i =>
      refine ⟨_, rfl, hother ?_⟩
      unfold destroy
      split
      · exact h
      · split
        · exact h.grow rfl id
        · exact h

/-- **Every interleaving goes on**: no move reads the front of an empty queue. -/
theorem moves_total (pulls : List PullInfo) (idle : ℕ) (moves : List Move) :
    ∃ a, Machine.run BootstrapAttempt.apply (start pulls idle) moves = .ok a :=
  Machine.run_total (fun _ m h => apply_total h m) (.elsewhere rfl) moves

/-! ## One pull, two schedules -/

namespace OnePull

def pull : PullInfo := { account := 1, head := 2, endHash := 0 }

/-- The frontier request adds one pull, and `run` goes to its loops, takes the pull
and comes to the flush. -/
def frontier : List Move :=
  [.run {}, .addPull pull, .poolConnection, .run {}, .run {}, .run {}]

/-- The task is not run. -/
def late : List Move := frontier ++ [.run {}, .run {}, .run {}]

/-- During the flush the task is run, and the pull succeeds. -/
def prompt : List Move :=
  frontier ++ [.run {}, .construct 0, .close 0 0 true, .destroy 0, .run {}, .run {}]

end OnePull

/-- The task that `request_pull` has posted is delayed past the flush. -/
theorem pull_outstanding :
    ∃ a, Machine.run BootstrapAttempt.apply (start [] 1) OnePull.late = .ok a ∧
      a.pullCompleted = true ∧ a.tasks = [⟨some 0, OnePull.pull⟩] ∧ ¬ a.Settled := by
  have heval : (Machine.run BootstrapAttempt.apply (start [] 1) OnePull.late).toOption.map
      (fun a => (a.pullCompleted, a.tasks, a.taken, a.created)) =
      some (true, [⟨some 0, OnePull.pull⟩], 1, []) := by
    decide +kernel
  obtain ⟨a, hrun⟩ := moves_total [] 1 OnePull.late
  rw [hrun] at heval
  simp only [Except.toOption, Option.map_some, Option.some.injEq, Prod.mk.injEq] at heval
  obtain ⟨hdone, htasks, htaken, hcreated⟩ := heval
  refine ⟨a, hrun, hdone, htasks, fun hsettled => ?_⟩
  have hmem := (hsettled.2 0 (by omega)).1
  rw [hcreated] at hmem
  cases hmem

/-- The task is run during the flush, and the attempt ends with nothing outstanding. -/
theorem no_pull_outstanding_prompt :
    ∃ a, Machine.run BootstrapAttempt.apply (start [] 1) OnePull.prompt = .ok a ∧
      a.pullCompleted = true ∧ a.taken = 1 ∧ a.Settled := by
  have heval : (Machine.run BootstrapAttempt.apply (start [] 1) OnePull.prompt).toOption.map
      (fun a => (a.pullCompleted, a.taken)) = some (true, 1) := by
    decide +kernel
  obtain ⟨a, hrun⟩ := moves_total [] 1 OnePull.prompt
  rw [hrun] at heval
  obtain ⟨hdone, htaken⟩ := Prod.mk.inj (Option.some.inj heval)
  exact ⟨a, hrun, hdone, htaken,
    no_pull_outstanding [] 1 OnePull.prompt (by decide +kernel) hrun hdone⟩

end BootstrapAttempt

end RaiBlocks
