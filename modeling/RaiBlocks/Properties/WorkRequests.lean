import Mathlib.Algebra.BigOperators.Fin
import RaiBlocks.Foundation.Execution
import RaiBlocks.Node.WorkPool

/-!
# Work requests are answered

The ticket changes whenever the front of the queue goes, by being answered or by
being cancelled. So a worker that finds the ticket it has read still has the front of
the queue in its hands, as long as the ticket has not run through all its values in
the meantime. Every request is in one place at a time: in the queue, with a worker
that is about to call the callback, or among the calls made.
-/

namespace RaiBlocks

open Foundation Worker

/-- Is the worker about to answer the request? -/
def Worker.owes (id : ℕ) : Worker → ℕ
  | .answering current _ => if current.id = id then 1 else 0
  | _ => 0

theorem Worker.owes_answering (id : ℕ) (current : WorkRequest) (work : Work) :
    (answering current work).owes id = if current.id = id then 1 else 0 := rfl

namespace WorkPool

variable {n : ℕ} {p : NodeEnv} {pool pool' : WorkPool n} {work : Work} {t : Fin n} {m : Move n}
  {current : WorkRequest} {ticket : BitVec 32} {root : BlockHash} {output : BitVec 64} {P : Prop}
  {w : Worker} {moves : List (Move n)}

/-! ## What a worker does -/

/-- Passing work is what it was computed from. -/
def Checked (p : NodeEnv) (root : BlockHash) (work : Work) (output : BitVec 64) : Prop :=
  p.publishThreshold ≤ output → p.workValue root work = output

theorem checked_attempts (rng : ℕ → Work) (iteration : ℕ) (h : Checked p root work output) :
    Checked p root (attempts p root rng iteration work output).1
      (attempts p root rng iteration work output).2 := by
  induction iteration generalizing work output with
  | zero => exact h
  | succ iteration ih =>
    rw [attempts]
    split
    · exact ih fun _ => rfl
    · exact h

/-- The moves of a thread. -/
inductive WorkerStep (p : NodeEnv) (pool : WorkPool n) (t : Fin n) : WorkPool n → Prop
  | idle : pool.workers t = .waiting ∨ pool.workers t = .exited → WorkerStep p pool t pool
  | enter : pool.workers t = .ready ∨
      (∃ current ticket work output,
        pool.workers t = .leaving current ticket work output ∧ pool.ticket ≠ ticket) →
      WorkerStep p pool t (pool.setWorker t pool.enter)
  | search {current : WorkRequest} {ticket : BitVec 32} {work work' : Work}
      {output output' : BitVec 64} : pool.workers t = .searching current ticket work output →
      pool.ticket = ticket → output < p.publishThreshold →
      (Checked p current.root work output → Checked p current.root work' output') →
      WorkerStep p pool t (pool.setWorker t (.searching current ticket work' output'))
  | leave {current : WorkRequest} {ticket : BitVec 32} {work : Work} {output : BitVec 64} :
      pool.workers t = .searching current ticket work output →
      (pool.ticket = ticket → p.publishThreshold ≤ output) →
      WorkerStep p pool t (pool.setWorker t (.leaving current ticket work output))
  | pop {current : WorkRequest} {ticket : BitVec 32} {work : Work} {output : BitVec 64} :
      pool.workers t = .leaving current ticket work output → pool.ticket = ticket →
      p.publishThreshold ≤ output → p.workValue current.root work = output →
      WorkerStep p pool t { pool.nextTicket.setWorker t (.answering current work) with
        pending := pool.pending.tail }
  | answer {current : WorkRequest} {work : Work} : pool.workers t = .answering current work →
      WorkerStep p pool t
        { pool.setWorker t .ready with calls := pool.calls ++ [(current.id, some work)] }

theorem workerStep_of {rng : ℕ → Work} (h : pool.stepWorker p t rng = .ok pool') :
    WorkerStep p pool t pool' := by
  unfold stepWorker at h
  split at h
  · rename_i hw
    obtain rfl := Except.ok.inj h
    exact .enter (Or.inl hw)
  · rename_i hw
    obtain rfl := Except.ok.inj h
    exact .idle (Or.inl hw)
  · rename_i current ticket work output hw
    split at h
    · rename_i hcond
      obtain rfl := Except.ok.inj h
      exact .search hw hcond.1 hcond.2 (checked_attempts rng 256)
    · rename_i hcond
      obtain rfl := Except.ok.inj h
      exact .leave hw fun hticket => BitVec.not_lt.mp fun hlt => hcond ⟨hticket, hlt⟩
  · rename_i current ticket work output hw
    split at h
    · rename_i hticket
      obtain ⟨_, hfound, h⟩ := bind_eq_ok h
      obtain ⟨_, hvalue, h⟩ := bind_eq_ok h
      obtain ⟨_, -, h⟩ := bind_eq_ok h
      obtain rfl := Except.ok.inj h
      exact .pop hw hticket (of_decide_eq_true (of_assertThat hfound))
        (of_decide_eq_true (of_assertThat hvalue))
    · rename_i hticket
      obtain rfl := Except.ok.inj h
      exact .enter (Or.inr ⟨current, ticket, work, output, hw, hticket⟩)
  · rename_i current work hw
    obtain rfl := Except.ok.inj h
    exact .answer hw
  · rename_i hw
    obtain rfl := Except.ok.inj h
    exact .idle (Or.inr hw)

section Inversion

theorem setWorker_self (pool : WorkPool n) (t : Fin n) (w : Worker) :
    (pool.setWorker t w).workers t = w := Function.update_self _ _ _

theorem WorkerStep.of_ready (h : WorkerStep p pool t pool') (hw : pool.workers t = .ready) :
    pool'.workers t = pool.enter := by
  cases h with
  | idle h => rcases h with h | h <;> cases hw.symm.trans h
  | enter => exact setWorker_self _ _ _
  | search h => cases hw.symm.trans h
  | leave h => cases hw.symm.trans h
  | pop h => cases hw.symm.trans h
  | answer h => cases hw.symm.trans h

theorem WorkerStep.of_searching (h : WorkerStep p pool t pool')
    (hw : pool.workers t = .searching current ticket work output) :
    (pool.ticket = ticket ∧ output < p.publishThreshold ∧
      ∃ work' output', pool'.workers t = .searching current ticket work' output') ∨
    pool'.workers t = .leaving current ticket work output := by
  cases h with
  | idle h => rcases h with h | h <;> cases hw.symm.trans h
  | enter h => rcases h with h | ⟨_, _, _, _, h, -⟩ <;> cases hw.symm.trans h
  | search h hticket hlt =>
    obtain ⟨rfl, rfl, rfl, rfl⟩ := searching.inj (hw.symm.trans h)
    exact Or.inl ⟨hticket, hlt, _, _, setWorker_self _ _ _⟩
  | leave h =>
    obtain ⟨rfl, rfl, rfl, rfl⟩ := searching.inj (hw.symm.trans h)
    exact Or.inr (setWorker_self _ _ _)
  | pop h => cases hw.symm.trans h
  | answer h => cases hw.symm.trans h

theorem WorkerStep.of_leaving (h : WorkerStep p pool t pool')
    (hw : pool.workers t = .leaving current ticket work output) :
    (pool'.changes = pool.changes + 1 ∧ pool'.workers t = .answering current work) ∨
    (pool.ticket ≠ ticket ∧ pool'.workers t = pool.enter) := by
  cases h with
  | idle h => rcases h with h | h <;> cases hw.symm.trans h
  | enter h =>
    rcases h with h | ⟨_, _, _, _, h, hne⟩
    · cases hw.symm.trans h
    · obtain ⟨rfl, rfl, rfl, rfl⟩ := leaving.inj (hw.symm.trans h)
      exact Or.inr ⟨hne, setWorker_self _ _ _⟩
  | search h => cases hw.symm.trans h
  | leave h => cases hw.symm.trans h
  | pop h =>
    obtain ⟨rfl, rfl, rfl, rfl⟩ := leaving.inj (hw.symm.trans h)
    exact Or.inl ⟨rfl, setWorker_self _ _ _⟩
  | answer h => cases hw.symm.trans h

theorem WorkerStep.of_answering (h : WorkerStep p pool t pool')
    (hw : pool.workers t = .answering current work) :
    pool'.workers t = .ready ∧ pool'.calls = pool.calls ++ [(current.id, some work)] := by
  cases h with
  | idle h => rcases h with h | h <;> cases hw.symm.trans h
  | enter h => rcases h with h | ⟨_, _, _, _, h, -⟩ <;> cases hw.symm.trans h
  | search h => cases hw.symm.trans h
  | leave h => cases hw.symm.trans h
  | pop h => cases hw.symm.trans h
  | answer h =>
    obtain ⟨rfl, rfl⟩ := answering.inj (hw.symm.trans h)
    exact ⟨setWorker_self _ _ _, rfl⟩

end Inversion

/-! ## The invariant -/

/-- The ticket `ticket` was read when `current` was the front of the queue, and if it
has not changed since, `current` is still there and `P` holds. -/
def Holds (pool : WorkPool n) (current : WorkRequest) (ticket : BitVec 32) (P : Prop) : Prop :=
  ∃ c, c ≤ pool.changes ∧ ticket = BitVec.ofNat 32 c ∧
    (c = pool.changes → pool.pending.head? = some current ∧ P)

/-- What is known of a worker. -/
def WorkerSound (p : NodeEnv) (pool : WorkPool n) : Worker → Prop
  | .ready => True
  | .waiting => pool.pending = []
  | .searching current ticket work output =>
    pool.Holds current ticket True ∧ Checked p current.root work output
  | .leaving current ticket work output =>
    pool.Holds current ticket (p.publishThreshold ≤ output) ∧ Checked p current.root work output
  | .answering current work =>
    pool.requests[current.id]? = some current.root ∧ p.workValidate current.root work = false
  | .exited => pool.done = true

/-- In how many places a request is. -/
def places (pool : WorkPool n) (id : ℕ) : ℕ :=
  (pool.pending.map WorkRequest.id).count id + ∑ t, (pool.workers t).owes id +
    (pool.calls.map Prod.fst).count id

structure Sound (p : NodeEnv) (pool : WorkPool n) : Prop where
  ticket : pool.ticket = BitVec.ofNat 32 pool.changes
  queued : ∀ r ∈ pool.pending, pool.requests[r.id]? = some r.root
  worker : ∀ t, WorkerSound p pool (pool.workers t)
  once : ∀ id, pool.places id = if id < pool.requests.length then 1 else 0
  answered : ∀ id work, (id, some work) ∈ pool.calls →
    ∃ root, pool.requests[id]? = some root ∧ p.workValidate root work = false

theorem sound_start (p : NodeEnv) (n : ℕ) : Sound p (start n) where
  ticket := rfl
  queued r hr := by cases hr
  worker t := trivial
  once id := by simp [places, start, owes]
  answered id work h := by cases h

/-- How the rest of the pool may change without a worker noticing. -/
structure Advance (pool pool' : WorkPool n) : Prop where
  changes : pool.changes ≤ pool'.changes
  front : pool'.changes = pool.changes → ∀ r, pool.pending.head? = some r →
    pool'.pending.head? = some r
  requests : ∀ (id : ℕ) (root : BlockHash), pool.requests[id]? = some root →
    pool'.requests[id]? = some root
  done : pool.done = true → pool'.done = true

theorem advance_cancel (pool : WorkPool n) (root : BlockHash) :
    Advance pool (pool.cancel root) := by
  refine ⟨?_, fun hsame r hr => ?_, ?_, ?_⟩
  · simp only [cancel]
    split
    · exact Nat.le_succ _
    · exact le_rfl
  · have hroot : r.root ≠ root := by
      intro heq
      simp only [cancel] at hsame
      rw [if_pos (by rw [hr, Option.map_some, heq])] at hsame
      exact absurd hsame (Nat.succ_ne_self _)
    obtain ⟨rest, hpending⟩ := List.head?_eq_some_iff.mp hr
    rw [cancel_pending, hpending, List.filter_cons_of_pos (by simpa using hroot)]
    rfl
  · rw [cancel_requests]
    exact fun _ _ h => h
  · rw [cancel_done]
    exact fun h => h

theorem advance_apply (h : pool.apply p m = .ok pool') : Advance pool pool' := by
  have hrefl : ∀ {q : WorkPool n}, q.changes = pool.changes → q.pending = pool.pending →
      q.requests = pool.requests → q.done = pool.done → Advance pool q := by
    intro q hc hp hr hd
    exact ⟨hc.ge, fun _ r h => by rw [hp]; exact h, fun id r h => by rw [hr]; exact h,
      fun h => hd.trans h⟩
  cases m with
  | generate root =>
    obtain ⟨_, -, h⟩ := bind_eq_ok h
    obtain rfl := Except.ok.inj h
    refine ⟨le_rfl, fun _ r hr => ?_, fun id r hr => ?_, fun hd => hd⟩
    · change (pool.pending ++ [_]).head? = some r
      rw [List.head?_append, hr]
      rfl
    · change (pool.requests ++ [root])[id]? = some r
      rw [List.getElem?_append_left (List.getElem?_eq_some_iff.mp hr).1]
      exact hr
  | cancel root =>
    obtain rfl := Except.ok.inj h
    exact advance_cancel pool root
  | stop =>
    obtain rfl := Except.ok.inj h
    exact ⟨le_rfl, fun _ _ hr => hr, fun _ _ hr => hr, fun _ => rfl⟩
  | wake t =>
    obtain rfl := Except.ok.inj h
    unfold wake
    split <;> exact hrefl rfl rfl rfl rfl
  | step t rng =>
    cases workerStep_of h with
    | pop => exact ⟨Nat.le_succ _, fun hsame => absurd hsame (Nat.succ_ne_self _),
        fun _ _ h => h, fun h => h⟩
    | _ => exact hrefl rfl rfl rfl rfl

theorem Holds.advance (h : pool.Holds current ticket P) (ha : Advance pool pool') :
    pool'.Holds current ticket P := by
  obtain ⟨c, hc, hticket, hfront⟩ := h
  refine ⟨c, hc.trans ha.changes, hticket, fun heq => ?_⟩
  have hsame : pool'.changes = pool.changes := le_antisymm (heq ▸ hc) ha.changes
  obtain ⟨hhead, hP⟩ := hfront (heq.trans hsame)
  exact ⟨ha.front hsame _ hhead, hP⟩

/-- A ticket that matches was not changed since it was read. -/
theorem Holds.front (h : pool.Holds current ticket P)
    (hpool : pool.ticket = BitVec.ofNat 32 pool.changes) (hlt : pool.changes < 2 ^ 32)
    (heq : pool.ticket = ticket) : pool.pending.head? = some current ∧ P := by
  obtain ⟨c, hc, hticket, hfront⟩ := h
  have hval := congrArg BitVec.toNat (hticket.symm.trans (heq.symm.trans hpool))
  rw [BitVec.toNat_ofNat, BitVec.toNat_ofNat, Nat.mod_eq_of_lt (hc.trans_lt hlt),
    Nat.mod_eq_of_lt hlt] at hval
  exact hfront hval

theorem WorkerSound.advance (h : WorkerSound p pool w) (ha : Advance pool pool')
    (hwait : w = .waiting → pool'.pending = []) : WorkerSound p pool' w := by
  cases w with
  | ready => trivial
  | waiting => exact hwait rfl
  | searching current ticket work output => exact ⟨h.1.advance ha, h.2⟩
  | leaving current ticket work output => exact ⟨h.1.advance ha, h.2⟩
  | answering current work => exact ⟨ha.requests _ _ h.1, h.2⟩
  | exited => exact ha.done h

/-! ### Counting -/

theorem sum_owes_update (workers : Fin n → Worker) (t : Fin n) (w : Worker) (id : ℕ) :
    ∑ i, (Function.update workers t w i).owes id + (workers t).owes id =
      ∑ i, (workers i).owes id + w.owes id := by
  have hnew := Finset.sum_update_of_mem (Finset.mem_univ t) (fun i => (workers i).owes id)
    (w.owes id)
  have hold := Finset.sum_erase_add Finset.univ (fun i => (workers i).owes id) (Finset.mem_univ t)
  have heq : ∀ i, (Function.update workers t w i).owes id =
      Function.update (fun i => (workers i).owes id) t (w.owes id) i := by
    intro i
    by_cases hi : i = t
    · subst hi
      simp only [Function.update_self]
    · simp only [Function.update_of_ne hi]
  rw [Finset.sum_congr rfl fun i _ => heq i, hnew, ← hold, Finset.sdiff_singleton_eq_erase]
  omega

theorem places_setWorker (pool : WorkPool n) (t : Fin n) (w : Worker) (id : ℕ) :
    (pool.setWorker t w).places id + (pool.workers t).owes id = pool.places id + w.owes id := by
  have hsum := sum_owes_update pool.workers t w id
  simp only [places, setWorker]
  omega

theorem owes_notifyAll (pool : WorkPool n) (t : Fin n) (id : ℕ) :
    (pool.notifyAll.workers t).owes id = (pool.workers t).owes id := by
  simp only [notifyAll]
  cases pool.workers t <;> rfl

theorem places_notifyAll (pool : WorkPool n) (id : ℕ) :
    pool.notifyAll.places id = pool.places id := by
  simp only [places, owes_notifyAll]
  rfl

/-! ### One move -/

theorem workerSound_notifyAll (hs : Sound p pool) (ha : Advance pool pool'.notifyAll)
    (hworkers : pool'.workers = pool.workers) (t : Fin n) :
    WorkerSound p pool'.notifyAll (pool'.notifyAll.workers t) := by
  have ht := hs.worker t
  simp only [notifyAll, hworkers] at ha ⊢
  cases hw : pool.workers t with
  | waiting => trivial
  | _ =>
    rw [hw] at ht
    exact ht.advance ha fun h => by cases h

theorem Sound.generate (hs : Sound p pool) (h : pool.generate root = .ok pool') :
    Sound p pool' := by
  have ha : Advance pool pool' := advance_apply (p := p) (m := .generate root) h
  obtain ⟨_, -, h⟩ := bind_eq_ok h
  obtain rfl := Except.ok.inj h
  refine ⟨hs.ticket, fun r hr => ?_, workerSound_notifyAll hs ha rfl, fun id => ?_,
    fun id work hcall => ?_⟩
  · rcases List.mem_append.mp hr with hr | hr
    · exact ha.requests _ _ (hs.queued r hr)
    · rw [List.mem_singleton.mp hr]
      exact List.getElem?_concat_length
  · rw [places_notifyAll]
    have honce := hs.once id
    simp only [places, notifyAll_requests, List.map_append, List.count_append,
      List.map_singleton, List.count_singleton, List.length_append, List.length_singleton]
      at honce ⊢
    by_cases hid : pool.requests.length = id
    · rw [if_neg (by omega)] at honce
      rw [if_pos (by simpa using hid), if_pos (by omega)]
      omega
    · rw [if_neg (by simpa using hid)]
      have hiff : id < pool.requests.length + 1 ↔ id < pool.requests.length := by omega
      rw [if_congr hiff rfl rfl]
      omega
  · obtain ⟨r, hr, hwork⟩ := hs.answered id work hcall
    exact ⟨r, ha.requests id r hr, hwork⟩

/-- Cancelling moves requests from the queue to the calls. -/
theorem count_filter_root (l : List WorkRequest) (root : BlockHash) (id : ℕ) :
    (l.map WorkRequest.id).count id =
      ((l.filter fun r => r.root ≠ root).map WorkRequest.id).count id +
        ((l.filter fun r => r.root = root).map WorkRequest.id).count id := by
  induction l with
  | nil => rfl
  | cons r l ih =>
    by_cases hr : r.root = root <;> simp [hr, List.count_cons] at ih ⊢ <;> omega

theorem Sound.cancel (hs : Sound p pool) (root : BlockHash) : Sound p (pool.cancel root) := by
  refine ⟨?_, fun r hr => ?_, fun t => ?_, fun id => ?_, fun id work hcall => ?_⟩
  · simp only [WorkPool.cancel]
    split
    · simp only [nextTicket, hs.ticket]
      exact (BitVec.ofNat_add _ _).symm
    · exact hs.ticket
  · rw [cancel_pending] at hr
    rw [cancel_requests]
    exact hs.queued r (List.mem_of_mem_filter hr)
  · rw [cancel_workers]
    refine (hs.worker t).advance (advance_cancel pool root) fun hwait => ?_
    have hempty : WorkerSound p pool .waiting := hwait ▸ hs.worker t
    rw [cancel_pending, show pool.pending = [] from hempty]
    rfl
  · have honce := hs.once id
    have hcount := count_filter_root pool.pending root id
    simp only [places, cancel_pending, cancel_calls, cancel_workers, cancel_requests,
      List.map_append, List.map_map, List.count_append] at honce ⊢
    rw [hcount] at honce
    have hids : (Prod.fst ∘ fun item : WorkRequest => (item.id, (none : Option Work))) =
        WorkRequest.id := rfl
    rw [hids]
    omega
  · rw [cancel_calls] at hcall
    rw [cancel_requests]
    rcases List.mem_append.mp hcall with hcall | hcall
    · exact hs.answered id work hcall
    · obtain ⟨r, -, hr⟩ := List.mem_map.mp hcall
      cases congrArg Prod.snd hr

theorem Sound.stop (hs : Sound p pool) : Sound p pool.stop := by
  refine ⟨hs.ticket, hs.queued, ?_, fun id => ?_, hs.answered⟩
  · exact workerSound_notifyAll hs (advance_apply (p := p) (m := .stop) rfl) rfl
  · exact (places_notifyAll _ id).trans (hs.once id)

theorem Sound.setWorker (hs : Sound p pool) (hw : WorkerSound p pool w)
    (hold : ∀ id, (pool.workers t).owes id = 0) (hnew : ∀ id, w.owes id = 0) :
    Sound p (pool.setWorker t w) := by
  refine ⟨hs.ticket, hs.queued, fun t' => ?_, fun id => ?_, hs.answered⟩
  · have hsame : ∀ {w'}, WorkerSound p pool w' → WorkerSound p (pool.setWorker t w) w' :=
      fun {w'} h => h.advance ⟨le_rfl, fun _ _ hr => hr, fun _ _ hr => hr, fun hd => hd⟩
        fun heq => by rw [heq] at h; exact h
    by_cases ht : t' = t
    · subst ht
      simp only [WorkPool.setWorker, Function.update_self]
      exact hsame hw
    · simp only [WorkPool.setWorker, Function.update_of_ne ht]
      exact hsame (hs.worker t')
  · have hplaces := places_setWorker pool t w id
    rw [hold id, hnew id] at hplaces
    exact hplaces.trans (hs.once id)

theorem publishThreshold_pos (p : NodeEnv) : ¬ p.publishThreshold ≤ 0 := by
  unfold NodeEnv.publishThreshold
  cases p.network <;> decide

theorem workerSound_enter (hs : Sound p pool) : WorkerSound p pool pool.enter := by
  unfold enter
  split
  · rename_i current rest hpending
    refine ⟨⟨pool.changes, le_rfl, hs.ticket, fun _ => ⟨by rw [hpending]; rfl, trivial⟩⟩, ?_⟩
    exact fun hle => absurd hle (publishThreshold_pos p)
  · rename_i hpending
    split
    · assumption
    · exact hpending

theorem owes_enter (pool : WorkPool n) (id : ℕ) : pool.enter.owes id = 0 := by
  unfold enter
  split
  · rfl
  · split <;> rfl

theorem Sound.wake (hs : Sound p pool) (t : Fin n) : Sound p (pool.wake t) := by
  unfold WorkPool.wake
  split
  · rename_i hw
    exact hs.setWorker trivial (fun id => by rw [hw]; rfl) fun id => rfl
  · exact hs

/-- The front of the queue goes to the worker that found work for it. -/
theorem Sound.pop (hs : Sound p pool) (hlt : pool.changes < 2 ^ 32)
    (hw : pool.workers t = .leaving current ticket work output) (hticket : pool.ticket = ticket)
    (hfound : p.publishThreshold ≤ output) (hvalue : p.workValue current.root work = output) :
    Sound p { pool.nextTicket.setWorker t (.answering current work) with
      pending := pool.pending.tail } := by
  have ht := hs.worker t
  rw [hw] at ht
  obtain ⟨hhead, -⟩ := ht.1.front hs.ticket hlt hticket
  obtain ⟨rest, hpending⟩ := List.head?_eq_some_iff.mp hhead
  have ha : Advance pool { pool.nextTicket.setWorker t (.answering current work) with
      pending := pool.pending.tail } :=
    ⟨Nat.le_succ _, fun hsame => absurd hsame (Nat.succ_ne_self _), fun _ _ h => h, fun h => h⟩
  refine ⟨?_, fun r hr => hs.queued r (List.mem_of_mem_tail hr), fun t' => ?_, fun id => ?_,
    hs.answered⟩
  · simp only [nextTicket, WorkPool.setWorker, hs.ticket]
    exact (BitVec.ofNat_add _ _).symm
  · simp only [nextTicket, WorkPool.setWorker]
    by_cases hself : t' = t
    · subst hself
      rw [Function.update_self]
      refine ⟨hs.queued current (List.mem_of_mem_head? hhead), ?_⟩
      unfold NodeEnv.workValidate
      rw [hvalue]
      exact decide_eq_false (BitVec.not_lt.mpr hfound)
    · rw [Function.update_of_ne hself]
      refine (hs.worker t').advance ha fun hwait => ?_
      have hempty : WorkerSound p pool .waiting := hwait ▸ hs.worker t'
      exact congrArg List.tail hempty
  · have honce := hs.once id
    have hsum := sum_owes_update pool.workers t (.answering current work) id
    simp only [places, nextTicket, WorkPool.setWorker, hpending, List.tail_cons, List.map_cons,
      List.count_cons, beq_iff_eq, hw, owes_answering] at honce hsum ⊢
    have hnone : (leaving current ticket work output).owes id = 0 := rfl
    omega

theorem Sound.answer (hs : Sound p pool) (hw : pool.workers t = .answering current work) :
    Sound p { pool.setWorker t .ready with
      calls := pool.calls ++ [(current.id, some work)] } := by
  have ht := hs.worker t
  rw [hw] at ht
  refine ⟨hs.ticket, hs.queued, fun t' => ?_, fun id => ?_, fun id work' hcall => ?_⟩
  · have hsame : WorkerSound p pool (Function.update pool.workers t .ready t') := by
      by_cases hself : t' = t
      · rw [hself, Function.update_self]
        trivial
      · rw [Function.update_of_ne hself]
        exact hs.worker t'
    refine hsame.advance ⟨le_rfl, fun _ _ h => h, fun _ _ h => h, fun h => h⟩ fun hwait => ?_
    rw [hwait] at hsame
    exact hsame
  · refine Eq.trans ?_ (hs.once id)
    have hsum := sum_owes_update pool.workers t .ready id
    simp only [places, WorkPool.setWorker, List.map_append, List.map_singleton,
      List.count_append, List.count_singleton, beq_iff_eq, hw, owes_answering] at hsum ⊢
    have hnone : ready.owes id = 0 := rfl
    omega
  · rcases List.mem_append.mp hcall with hcall | hcall
    · exact hs.answered id work' hcall
    · obtain ⟨rfl, hwork⟩ := Prod.mk.inj (List.mem_singleton.mp hcall)
      obtain rfl := Option.some.inj hwork
      exact ⟨current.root, ht⟩

theorem Sound.stepWorker (hs : Sound p pool) (hlt : pool.changes < 2 ^ 32)
    (h : WorkerStep p pool t pool') : Sound p pool' := by
  have ht := hs.worker t
  cases h with
  | idle => exact hs
  | enter hw =>
    refine hs.setWorker (workerSound_enter hs) (fun id => ?_) (owes_enter pool)
    rcases hw with hw | ⟨_, _, _, _, hw, -⟩ <;> rw [hw] <;> rfl
  | search hw _ _ hchecked =>
    rw [hw] at ht
    exact hs.setWorker ⟨ht.1, hchecked ht.2⟩ (fun id => by rw [hw]; rfl) fun id => rfl
  | leave hw hfound =>
    rw [hw] at ht
    obtain ⟨⟨c, hc, hticket, hfront⟩, hchecked⟩ := ht
    refine hs.setWorker ⟨⟨c, hc, hticket, fun heq => ⟨(hfront heq).1, hfound ?_⟩⟩, hchecked⟩
      (fun id => by rw [hw]; rfl) fun id => rfl
    rw [hs.ticket, hticket, heq]
  | pop hw hticket hfound hvalue => exact hs.pop hlt hw hticket hfound hvalue
  | answer hw => exact hs.answer hw

/-- Every move keeps the invariant, as long as the ticket has not come round. -/
theorem Sound.apply (hs : Sound p pool) (hlt : pool.changes < 2 ^ 32)
    (h : pool.apply p m = .ok pool') : Sound p pool' := by
  cases m with
  | generate root => exact hs.generate h
  | cancel root =>
    obtain rfl := Except.ok.inj h
    exact hs.cancel root
  | stop =>
    obtain rfl := Except.ok.inj h
    exact hs.stop
  | wake t =>
    obtain rfl := Except.ok.inj h
    exact hs.wake t
  | step t rng => exact hs.stepWorker hlt (workerStep_of h)

/-! ## Safety -/

theorem Sound.stepWorker_ok (hs : Sound p pool) (hlt : pool.changes < 2 ^ 32) (t : Fin n)
    (rng : ℕ → Work) : ∃ pool', pool.stepWorker p t rng = .ok pool' := by
  have ht := hs.worker t
  unfold WorkPool.stepWorker
  cases hw : pool.workers t with
  | searching current ticket work output =>
    dsimp only
    split <;> exact ⟨_, rfl⟩
  | leaving current ticket work output =>
    rw [hw] at ht
    dsimp only
    split
    · rename_i hticket
      obtain ⟨hhead, hfound⟩ := ht.1.front hs.ticket hlt hticket
      have hne : pool.pending ≠ [] := fun hnil => by rw [hnil] at hhead; cases hhead
      rw [decide_eq_true hfound, decide_eq_true (ht.2 hfound), decide_eq_true hne]
      exact ⟨_, rfl⟩
    · exact ⟨_, rfl⟩
  | _ => exact ⟨_, rfl⟩

theorem nodup_calls (hs : Sound p pool) : (pool.calls.map Prod.fst).Nodup := by
  rw [List.nodup_iff_count_le_one]
  intro id
  have honce := hs.once id
  unfold places at honce
  split at honce <;> omega

/-- Calls stay, and `cancel` alone answers with none, for requests in the queue. -/
theorem calls_apply (h : pool.apply p m = .ok pool') :
    ∃ new, pool'.calls = pool.calls ++ new ∧ ∀ id, (id, none) ∈ new →
      ∃ root, m = .cancel root ∧ ⟨id, root⟩ ∈ pool.pending := by
  have hsame : ∀ {q : WorkPool n}, q.calls = pool.calls → ∃ new, q.calls = pool.calls ++ new ∧
      ∀ id, (id, none) ∈ new → ∃ root, m = .cancel root ∧ ⟨id, root⟩ ∈ pool.pending :=
    fun hq => ⟨[], by rw [hq, List.append_nil], fun id hid => by cases hid⟩
  cases m with
  | generate root =>
    obtain ⟨_, -, h⟩ := bind_eq_ok h
    obtain rfl := Except.ok.inj h
    exact hsame rfl
  | cancel root =>
    obtain rfl := Except.ok.inj h
    refine ⟨_, cancel_calls pool root, fun id hid => ⟨root, rfl, ?_⟩⟩
    obtain ⟨r, hr, heq⟩ := List.mem_map.mp hid
    obtain ⟨hmem, hroot⟩ := List.mem_filter.mp hr
    obtain rfl : r.id = id := congrArg Prod.fst heq
    obtain rfl : r.root = root := of_decide_eq_true hroot
    exact hmem
  | stop =>
    obtain rfl := Except.ok.inj h
    exact hsame rfl
  | wake t =>
    obtain rfl := Except.ok.inj h
    unfold wake
    split <;> exact hsame rfl
  | step t rng =>
    cases workerStep_of h with
    | answer =>
      refine ⟨_, rfl, fun id hid => ?_⟩
      cases congrArg Prod.snd (List.mem_singleton.mp hid)
    | _ => exact hsame rfl

theorem sound_run (h : Machine.run (apply p) (start n) moves = .ok pool)
    (hlt : pool.changes < 2 ^ 32) : Sound p pool := by
  induction moves using List.reverseRecOn generalizing pool with
  | nil =>
    obtain rfl := Except.ok.inj h
    exact sound_start p n
  | append_singleton moves m ih =>
    rw [Machine.run_append] at h
    obtain ⟨mid, hmid, h⟩ := bind_eq_ok h
    obtain ⟨last, hlast, h⟩ := Machine.run_cons h
    obtain rfl := Except.ok.inj h
    have hmid_lt := (advance_apply hlast).changes.trans_lt hlt
    exact (ih hmid hmid_lt).apply hmid_lt hlast

/-- The cancellation that answered a request with none. -/
theorem exists_cancel (h : Machine.run (apply p) (start n) moves = .ok pool)
    (hlt : pool.changes < 2 ^ 32) {id : ℕ} (hid : (id, none) ∈ pool.calls) :
    ∃ root before rest mid, pool.requests[id]? = some root ∧
      moves = before ++ .cancel root :: rest ∧
      Machine.run (apply p) (start n) before = .ok mid ∧ ⟨id, root⟩ ∈ mid.pending := by
  induction moves using List.reverseRecOn generalizing pool with
  | nil =>
    obtain rfl := Except.ok.inj h
    cases hid
  | append_singleton moves m ih =>
    rw [Machine.run_append] at h
    obtain ⟨mid, hmid, h⟩ := bind_eq_ok h
    obtain ⟨last, hlast, h⟩ := Machine.run_cons h
    obtain rfl := Except.ok.inj h
    have ha := advance_apply hlast
    have hmid_lt := ha.changes.trans_lt hlt
    obtain ⟨new, hcalls, hnew⟩ := calls_apply hlast
    rw [hcalls] at hid
    rcases List.mem_append.mp hid with hid | hid
    · obtain ⟨root, before, rest, mid', hroot, hmoves, hrun, hmem⟩ := ih hmid hmid_lt hid
      exact ⟨root, before, rest ++ [m], mid', ha.requests id root hroot,
        by rw [hmoves]; simp, hrun, hmem⟩
    · obtain ⟨root, rfl, hmem⟩ := hnew id hid
      have hroot := (sound_run hmid hmid_lt).queued _ hmem
      exact ⟨root, moves, [], mid, ha.requests id root hroot, rfl, hmid, hmem⟩

/-! ## Progress -/

/-- Moves of others leave a worker alone that does not wait. -/
theorem workers_apply (h : pool.apply p m = .ok pool') (hm : ¬ ∃ rng, m = .step t rng)
    (hw : pool.workers t ≠ .waiting) : pool'.workers t = pool.workers t := by
  have hnotify : ∀ {q : WorkPool n}, q.workers = pool.workers →
      q.notifyAll.workers t = pool.workers t := by
    intro q hq
    simp only [notifyAll, hq]
  have hother : ∀ {t' : Fin n} {w : Worker}, t' ≠ t →
      (pool.setWorker t' w).workers t = pool.workers t :=
    fun hne => Function.update_of_ne hne.symm _ _
  cases m with
  | generate root =>
    obtain ⟨_, -, h⟩ := bind_eq_ok h
    obtain rfl := Except.ok.inj h
    exact hnotify rfl
  | cancel root =>
    obtain rfl := Except.ok.inj h
    rw [cancel_workers]
  | stop =>
    obtain rfl := Except.ok.inj h
    exact hnotify rfl
  | wake t' =>
    obtain rfl := Except.ok.inj h
    unfold wake
    split
    · rename_i hwaiting
      refine hother fun heq => hw ?_
      rw [← heq, hwaiting]
    · rfl
  | step t' rng =>
    have hne : t' ≠ t := fun heq => hm ⟨rng, by rw [heq]⟩
    cases workerStep_of h with
    | idle => rfl
    | pop => exact Function.update_of_ne hne.symm _ _
    | _ => exact hother hne

/-- A worker that enters the loop while there are requests searches for the front. -/
theorem enter_eq (hne : pool.pending ≠ []) :
    ∃ current, pool.enter = .searching current pool.ticket 0 0 := by
  obtain ⟨current, rest, hpending⟩ := List.exists_cons_of_ne_nil hne
  refine ⟨current, ?_⟩
  unfold enter
  rw [hpending]

theorem not_exited_apply (h : pool.apply p m = .ok pool') (hne : pool.pending ≠ [])
    (hw : pool.workers t ≠ .exited) (hwait : pool.workers t ≠ .waiting) :
    pool'.workers t ≠ .exited := by
  intro hexit
  by_cases hm : ∃ rng, m = .step t rng
  · obtain ⟨rng, rfl⟩ := hm
    have hstep := workerStep_of h
    obtain ⟨first, henter⟩ := enter_eq hne
    cases hold : pool.workers t with
    | ready => cases hexit.symm.trans ((hstep.of_ready hold).trans henter)
    | waiting => exact hwait hold
    | searching current ticket work output =>
      rcases hstep.of_searching hold with ⟨-, -, _, _, hnew⟩ | hnew <;>
        cases hexit.symm.trans hnew
    | leaving current ticket work output =>
      rcases hstep.of_leaving hold with ⟨-, hnew⟩ | ⟨-, hnew⟩
      · cases hexit.symm.trans hnew
      · cases hexit.symm.trans (hnew.trans henter)
    | answering current work => cases hexit.symm.trans (hstep.of_answering hold).1
    | exited => exact hw hold
  · exact hw ((workers_apply h hm hwait).symm.trans hexit)

section Executions

variable (x : Machine.Execution (apply (n := n) p)) {i : ℕ}

/-- Every thread takes its turns. -/
def Fair : Prop := ∀ t, x.Recurs fun m => ∃ rng, m = .step t rng

/-- A search of the thread that does not end finds work. -/
def Succeeds (t : Fin n) : Prop :=
  ∀ i, (∀ j, i ≤ j → ∃ current ticket work output,
      (x.state j).workers t = .searching current ticket work output) →
    ∃ j, i ≤ j ∧ ∃ current ticket work output,
      (x.state j).workers t = .searching current ticket work output ∧ p.publishThreshold ≤ output

variable {x}

theorem exists_workerStep (hfair : Fair x) {w : Worker} (hw : (x.state i).workers t = w)
    (hne : w ≠ .waiting) :
    ∃ j, i ≤ j ∧ (x.state j).workers t = w ∧ WorkerStep p (x.state j) t (x.state (j + 1)) := by
  obtain ⟨j, hij, hj, rng, hm⟩ := Machine.Execution.exists_turn (hfair t)
    (P := fun j => (x.state j).workers t = w) hw
    fun j _ hj hm => (workers_apply (x.next j) hm (hj ▸ hne)).trans hj
  have hstep := x.next j
  rw [hm] at hstep
  exact ⟨j, hij, hj, workerStep_of hstep⟩

/-- From some point on the ticket stays the same and the queue is not empty. -/
structure Stuck (x : Machine.Execution (apply (n := n) p)) (i : ℕ) : Prop where
  ticket : ∀ j, i ≤ j → (x.state j).ticket = (x.state i).ticket
  changes : ∀ j, i ≤ j → (x.state j).changes = (x.state i).changes
  pending : ∀ j, i ≤ j → (x.state j).pending ≠ []

namespace Stuck

variable {j : ℕ} (hstuck : Stuck x i) (hfair : Fair x) (hij : i ≤ j)

include hstuck hfair hij

/-- A worker that has left its search starts a new one, since the ticket would change
otherwise. -/
theorem of_leaving (hw : (x.state j).workers t = .leaving current ticket work output) :
    ticket ≠ (x.state i).ticket ∧ ∃ k, i ≤ k ∧ ∃ first,
      (x.state k).workers t = .searching first (x.state i).ticket 0 0 := by
  obtain ⟨k, hjk, hk, hstep⟩ := exists_workerStep hfair hw fun h => by cases h
  have hik := hij.trans hjk
  rcases hstep.of_leaving hk with ⟨hchanges, -⟩ | ⟨hne, hnew⟩
  · have hsame := (hstuck.changes (k + 1) (Nat.le_succ_of_le hik)).trans
      (hstuck.changes k hik).symm
    omega
  · obtain ⟨first, henter⟩ := enter_eq (hstuck.pending k hik)
    rw [hstuck.ticket k hik] at hne henter
    exact ⟨hne.symm, k + 1, Nat.le_succ_of_le hik, first, hnew.trans henter⟩

/-- A search with the current ticket goes on for ever. -/
theorem searching_forever
    (hw : (x.state j).workers t = .searching current (x.state i).ticket work output) {k : ℕ}
    (hjk : j ≤ k) : ∃ work output,
      (x.state k).workers t = .searching current (x.state i).ticket work output := by
  induction k, hjk using Nat.le_induction with
  | base => exact ⟨work, output, hw⟩
  | succ k hjk ih =>
    obtain ⟨work', output', hk⟩ := ih
    by_cases hm : ∃ rng, x.move k = .step t rng
    · obtain ⟨rng, hm⟩ := hm
      have hstep := x.next k
      rw [hm] at hstep
      rcases (workerStep_of hstep).of_searching hk with ⟨-, -, hnew⟩ | hnew
      · exact hnew
      · exact absurd rfl
          (hstuck.of_leaving hfair (hij.trans (Nat.le_succ_of_le hjk)) hnew).1
    · have hsame := workers_apply (x.next k) hm (by rw [hk]; exact fun h => by cases h)
      exact ⟨work', output', hsame.trans hk⟩

/-- A worker that finds work does not search for a stuck request. -/
theorem not_searching (hfinds : Succeeds x t)
    (hw : (x.state j).workers t = .searching current (x.state i).ticket work output) : False := by
  obtain ⟨k, hjk, current', ticket', work', output', hk, hfound⟩ := hfinds j fun k hjk => by
    obtain ⟨work, output, hk⟩ := hstuck.searching_forever hfair hij hw hjk
    exact ⟨current, _, work, output, hk⟩
  obtain ⟨l, hkl, hl, hstep⟩ := exists_workerStep hfair hk fun h => by cases h
  obtain ⟨_, _, hnext⟩ :=
    hstuck.searching_forever hfair hij hw (hjk.trans (Nat.le_succ_of_le hkl))
  rcases hstep.of_searching hl with ⟨-, hlt, -⟩ | hnew
  · exact absurd hfound (BitVec.not_le.mpr hlt)
  · cases hnext.symm.trans hnew

theorem not_ready (hfinds : Succeeds x t) (hw : (x.state j).workers t = .ready) : False := by
  obtain ⟨k, hjk, hk, hstep⟩ := exists_workerStep hfair hw fun h => by cases h
  have hik := hij.trans hjk
  obtain ⟨first, henter⟩ := enter_eq (hstuck.pending k hik)
  rw [hstuck.ticket k hik] at henter
  exact hstuck.not_searching hfair (Nat.le_succ_of_le hik) hfinds
    ((hstep.of_ready hk).trans henter)

theorem not_leaving (hfinds : Succeeds x t)
    (hw : (x.state j).workers t = .leaving current ticket work output) : False := by
  obtain ⟨-, k, hik, first, hk⟩ := hstuck.of_leaving hfair hij hw
  exact hstuck.not_searching hfair hik hfinds hk

/-- A worker that finds work has to wait or to have given up. -/
theorem idle (hfinds : Succeeds x t) :
    (x.state j).workers t = .waiting ∨ (x.state j).workers t = .exited := by
  cases hw : (x.state j).workers t with
  | ready => exact (hstuck.not_ready hfair hij hfinds hw).elim
  | waiting => exact Or.inl rfl
  | exited => exact Or.inr rfl
  | leaving current ticket work output =>
    exact (hstuck.not_leaving hfair hij hfinds hw).elim
  | answering current work =>
    obtain ⟨k, hjk, hk, hstep⟩ := exists_workerStep hfair hw fun h => by cases h
    exact (hstuck.not_ready hfair (hij.trans (Nat.le_succ_of_le hjk)) hfinds
      (hstep.of_answering hk).1).elim
  | searching current ticket work output =>
    exfalso
    obtain ⟨k, hjk, hk, hstep⟩ := exists_workerStep hfair hw fun h => by cases h
    have hik := hij.trans hjk
    rcases hstep.of_searching hk with ⟨hticket, -⟩ | hnew
    · rw [hstuck.ticket k hik] at hticket
      exact hstuck.not_searching hfair hij hfinds (hticket ▸ hw)
    · exact hstuck.not_leaving hfair (Nat.le_succ_of_le hik) hfinds hnew

end Stuck

variable (hstart : x.state 0 = start n) (hlt : ∀ i, (x.state i).changes < 2 ^ 32)

include hstart hlt

theorem sound_state (i : ℕ) : Sound p (x.state i) := by
  have hrun := x.run_prefix i
  rw [hstart] at hrun
  exact sound_run hrun (hlt i)

/-- A request that is in the queue before `stop` does not stay there. -/
theorem exists_not_queued (hfair : Fair x) (hfinds : Succeeds x t)
    (hdone : (x.state i).done = false) (id : ℕ) :
    ∃ j, i ≤ j ∧ id ∉ (x.state j).pending.map WorkRequest.id := by
  by_contra hall
  push Not at hall
  have hne : ∀ j, i ≤ j → (x.state j).pending ≠ [] := by
    intro j hij hnil
    have hid := hall j hij
    rw [hnil] at hid
    cases hid
  have hmono : Monotone fun j => (x.state j).changes :=
    monotone_nat_of_le_succ fun j => (advance_apply (x.next j)).changes
  obtain ⟨k, hik, hconst⟩ := Machine.exists_constant hmono hlt i
  have hstuck : Stuck x k := by
    refine ⟨fun j hkj => ?_, hconst, fun j hkj => hne j (hik.trans hkj)⟩
    rw [(sound_state hstart hlt j).ticket, (sound_state hstart hlt k).ticket, hconst j hkj]
  have hwaiting : ∀ j, i ≤ j → (x.state j).workers t ≠ .waiting := by
    intro j hij hw
    have hsound := (sound_state hstart hlt j).worker t
    rw [hw] at hsound
    exact hne j hij hsound
  have hexited : ∀ j, i ≤ j → (x.state j).workers t ≠ .exited := by
    intro j hij
    induction j, hij using Nat.le_induction with
    | base =>
      intro hw
      have hsound := (sound_state hstart hlt i).worker t
      rw [hw] at hsound
      exact absurd (hdone.symm.trans hsound) Bool.false_ne_true
    | succ j hij ih => exact not_exited_apply (x.next j) (hne j hij) ih (hwaiting j hij)
  rcases hstuck.idle hfair le_rfl hfinds with hw | hw
  · exact hwaiting k hik hw
  · exact hexited k hik hw

/-- A request that is not in the queue any more is answered. -/
theorem exists_called (hfair : Fair x) {id : ℕ} (hid : id < (x.state i).requests.length)
    (hgone : id ∉ (x.state i).pending.map WorkRequest.id) :
    ∃ j, i ≤ j ∧ id ∈ (x.state j).calls.map Prod.fst := by
  by_cases hcalled : id ∈ (x.state i).calls.map Prod.fst
  · exact ⟨i, le_rfl, hcalled⟩
  · have honce := (sound_state hstart hlt i).once id
    rw [if_pos hid, places, List.count_eq_zero_of_not_mem hgone,
      List.count_eq_zero_of_not_mem hcalled, Nat.zero_add, Nat.add_zero] at honce
    obtain ⟨t, -, ht⟩ := Finset.exists_ne_zero_of_sum_ne_zero
      (show ∑ t, ((x.state i).workers t).owes id ≠ 0 by omega)
    cases hw : (x.state i).workers t with
    | answering current work =>
      rw [hw, owes_answering] at ht
      have hcurrent : current.id = id := by
        by_contra hne
        exact ht (if_neg hne)
      obtain ⟨j, hij, hj, hstep⟩ := exists_workerStep hfair hw fun h => by cases h
      refine ⟨j + 1, Nat.le_succ_of_le hij, ?_⟩
      rw [(hstep.of_answering hj).2, List.map_append, ← hcurrent]
      exact List.mem_append_right _ (List.mem_singleton_self _)
    | _ =>
      rw [hw] at ht
      exact absurd rfl ht

/-- A request made before `stop` is answered once. -/
theorem exists_answered (hfair : Fair x) (hfinds : Succeeds x t) {root : BlockHash}
    (hmove : x.move i = .generate root) (hdone : (x.state i).done = false) :
    ∃ j, ∀ k, j ≤ k →
      ((x.state k).calls.map Prod.fst).count (x.state i).requests.length = 1 := by
  have hnext := x.next i
  rw [hmove] at hnext
  obtain ⟨_, -, hnext⟩ := bind_eq_ok hnext
  have hnext := (Except.ok.inj hnext).symm
  have hmade : ∀ j, i + 1 ≤ j →
      (x.state j).requests[(x.state i).requests.length]? = some root := by
    intro j hij
    induction j, hij using Nat.le_induction with
    | base =>
      rw [hnext]
      exact List.getElem?_concat_length
    | succ j hij ih => exact (advance_apply (x.next j)).requests _ _ ih
  obtain ⟨j, hij, hgone⟩ := exists_not_queued hstart hlt hfair hfinds
    (show (x.state (i + 1)).done = false by rw [hnext]; exact hdone) (x.state i).requests.length
  obtain ⟨k, hjk, hcalled⟩ := exists_called hstart hlt hfair
    (List.getElem?_eq_some_iff.mp (hmade j hij)).1 hgone
  refine ⟨k, fun l hkl => ?_⟩
  have hstays : (x.state i).requests.length ∈ (x.state l).calls.map Prod.fst := by
    induction l, hkl using Nat.le_induction with
    | base => exact hcalled
    | succ l hkl ih =>
      obtain ⟨new, hcalls, -⟩ := calls_apply (x.next l)
      rw [hcalls, List.map_append]
      exact List.mem_append_left _ ih
  exact List.count_eq_one_of_mem (nodup_calls (sound_state hstart hlt l)) hstays

end Executions

end WorkPool

/-- **Each work request is answered once and for its own root.** With any number of
threads and after any interleaving of calls and steps with fewer than 2 ^ 32 changes of
the ticket, no assertion of a worker fails, no callback has been called twice, each
call has work that is valid for the root of the request, or none if that root was
cancelled while the request was in the queue. And in every infinite run in which all
threads take their turns and some worker finds work when it searches long enough, each
request made before `stop` is answered exactly once. -/
theorem work_requests_answered (p : NodeEnv) (n : ℕ) :
    (∀ moves (pool : WorkPool n),
      Machine.run (WorkPool.apply p) (.start n) moves = .ok pool → pool.changes < 2 ^ 32 →
      (∀ t rng, ∃ pool', pool.apply p (.step t rng) = .ok pool') ∧ (pool.calls.map Prod.fst).Nodup ∧
      (∀ id work, (id, some work) ∈ pool.calls →
        ∃ root, pool.requests[id]? = some root ∧ p.workValidate root work = false) ∧
      ∀ id, (id, none) ∈ pool.calls → ∃ root before rest mid,
        pool.requests[id]? = some root ∧ moves = before ++ .cancel root :: rest ∧
        Machine.run (WorkPool.apply p) (.start n) before = .ok mid ∧ ⟨id, root⟩ ∈ mid.pending) ∧
    ∀ x : Machine.Execution (WorkPool.apply (n := n) p), x.state 0 = .start n →
      (∀ i, (x.state i).changes < 2 ^ 32) → WorkPool.Fair x → (∃ t, WorkPool.Succeeds x t) →
      ∀ i root, x.move i = .generate root → (x.state i).done = false →
        ∃ j, ∀ k, j ≤ k →
          ((x.state k).calls.map Prod.fst).count (x.state i).requests.length = 1 := by
  refine ⟨fun moves pool hrun hlt => ?_, ?_⟩
  · have hs := WorkPool.sound_run hrun hlt
    exact ⟨hs.stepWorker_ok hlt, WorkPool.nodup_calls hs, hs.answered,
      fun id hid => WorkPool.exists_cancel hrun hlt hid⟩
  · rintro x hstart hlt hfair ⟨t, hfinds⟩ i root hmove hdone
    exact WorkPool.exists_answered hstart hlt hfair hfinds hmove hdone

namespace Working

/-- Every work value passes. -/
def env : NodeEnv :=
  ⟨⟨fun _ => 0, fun _ _ _ => false, .raiTestNetwork, false⟩, fun _ _ => BitVec.allOnes 64⟩

/-- One request, and then the only worker goes on for ever. -/
def move : ℕ → WorkPool.Move 1
  | 0 => .generate 1
  | _ + 1 => .step 0 fun _ => 0

def state : ℕ → WorkPool 1
  | 0 => .start 1
  | i + 1 => ((state i).apply env (move i)).toOption.getD (.start 1)

theorem state_rest (d : ℕ) : state (7 + d) = state 7 := by
  induction d with
  | zero => rfl
  | succ d ih =>
    have hnext : state (7 + d + 1) =
        ((state (7 + d)).apply env (.step 0 fun _ => 0)).toOption.getD (.start 1) := by
      rw [state, show 7 + d = (6 + d) + 1 by omega]
      rfl
    rw [← Nat.add_assoc, hnext, ih]
    rfl

theorem next (i : ℕ) : (state i).apply env (move i) = .ok (state (i + 1)) := by
  rcases Nat.lt_or_ge i 7 with hi | hi
  · interval_cases i <;> rfl
  · obtain ⟨d, rfl⟩ := Nat.exists_eq_add_of_le hi
    rw [show 7 + d + 1 = 7 + (d + 1) by omega, state_rest, state_rest,
      show 7 + d = (6 + d) + 1 by omega]
    rfl

def execution : Machine.Execution (WorkPool.apply (n := 1) env) := ⟨state, move, next⟩

theorem changes_lt (i : ℕ) : (state i).changes < 2 ^ 32 := by
  rcases Nat.lt_or_ge i 7 with hi | hi
  · interval_cases i <;> decide
  · obtain ⟨d, rfl⟩ := Nat.exists_eq_add_of_le hi
    rw [state_rest]
    decide

theorem fair : WorkPool.Fair execution := by
  intro t i
  refine ⟨i + 1, Nat.le_succ i, fun _ => 0, ?_⟩
  rw [Subsingleton.elim t 0]
  rfl

theorem succeeds : WorkPool.Succeeds execution 0 := by
  intro i hall
  obtain ⟨current, ticket, work, output, hw⟩ := hall (7 + i) (Nat.le_add_left i 7)
  have hrest : (state (7 + i)).workers 0 = .waiting := by
    rw [state_rest]
    rfl
  cases hrest.symm.trans hw

end Working

/-- The request of this run is answered once, and no assertion fails on the way. -/
theorem work_requests_answered_working :
    (∀ i t rng, ∃ pool, (Working.state i).apply Working.env (.step t rng) = .ok pool) ∧
    ∃ j, ∀ k, j ≤ k → ((Working.state k).calls.map Prod.fst).count 0 = 1 := by
  obtain ⟨hsafe, hlive⟩ := work_requests_answered Working.env 1
  refine ⟨fun i => ?_, ?_⟩
  · have hrun := Working.execution.run_prefix i
    exact (hsafe _ _ hrun (Working.changes_lt i)).1
  · exact hlive Working.execution rfl Working.changes_lt Working.fair ⟨0, Working.succeeds⟩ 0 1
      rfl rfl

end RaiBlocks
