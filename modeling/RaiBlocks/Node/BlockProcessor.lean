import RaiBlocks.Ledger.Run
import Mathlib.Data.List.Sort

/-!
# The block processor

Translation of `block_processor` and of the parts of `node` and `block_store`
that it works with: the work check, the record of recently arrived blocks, the
table of unchecked blocks with its cache, and `ledger::successor` and
`ledger::block_source`.

`process_receive_many` gives up its lock while it handles a block, so other
threads may queue blocks between any two of its steps. `NodeStep` cuts it at the
places where the lock is taken. Elections, gap votes, logging and the gap cache
do not act on the ledger or on the queues and are left out.
-/

namespace RaiBlocks

open Foundation

/-! ## Work -/

/-- With the work function, another Blake2b hash of which nothing is assumed. -/
structure NodeEnv extends Env where
  workValue : BlockHash → Work → BitVec 64

def NodeEnv.publishThreshold (p : NodeEnv) : BitVec 64 :=
  match p.network with
  | .raiTestNetwork => 0xff00000000000000
  | _ => 0xffffffc000000000

/-- `work_validate`: true on error. -/
def NodeEnv.workValidate (p : NodeEnv) (root : BlockHash) (work : Work) : Bool :=
  p.workValue root work < p.publishThreshold

def Block.blockWork : Block → Work
  | .sendBlock b => b.work
  | .receiveBlock b => b.work
  | .openBlock b => b.work
  | .changeBlock b => b.work
  | .stateBlock b => b.work

/-- The work of the block passes the check. -/
def Block.Worked (p : NodeEnv) (b : Block) : Prop := p.workValidate b.root b.blockWork = false

instance (p : NodeEnv) (b : Block) : Decidable (b.Worked p) :=
  inferInstanceAs (Decidable (_ = _))

/-! ## Recently arrived blocks -/

/-- The index by arrival time of `block_arrival`, in nanoseconds. -/
abbrev BlockArrival : Type := List (ℤ × BlockHash)

namespace BlockArrival

def arrivalSizeMin : ℕ := 8 * 1024

def arrivalTimeMin : ℤ := 300 * 1000000000

def find (arrival : BlockArrival) (h : BlockHash) : Bool := arrival.any fun x => x.2 = h

/-- The returned flag is true when the block has already been inserted. -/
def add (arrival : BlockArrival) (now : ℤ) (h : BlockHash) : BlockArrival × Bool :=
  if arrival.find h then (arrival, true)
  else (arrival.orderedInsert (fun x y => x.1 < y.1) (now, h), false)

/-- The loop at the start of `recent`. -/
def prune (now : ℤ) : BlockArrival → BlockArrival
  | [] => []
  | x :: rest =>
    if (x :: rest).length > arrivalSizeMin ∧ x.1 + arrivalTimeMin < now then prune now rest
    else x :: rest

def recent (arrival : BlockArrival) (now : ℤ) (h : BlockHash) : BlockArrival × Bool :=
  (arrival.prune now, (arrival.prune now).find h)

end BlockArrival

/-! ## Queries of the ledger -/

namespace Ledger

/-- The block that stands on `root`, if any. -/
def successor (s : BlockStore) (root : Uint256) : Except Fault (Option Block) := do
  let successor := match s.accountGet root with
    | some info => info.openBlock
    | none => s.blockSuccessor root
  let result := if successor ≠ 0 then s.blockGet successor else none
  assertThat (successor = 0 || result.isSome)
  return result

def isSend (p : Env) (s : BlockStore) (b : StateBlock) : Except Fault Bool :=
  if b.hashables.previous ≠ 0 then do
    let balance ← balance p s b.hashables.previous
    return decide (b.hashables.balance < balance)
  else .ok false

/-- The key under which a block without its source waits. -/
def blockSource (p : Env) (s : BlockStore) : Block → Except Fault BlockHash
  | .receiveBlock b => .ok b.hashables.source
  | .openBlock b => .ok b.hashables.source
  | .stateBlock b => do
    let send ← isSend p s b
    return if send then 0 else b.hashables.link
  | _ => .ok 0

end Ledger

/-! ## The node -/

/-- What the processor works on. `unchecked` is the table, as the pairs of a key
and a block; both queues have their front first. -/
structure Node where
  store : BlockStore
  uncheckedCache : List (BlockHash × Block)
  unchecked : List (BlockHash × Block)
  blocks : List Block
  forced : List Block
  arrival : BlockArrival

/-- The results after which `queue_unchecked` is called. -/
def ProcessResult.releases : ProcessResult → Bool
  | .progress => true
  | .old => true
  | _ => false

/-- The two clocks that are read while a block is handled. -/
structure Clock where
  secondsSinceEpoch : ℕ
  steady : ℤ

namespace Node

/-! ### Unchecked blocks -/

/-- Everything that waits, with its keys. -/
def waiting (n : Node) : List (BlockHash × Block) := n.uncheckedCache ++ n.unchecked

def uncheckedGet (n : Node) (h : BlockHash) : List Block :=
  (n.uncheckedCache.filter fun x => x.1 = h).map Prod.snd ++
    (n.unchecked.filter fun x => x.1 = h).map Prod.snd

/-- A block is put unless one with its hash is there already. -/
def uncheckedPut (p : NodeEnv) (n : Node) (h : BlockHash) (b : Block) : Node :=
  if (n.uncheckedGet h).any fun x => x.hash p.toEnv = b.hash p.toEnv then n
  else { n with uncheckedCache := (h, b) :: n.uncheckedCache }

def uncheckedDel (n : Node) (h : BlockHash) (b : Block) : Node :=
  { n with
    uncheckedCache := n.uncheckedCache.filter fun x => x ≠ (h, b)
    unchecked := n.unchecked.filter fun x => x ≠ (h, b) }

/-- `block_store::flush` writes the cache to the table. -/
def flush (n : Node) : Node :=
  { n with uncheckedCache := [], unchecked := n.uncheckedCache ++ n.unchecked }

/-! ### Queueing -/

def add (p : NodeEnv) (n : Node) (b : Block) : Except Fault Node :=
  if !p.workValidate b.root b.blockWork then .ok { n with blocks := b :: n.blocks }
  else .error .assertion

def force (n : Node) (b : Block) : Node := { n with forced := b :: n.forced }

/-- `node::process_active`. -/
def processActive (p : NodeEnv) (now : ℤ) (n : Node) (b : Block) : Except Fault Node :=
  let (arrival, known) := n.arrival.add now (b.hash p.toEnv)
  if !known then { n with arrival := arrival }.add p b else .ok { n with arrival := arrival }

/-! ### Processing -/

/-- `node::process_fork`: the competing block is looked up for an election. -/
def processFork (p : NodeEnv) (n : Node) (b : Block) : Except Fault Unit :=
  if !n.store.blockExists (b.hash p.toEnv) &&
      (n.store.blockExists b.root || n.store.accountExists b.root) then do
    let _ ← Ledger.forkedBlock p.toEnv n.store b
    return ()
  else .ok ()

/-- `process_receive_one` up to `queue_unchecked`. -/
def judge (p : NodeEnv) (c : Clock) (n : Node) (b : Block) :
    Except Fault (Node × ProcessResult) := do
  let (store, ret) ← Ledger.process p.toEnv c.secondsSinceEpoch n.store b
  let n := { n with store := store }
  match ret.code with
  | .progress =>
    return ({ n with arrival := (n.arrival.recent c.steady (b.hash p.toEnv)).1 }, .progress)
  | .gapPrevious => return (n.uncheckedPut p b.previous b, .gapPrevious)
  | .gapSource => do
    let source ← Ledger.blockSource p.toEnv n.store b
    return (n.uncheckedPut p source b, .gapSource)
  | .fork =>
    let recent := n.arrival.recent c.steady (b.hash p.toEnv)
    let n := { n with arrival := recent.1 }
    -- Only blocks that did not arrive via UDP
    if !recent.2 then n.processFork p b
    return (n, .fork)
  | code => return (n, code)

/-- One iteration of `queue_unchecked`. -/
def release (p : NodeEnv) (h : BlockHash) (n : Node) (b : Block) : Except Fault Node :=
  (n.uncheckedDel h b).add p b

def queueUnchecked (p : NodeEnv) (n : Node) (h : BlockHash) : Except Fault Node :=
  (n.uncheckedGet h).foldlM (release p h) n

def processReceiveOne (p : NodeEnv) (c : Clock) (n : Node) (b : Block) : Except Fault Node := do
  let (n, code) ← n.judge p c b
  if code.releases then n.queueUnchecked p (b.hash p.toEnv) else return n

/-- Replace our block with the winner and roll back any dependent blocks. -/
def replace (p : NodeEnv) (c : Clock) (n : Node) (b : Block) : Except Fault Node := do
  match ← Ledger.successor n.store b.root with
  | none => return n
  | some successor =>
    if successor.hash p.toEnv ≠ b.hash p.toEnv then do
      let store ← Ledger.rollback p.toEnv c.secondsSinceEpoch n.store (successor.hash p.toEnv)
      return { n with store := store }
    else return n

/-- What `process_receive_many` does with a block. -/
def receive (p : NodeEnv) (c : Clock) (n : Node) (b : Block) (force : Bool) :
    Except Fault Node := do
  let n ← if force then n.replace p c b else pure n
  n.processReceiveOne p c b

/-- The next block: a forced one if there is any. -/
def front (n : Node) : Option (Block × Bool × Node) :=
  match n.forced with
  | b :: rest => some (b, true, { n with forced := rest })
  | [] =>
    match n.blocks with
    | b :: rest => some (b, false, { n with blocks := rest })
    | [] => none

/-- The loop of `process_receive_many`, with the number of blocks it still takes
and the clocks it will read. -/
def receiveLoop (p : NodeEnv) (clock : ℕ → Clock) : ℕ → Node → Except Fault Node
  | 0, n => .ok n
  | count + 1, n =>
    match n.front with
    | none => .ok n
    | some (b, force, n) => do
      let n ← n.receive p (clock count) b force
      receiveLoop p clock count n

/-- Up to 16384 blocks are handled in one write transaction. -/
def processReceiveMany (p : NodeEnv) (clock : ℕ → Clock) (n : Node) : Except Fault Node :=
  n.receiveLoop p clock 16384

end Node

/-! ## Interleaving -/

/-- Where `process_receive_many` is when it does not hold the lock. -/
inductive Stage where
  | idle
  | taken (b : Block) (force : Bool)
  | releasing (h : BlockHash) (rest : List Block)

structure NodeState where
  node : Node
  stage : Stage

def NodeState.AtRest (σ : NodeState) : Prop :=
  σ.node.blocks = [] ∧ σ.node.forced = [] ∧ σ.stage = .idle

/-- Handle a block up to `queue_unchecked`. -/
def Node.handle (p : NodeEnv) (c : Clock) (n : Node) (b : Block) (force : Bool) :
    Except Fault (Node × ProcessResult) := do
  let n ← if force then n.replace p c b else pure n
  n.judge p c b

/-- One step of `process_receive_many`. The cache is a hash map, so what waits is
released in any order. -/
inductive NodeStep (p : NodeEnv) : NodeState → NodeState → Prop
  | take {n n' : Node} {b : Block} {force : Bool} : n.front = some (b, force, n') →
      NodeStep p ⟨n, .idle⟩ ⟨n', .taken b force⟩
  | settle {n n' : Node} {b : Block} {force : Bool} {code : ProcessResult} (c : Clock) :
      n.handle p c b force = .ok (n', code) → code.releases = false →
      NodeStep p ⟨n, .taken b force⟩ ⟨n', .idle⟩
  | unlock {n n' : Node} {b : Block} {force : Bool} {code : ProcessResult} {l : List Block}
      (c : Clock) : n.handle p c b force = .ok (n', code) → code.releases = true →
      l.Perm (n'.uncheckedGet (b.hash p.toEnv)) →
      NodeStep p ⟨n, .taken b force⟩ ⟨n', .releasing (b.hash p.toEnv) l⟩
  | release {n n' : Node} {h : BlockHash} {b : Block} {rest : List Block} :
      n.release p h b = .ok n' → NodeStep p ⟨n, .releasing h (b :: rest)⟩ ⟨n', .releasing h rest⟩
  | finish {n : Node} {h : BlockHash} : NodeStep p ⟨n, .releasing h []⟩ ⟨n, .idle⟩

/-- An assertion or another fault stops the processor. -/
inductive NodeState.Fails (p : NodeEnv) : NodeState → Prop
  | handle {n : Node} {b : Block} {force : Bool} {fault : Fault} (c : Clock) :
      n.handle p c b force = .error fault → Fails p ⟨n, .taken b force⟩
  | release {n : Node} {h : BlockHash} {b : Block} {rest : List Block} {fault : Fault} :
      n.release p h b = .error fault → Fails p ⟨n, .releasing h (b :: rest)⟩

/-- How blocks come in. -/
inductive Input where
  | add (b : Block)
  | active (now : ℤ) (b : Block)

def Node.give (p : NodeEnv) (n : Node) : Input → Except Fault Node
  | .add b => n.add p b
  | .active now b => n.processActive p now b

/-- A run from `σ₀` with the listed inputs, each at any moment. The cache is
flushed in a write transaction of its own, so never while a block is handled. -/
inductive NodeRun (p : NodeEnv) (σ₀ : NodeState) : List Input → NodeState → Prop
  | start : NodeRun p σ₀ [] σ₀
  | give {inputs : List Input} {n n' : Node} {stage : Stage} (i : Input) :
      NodeRun p σ₀ inputs ⟨n, stage⟩ → n.give p i = .ok n' →
      NodeRun p σ₀ (inputs ++ [i]) ⟨n', stage⟩
  | step {inputs : List Input} {σ σ' : NodeState} :
      NodeRun p σ₀ inputs σ → NodeStep p σ σ' → NodeRun p σ₀ inputs σ'
  | flush {inputs : List Input} {n : Node} :
      NodeRun p σ₀ inputs ⟨n, .idle⟩ → NodeRun p σ₀ inputs ⟨n.flush, .idle⟩

/-- However the processor goes on from `σ`, it gets to `Q` without a failure. -/
inductive Leads (p : NodeEnv) (Q : NodeState → Prop) : NodeState → Prop
  | now {σ : NodeState} : Q σ → Leads p Q σ
  | later {σ : NodeState} : ¬ σ.AtRest → ¬ σ.Fails p → (∀ σ', NodeStep p σ σ' → Leads p Q σ') →
      Leads p Q σ

/-! ## Unchecked blocks, looked up -/

section Unchecked

variable {p : NodeEnv} {n n' : Node} {h k : BlockHash} {b x : Block}

theorem Node.mem_uncheckedGet : b ∈ n.uncheckedGet h ↔ (h, b) ∈ n.waiting := by
  simp [Node.uncheckedGet, Node.waiting]

theorem Node.mem_waiting_uncheckedDel :
    (k, x) ∈ (n.uncheckedDel h b).waiting ↔ (k, x) ∈ n.waiting ∧ (k, x) ≠ (h, b) := by
  simp only [Node.uncheckedDel, Node.waiting, List.mem_append, List.mem_filter, decide_eq_true_eq]
  tauto

/-- A block is put, or a block with its hash is there. -/
theorem Node.uncheckedPut_cases (p : NodeEnv) (n : Node) (h : BlockHash) (b : Block) :
    (n.uncheckedPut p h b = n ∧ ∃ x, (h, x) ∈ n.waiting ∧ x.hash p.toEnv = b.hash p.toEnv) ∨
    n.uncheckedPut p h b = { n with uncheckedCache := (h, b) :: n.uncheckedCache } := by
  unfold Node.uncheckedPut
  split
  · rename_i hany
    obtain ⟨x, hx, hhash⟩ := List.any_eq_true.mp hany
    exact Or.inl ⟨rfl, x, Node.mem_uncheckedGet.mp hx, of_decide_eq_true hhash⟩
  · exact Or.inr rfl

theorem Node.uncheckedPut_of_mem (hx : (h, x) ∈ n.waiting)
    (hhash : x.hash p.toEnv = b.hash p.toEnv) : n.uncheckedPut p h b = n := by
  unfold Node.uncheckedPut
  apply if_pos
  exact List.any_eq_true.mpr ⟨x, Node.mem_uncheckedGet.mpr hx, decide_eq_true hhash⟩

@[simp] theorem Node.uncheckedPut_store : (n.uncheckedPut p h b).store = n.store := by
  unfold Node.uncheckedPut
  split <;> rfl

theorem Node.add_eq (hb : b.Worked p) : n.add p b = .ok { n with blocks := b :: n.blocks } := by
  unfold Node.add
  rw [show p.workValidate b.root b.blockWork = false from hb]
  rfl

theorem Node.of_add (hadd : n.add p b = .ok n') :
    b.Worked p ∧ n' = { n with blocks := b :: n.blocks } := by
  unfold Node.add at hadd
  split at hadd
  · rename_i hw
    exact ⟨Bool.not_eq_eq_eq_not.mp hw, (Except.ok.inj hadd).symm⟩
  · cases hadd

end Unchecked

/-! ## Arrival -/

section Arrival

variable {p : NodeEnv} {n n' : Node} {b : Block} {now : ℤ}

theorem BlockArrival.find_orderedInsert (arrival : BlockArrival) (now : ℤ) (h : BlockHash) :
    BlockArrival.find (arrival.orderedInsert (fun x y => x.1 < y.1) (now, h)) h = true := by
  apply List.any_eq_true.mpr
  exact ⟨(now, h), (List.mem_orderedInsert _).mpr (Or.inl rfl), decide_eq_true rfl⟩

theorem Node.processActive_known (hknown : n.arrival.find (b.hash p.toEnv) = true) :
    n.processActive p now b = .ok n := by
  unfold Node.processActive BlockArrival.add
  rw [if_pos hknown]
  rfl

theorem Node.processActive_new (hnew : n.arrival.find (b.hash p.toEnv) = false)
    (hb : b.Worked p) (now : ℤ) :
    ∃ arrival : BlockArrival, arrival.find (b.hash p.toEnv) = true ∧
      n.processActive p now b = .ok { n with blocks := b :: n.blocks, arrival := arrival } := by
  refine ⟨_, BlockArrival.find_orderedInsert n.arrival now _, ?_⟩
  unfold Node.processActive BlockArrival.add
  rw [hnew]
  exact Node.add_eq hb

theorem Node.of_processActive (hrun : n.processActive p now b = .ok n') :
    n.arrival.find (b.hash p.toEnv) = true ∧ n' = n ∨
    n.arrival.find (b.hash p.toEnv) = false ∧ b.Worked p ∧
      ∃ arrival : BlockArrival, arrival.find (b.hash p.toEnv) = true ∧
        n' = { n with blocks := b :: n.blocks, arrival := arrival } := by
  cases hfind : n.arrival.find (b.hash p.toEnv) with
  | true =>
    rw [Node.processActive_known hfind] at hrun
    exact Or.inl ⟨rfl, (Except.ok.inj hrun).symm⟩
  | false =>
    unfold Node.processActive BlockArrival.add at hrun
    rw [hfind] at hrun
    obtain ⟨hb, rfl⟩ := Node.of_add hrun
    exact Or.inr ⟨rfl, hb, _, BlockArrival.find_orderedInsert n.arrival now _, rfl⟩

end Arrival

/-! ## What handling a block leaves alone -/

section Frame

variable {p : NodeEnv} {n n' : Node} {b : Block} {h : BlockHash}

/-- `b` may be put aside; nothing else happens to the queues and the unchecked
blocks. -/
structure Node.Framed (n n' : Node) (b : Block) : Prop where
  blocks : n'.blocks = n.blocks
  forced : n'.forced = n.forced
  waiting : ∀ x ∈ n'.waiting, x ∈ n.waiting ∨ x.2 = b

theorem Node.uncheckedPut_framed (s : BlockStore) :
    n.Framed (Node.uncheckedPut p { n with store := s } h b) b := by
  rcases Node.uncheckedPut_cases p { n with store := s } h b with ⟨hput, _⟩ | hput
  · rw [hput]
    exact ⟨rfl, rfl, fun x hx => Or.inl hx⟩
  · rw [hput]
    refine ⟨rfl, rfl, fun x hx => ?_⟩
    rcases List.mem_cons.mp hx with rfl | hx
    · exact Or.inr rfl
    · exact Or.inl hx

/-- The ledger is changed by `process` alone. -/
theorem Node.of_judge {c : Clock} {code : ProcessResult}
    (hrun : n.judge p c b = .ok (n', code)) :
    (∃ ret, Ledger.process p.toEnv c.secondsSinceEpoch n.store b = .ok (n'.store, ret) ∧
      ret.code = code) ∧ n.Framed n' b := by
  unfold Node.judge at hrun
  obtain ⟨⟨s, ret⟩, hprocess, hrun⟩ := bind_eq_ok hrun
  rw [hprocess]
  dsimp only at hrun
  split at hrun
  · rename_i hcode
    cases hrun
    exact ⟨⟨ret, rfl, hcode⟩, rfl, rfl, fun x hx => Or.inl hx⟩
  · rename_i hcode
    cases hrun
    exact ⟨⟨ret, by rw [Node.uncheckedPut_store], hcode⟩, Node.uncheckedPut_framed s⟩
  · rename_i hcode
    obtain ⟨source, _, hrun⟩ := bind_eq_ok hrun
    cases hrun
    exact ⟨⟨ret, by rw [Node.uncheckedPut_store], hcode⟩, Node.uncheckedPut_framed s⟩
  · rename_i hcode
    split at hrun
    · obtain ⟨_, _, hrun⟩ := bind_eq_ok hrun
      cases hrun
      exact ⟨⟨ret, rfl, hcode⟩, rfl, rfl, fun x hx => Or.inl hx⟩
    · cases hrun
      exact ⟨⟨ret, rfl, hcode⟩, rfl, rfl, fun x hx => Or.inl hx⟩
  · cases hrun
    exact ⟨⟨ret, rfl, rfl⟩, rfl, rfl, fun x hx => Or.inl hx⟩

end Frame

/-! ## Runs without other threads -/

section Runs

variable {p : NodeEnv} {σ σ' σ₀ : NodeState} {Q : NodeState → Prop} {inputs : List Input}
  {n n' : Node} {b : Block} {clock : ℕ → Clock}

theorem NodeState.exists_step (hrest : ¬ σ.AtRest) (hfails : ¬ σ.Fails p) :
    ∃ σ', NodeStep p σ σ' := by
  obtain ⟨n, stage⟩ := σ
  cases stage with
  | idle =>
    cases hf : n.front with
    | some x =>
      obtain ⟨b, force, n'⟩ := x
      exact ⟨_, .take hf⟩
    | none =>
      refine absurd ⟨?_, ?_, rfl⟩ hrest
      · cases hb : n.blocks with
        | nil => rfl
        | cons b rest => cases hforced : n.forced <;> simp [Node.front, hb, hforced] at hf
      · cases hforced : n.forced with
        | nil => rfl
        | cons b rest => simp [Node.front, hforced] at hf
  | taken b force =>
    cases hr : n.handle p ⟨0, 0⟩ b force with
    | error fault => exact absurd (.handle _ hr) hfails
    | ok r =>
      obtain ⟨n', code⟩ := r
      cases hcode : code.releases with
      | false => exact ⟨_, .settle _ hr hcode⟩
      | true => exact ⟨_, .unlock _ hr hcode (List.Perm.refl _)⟩
  | releasing h rest =>
    cases rest with
    | nil => exact ⟨_, .finish⟩
    | cons b rest =>
      cases hr : n.release p h b with
      | error fault => exact absurd (.release hr) hfails
      | ok n' => exact ⟨_, .release hr⟩

theorem Leads.exists_run (hl : Leads p Q σ) :
    ∃ σ', Relation.ReflTransGen (NodeStep p) σ σ' ∧ Q σ' := by
  induction hl with
  | now hq => exact ⟨_, .refl, hq⟩
  | later hrest hfails _ ih =>
    obtain ⟨σ₁, hstep⟩ := NodeState.exists_step hrest hfails
    obtain ⟨σ', hrun, hq⟩ := ih σ₁ hstep
    exact ⟨σ', .head hstep hrun, hq⟩

theorem Leads.mono {Q' : NodeState → Prop} (hl : Leads p Q σ) (hQ : ∀ τ, Q τ → Q' τ) :
    Leads p Q' σ := by
  induction hl with
  | now hq => exact .now (hQ _ hq)
  | later hrest hfails _ ih => exact .later hrest hfails ih

theorem Leads.of_atRest (hl : Leads p Q σ) (hrest : σ.AtRest) : Q σ := by
  cases hl with
  | now hq => exact hq
  | later hn _ _ => exact absurd hrest hn

theorem NodeRun.steps (hrun : NodeRun p σ₀ inputs σ)
    (hsteps : Relation.ReflTransGen (NodeStep p) σ σ') : NodeRun p σ₀ inputs σ' := by
  induction hsteps with
  | refl => exact hrun
  | tail _ hstep ih => exact ih.step hstep

theorem NodeRun.add {stage : Stage} (hrun : NodeRun p σ₀ inputs ⟨n, stage⟩) (hb : b.Worked p) :
    NodeRun p σ₀ (inputs ++ [.add b]) ⟨{ n with blocks := b :: n.blocks }, stage⟩ :=
  hrun.give (.add b) (Node.add_eq hb)

/-- Without forced blocks, the last one queued is taken first. -/
theorem Node.front_cons (hforced : n.forced = []) (b : Block) :
    Node.front { n with blocks := b :: n.blocks } = some (b, false, n) := by
  unfold Node.front
  simp only [hforced]
  rw [← hforced]

/-- A block that is queued, handled and put aside or dropped. -/
theorem NodeRun.add_settled {c : Clock} {code : ProcessResult}
    (hrun : NodeRun p σ₀ inputs ⟨n, .idle⟩) (hforced : n.forced = []) (hb : b.Worked p)
    (hjudge : n.judge p c b = .ok (n', code)) (hcode : code.releases = false) :
    NodeRun p σ₀ (inputs ++ [.add b]) ⟨n', .idle⟩ :=
  ((hrun.add hb).step (.take (Node.front_cons hforced b))).step (.settle c hjudge hcode)

theorem Node.receive_eq (p : NodeEnv) (c : Clock) (n : Node) (b : Block) (force : Bool) :
    n.receive p c b force = (n.handle p c b force >>= fun r =>
      if r.2.releases then r.1.queueUnchecked p (b.hash p.toEnv) else .ok r.1) := by
  unfold Node.receive Node.handle Node.processReceiveOne
  cases force with
  | false => rfl
  | true =>
    dsimp only
    rw [if_pos rfl, if_pos rfl]
    cases n.replace p c b <;> rfl

theorem release_steps {h : BlockHash} : ∀ {l : List Block} {n n' : Node},
    l.foldlM (Node.release p h) n = .ok n' →
    Relation.ReflTransGen (NodeStep p) ⟨n, .releasing h l⟩ ⟨n', .idle⟩ := by
  intro l
  induction l with
  | nil =>
    intro n n' hrun
    cases hrun
    exact .single .finish
  | cons b l ih =>
    intro n n' hrun
    rw [List.foldlM_cons] at hrun
    obtain ⟨n₁, hrel, hrest⟩ := bind_eq_ok hrun
    exact .head (.release hrel) (ih hrest)

/-- Handling a block in one go is one way through the steps. -/
theorem receive_steps {c : Clock} {force : Bool} (hrun : n.receive p c b force = .ok n') :
    Relation.ReflTransGen (NodeStep p) ⟨n, .taken b force⟩ ⟨n', .idle⟩ := by
  rw [Node.receive_eq] at hrun
  obtain ⟨⟨n₁, code⟩, hhandle, hrest⟩ := bind_eq_ok hrun
  cases hcode : code.releases with
  | false =>
    simp only [hcode, Bool.false_eq_true, if_false] at hrest
    cases hrest
    exact .single (.settle c hhandle hcode)
  | true =>
    simp only [hcode, if_true] at hrest
    exact .head (.unlock c hhandle hcode (List.Perm.refl _)) (release_steps hrest)

theorem receiveLoop_steps : ∀ {count : ℕ} {n n' : Node}, n.receiveLoop p clock count = .ok n' →
    Relation.ReflTransGen (NodeStep p) ⟨n, .idle⟩ ⟨n', .idle⟩ := by
  intro count
  induction count with
  | zero =>
    intro n n' hrun
    cases hrun
    exact .refl
  | succ count ih =>
    intro n n' hrun
    unfold Node.receiveLoop at hrun
    cases hf : n.front with
    | none =>
      rw [hf] at hrun
      cases hrun
      exact .refl
    | some x =>
      obtain ⟨b, force, n₁⟩ := x
      rw [hf] at hrun
      obtain ⟨n₂, hreceive, hrest⟩ := bind_eq_ok hrun
      exact .head (.take hf) ((receive_steps hreceive).trans (ih hrest))

/-- **The code in one go is one way through the steps.** -/
theorem processReceiveMany_steps (hrun : n.processReceiveMany p clock = .ok n') :
    Relation.ReflTransGen (NodeStep p) ⟨n, .idle⟩ ⟨n', .idle⟩ :=
  receiveLoop_steps hrun

/-- Each input is dealt with before the next one comes. -/
def Node.serve (p : NodeEnv) (clock : ℕ → Clock) : List Input → Node → Except Fault Node
  | [], n => .ok n
  | i :: inputs, n => do
    let n ← n.give p i
    let n ← n.processReceiveMany p clock
    serve p clock inputs n

theorem NodeRun.serve : ∀ {l inputs : List Input} {n n' : Node},
    NodeRun p σ₀ inputs ⟨n, .idle⟩ → n.serve p clock l = .ok n' →
    NodeRun p σ₀ (inputs ++ l) ⟨n', .idle⟩ := by
  intro l
  induction l with
  | nil =>
    intro inputs n n' hrun hserve
    cases hserve
    simpa using hrun
  | cons i l ih =>
    intro inputs n n' hrun hserve
    obtain ⟨n₁, hgive, hserve⟩ := bind_eq_ok hserve
    obtain ⟨n₂, hmany, hserve⟩ := bind_eq_ok hserve
    have hrest := ih ((hrun.give i hgive).steps (processReceiveMany_steps hmany)) hserve
    simpa using hrest

end Runs

end RaiBlocks
