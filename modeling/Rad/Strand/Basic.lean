import Rad.Lib.Run
import Rad.Strand.ForwardList

/-!
# Strands (include/rad/async/strand.h, src/strand.cpp)

A strand with its inner executor and the calls of `run` that are going on. What is done under the lock of the state is
one step, and so is what a call of `run` does by itself in between. An operation is a node of the lists.
-/

namespace Rad.Strand

inductive RunState where
  | idle
  | pending
  | executing
  deriving DecidableEq

/-- What the strand posts to its inner executor: itself, and the operation that waits for it. -/
inductive InnerOp where
  | strand
  | waiter
  deriving DecidableEq

/-- Where a call of `run` is: before its first block, at one of the two loops, within the invocation of an operation, or
before the call of `after_run`. -/
inductive Phase (ν : Type) where
  | entering
  | outer
  | inner
  | invoking (op : ν)
  | leaving
  deriving DecidableEq

/-- A call of `run`. -/
structure Activation (ν τ : Type) where
  thread : τ
  phase : Phase ν := .entering
  readyOps : ForwardList ν := {}
  deriving DecidableEq

/-- The members of `strand_base::state_t`, the queue of the inner executor and the calls of `run`. -/
structure State (ν τ : Type) where
  links : Links ν
  ops : ForwardList ν := {}
  id : Option τ := none
  waitOp : Bool := false
  workCount : UInt64 := 0
  runState : RunState := .idle
  innerQueue : List InnerOp := []
  runs : List (Activation ν τ) := []

variable {ν τ : Type} [DecidableEq ν] [DecidableEq τ]

namespace State

/-! ## Posting -/

/-- `ex.post(*this)`. -/
def postStrand (s : State ν τ) : State ν τ :=
  { s with runState := .pending, innerQueue := s.innerQueue ++ [.strand] }

/-- `single_wait_operation::post`. -/
def postWaiter (s : State ν τ) : State ν τ :=
  if s.waitOp then { s with waitOp := false, innerQueue := s.innerQueue ++ [.waiter] } else s

/-- `strand_base::do_post_finished` of an operation. -/
def doPostFinished (s : State ν τ) (op : ν) : Option (State ν τ) :=
  (s.ops.pushBack s.links op).map fun (links, ops) =>
    let s := { s with links := links, ops := ops }
    if s.runState ≠ .idle then s else s.postStrand

/-- `strand_base::do_post_finished` of a list. -/
def doPostFinishedList (s : State ν τ) (ops : ForwardList ν) : Option (State ν τ) :=
  (s.ops.mergeBack s.links ops).map fun (links, ops) =>
    let s := { s with links := links, ops := ops }
    if s.runState ≠ .idle then s else s.postStrand

/-- `strand_base::post` of an operation. -/
def post (s : State ν τ) (op : ν) : Option (State ν τ) :=
  { s with workCount := s.workCount + 1 }.doPostFinished op

/-- `strand_base::post` of a list. -/
def postList (s : State ν τ) (ops : ForwardList ν) : Option (State ν τ) :=
  if ops.isEmpty then some s else { s with workCount := s.workCount + ops.nodesCount.toUInt64 }.doPostFinishedList ops

/-- `strand_base::try_schedule` on a thread: the operation is posted unless the strand runs on this thread. -/
def trySchedule (s : State ν τ) (thread : τ) (op : ν) : Option (State ν τ × Bool) :=
  if s.id = some thread then some (s, false)
  else ({ s with workCount := s.workCount + 1 }.doPostFinished op).map (·, true)

/-- A list of operations that a caller has put together. -/
def link (s : State ν τ) (ops : List ν) : Option (State ν τ × ForwardList ν) :=
  (ops.foldlM (fun (p : Links ν × ForwardList ν) op => p.2.pushBack p.1 op) (s.links, {})).map fun (links, l) =>
    ({ s with links := links }, l)

/-! ## Running -/

/-- `strand_base::after_run`. -/
def afterRun (s : State ν τ) (remainingOps : ForwardList ν) : Option (State ν τ) :=
  let s := { s with id := none }
  (if remainingOps.isEmpty then some (s.links, s.ops) else s.ops.mergeFront s.links remainingOps).map fun (links, ops) =>
    let s := { s with links := links, ops := ops }
    if !ops.isEmpty then s.postStrand
    else
      let s := { s with runState := .idle }
      if s.workCount = 0 then s.postWaiter else s

/-- A call of `run` makes its next step; the operation that it begins to invoke is given as well. -/
def advance (s : State ν τ) (i : Nat) (a : Activation ν τ) : Option (State ν τ × Option ν) :=
  let go (s : State ν τ) (a : Activation ν τ) : State ν τ := { s with runs := s.runs.set i a }
  match a.phase with
  | .entering =>
    some (go { s with runState := .executing, id := some a.thread, ops := {} }
      { a with phase := .outer, readyOps := s.ops }, none)
  | .outer => some (go s { a with phase := if a.readyOps.isEmpty then .leaving else .inner }, none)
  | .inner =>
    if a.readyOps.isEmpty then some (go { s with ops := {} } { a with phase := .outer, readyOps := s.ops }, none)
    else
      (a.readyOps.tryPopFront s.links).map fun (op, readyOps) =>
        (go s { a with phase := .invoking op, readyOps := readyOps }, some op)
  | .invoking _ => none
  | .leaving => (s.afterRun a.readyOps).map fun s => ({ s with runs := s.runs.eraseIdx i }, none)

/-- The operation that a call of `run` invokes returns, or exits by an exception. -/
def finish (s : State ν τ) (i : Nat) (a : Activation ν τ) (thrown : Bool) : Option (State ν τ) :=
  match a.phase with
  | .invoking _ => some { s with runs := s.runs.set i { a with phase := if thrown then .leaving else .inner } }
  | _ => none

/-- The operations that are linked to a list of the strand. -/
def linked (s : State ν τ) : List ν := s.runs.flatMap (·.readyOps.nodes s.links) ++ s.ops.nodes s.links

end State

/-! ## Steps -/

inductive Action (ν τ : Type) where
  | post (op : ν)
  | postList (ops : List ν)
  | postFinished (op : ν)
  | postFinishedList (ops : List ν)
  | trySchedule (thread : τ) (op : ν)
  | addWork (n : UInt64)
  | consumeWork (n : UInt64)
  | cancelWork
  | asyncWait
  /-- The inner executor starts the strand on a thread. -/
  | start (thread : τ)
  /-- The inner executor resumes the waiter. -/
  | resume
  /-- A call of `run` makes its next step. -/
  | advance (i : Nat)
  /-- The operation that a call of `run` invokes comes to its end. -/
  | finish (i : Nat) (thrown : Bool)

/-- What is seen of a step. -/
inductive Event (ν : Type) where
  | posted (op : ν)
  | invoked (op : ν)
  deriving DecidableEq

def Event.posted? : Event ν → Option ν
  | .posted op => some op
  | .invoked _ => none

def Event.invoked? : Event ν → Option ν
  | .posted _ => none
  | .invoked op => some op

/-- The operations that an action posts. -/
def Action.ops : Action ν τ → List ν
  | .post op | .postFinished op | .trySchedule _ op => [op]
  | .postList ops | .postFinishedList ops => ops
  | _ => []

/-- An operation is linked to one list at most, once: what `link_container` asserts. -/
def Action.Linkable (s : State ν τ) (a : Action ν τ) : Prop := a.ops.Nodup ∧ ∀ op ∈ a.ops, op ∉ s.linked

instance (s : State ν τ) (a : Action ν τ) : Decidable (a.Linkable s) :=
  inferInstanceAs (Decidable (a.ops.Nodup ∧ ∀ op ∈ a.ops, op ∉ s.linked))

/-- What the callers of `run` do: the inner executor invokes what is in its queue, and a call of `run` does not go on
while it invokes an operation. -/
def Action.Enabled (s : State ν τ) : Action ν τ → Prop
  | .start _ => .strand ∈ s.innerQueue
  | .resume => .waiter ∈ s.innerQueue
  | .advance i => ∃ a, s.runs[i]? = some a ∧ ∀ op, a.phase ≠ .invoking op
  | .finish i _ => ∃ a op, s.runs[i]? = some a ∧ a.phase = .invoking op
  | _ => True

/-- The steps, in any order. -/
def step (s : State ν τ) (a : Action ν τ) : Option (State ν τ × List (Event ν)) :=
  if ¬a.Linkable s then none
  else
    match a with
    | .post op => (s.post op).map (·, [.posted op])
    | .postList ops => (s.link ops).bind fun (s, l) => (s.postList l).map (·, ops.map .posted)
    | .postFinished op => (s.doPostFinished op).map (·, [.posted op])
    | .postFinishedList ops => (s.link ops).bind fun (s, l) => (s.doPostFinishedList l).map (·, ops.map .posted)
    | .trySchedule thread op =>
      (s.trySchedule thread op).map fun (s, posted) => (s, if posted then [.posted op] else [])
    | .addWork n => some ({ s with workCount := s.workCount + n }, [])
    | .consumeWork n => some ({ s with workCount := s.workCount - n }, [])
    | .cancelWork =>
      let s := { s with workCount := s.workCount - 1 }
      some (if s.workCount = 0 then s.postWaiter else s, [])
    | .asyncWait => some (if s.workCount = 0 then s else { s with waitOp := true }, [])
    | .start thread =>
      if .strand ∈ s.innerQueue then
        some ({ s with innerQueue := s.innerQueue.erase .strand, runs := s.runs ++ [{ thread := thread }] }, [])
      else none
    | .resume => if .waiter ∈ s.innerQueue then some ({ s with innerQueue := s.innerQueue.erase .waiter }, []) else none
    | .advance i =>
      s.runs[i]?.bind fun a => (s.advance i a).map fun (s, op) => (s, op.toList.map .invoked)
    | .finish i thrown => s.runs[i]?.bind fun a => (s.finish i a thrown).map (·, [])

/-- A strand on which nothing has been done. -/
def State.fresh (links : Links ν) : State ν τ := { links := links }

end Rad.Strand
