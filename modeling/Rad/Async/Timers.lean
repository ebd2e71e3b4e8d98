import Mathlib.Data.List.Sort
import Rad.Lib.Run

/-!
# The queue of the timers (include/rad/async/timer.h)

Every member function of `wait_queue_base` holds the lock. Times are points of the steady clock, and a timer object is known
by its address.
-/

namespace Rad.Async

variable {ι η : Type*}

/-- `timer_impl` with its `timer_state`. -/
structure Timer (η : Type*) where
  expiryTime : Int := 0
  handlers : List η := []
  isTicking : Bool := false

/-- `time_point::max()`. -/
def maxExpiry : Int := 2 ^ 63 - 1

/-- A handler that is posted; the flag is its member `canceled`. -/
structure Posted (η : Type*) where
  handler : η
  canceled : Bool
  deriving DecidableEq

/-- `wait_queue_base` and the timer objects. -/
structure WaitQueue (ι η : Type*) where
  timers : List ι := []
  leastExpiryTime : Int := maxExpiry
  timer : ι → Timer η := fun _ => {}

namespace WaitQueue

def expiry (q : WaitQueue ι η) (t : ι) : Int := (q.timer t).expiryTime

/-- The loop of `add_timer`: in front of the first timer that does not expire before. -/
def pushBefore (expiry : ι → Int) (new : ι) : List ι → List ι
  | [] => [new]
  | t :: timers => if expiry t ≥ expiry new then new :: t :: timers else t :: pushBefore expiry new timers

/-- The expiry of the first timer, behind a removal. -/
def firstExpiry (expiry : ι → Int) : List ι → Int
  | [] => maxExpiry
  | t :: _ => expiry t

section

variable [DecidableEq ι]

/-- The timer object is changed. -/
def setTimer (q : WaitQueue ι η) (t : ι) (state : Timer η) : WaitQueue ι η :=
  { q with timer := Function.update q.timer t state }

def addTimer (q : WaitQueue ι η) (new : ι) : WaitQueue ι η × Bool :=
  let q := q.setTimer new { q.timer new with isTicking := true }
  let isEarliest := match q.timers with
    | [] => true
    | front :: _ => decide (q.expiry new < q.expiry front)
  if isEarliest then ({ q with leastExpiryTime := q.expiry new, timers := new :: q.timers }, true)
  else ({ q with timers := pushBefore q.expiry new q.timers }, false)

def removeTimer (q : WaitQueue ι η) (t : ι) : WaitQueue ι η × List (Posted η) × Bool :=
  if !(q.timer t).isTicking then (q, [], false)
  else
    let ops := (q.timer t).handlers.map fun handler => ⟨handler, true⟩
    let q := q.setTimer t { q.timer t with isTicking := false, handlers := [] }
    let timers := q.timers.erase t
    ({ q with timers := timers, leastExpiryTime := firstExpiry q.expiry timers }, ops, true)

def addTimerHandler (q : WaitQueue ι η) (t : ι) (handler : η) : WaitQueue ι η :=
  q.setTimer t { q.timer t with handlers := (q.timer t).handlers ++ [handler] }

def moveTimers (q : WaitQueue ι η) (old new : ι) : WaitQueue ι η :=
  let state := q.timer old
  let q := q.setTimer new { q.timer new with handlers := state.handlers, isTicking := state.isTicking }
  let q := q.setTimer old { state with handlers := [] }
  if !state.isTicking then q
  else
    let q := q.setTimer old { state with handlers := [], isTicking := false }
    { q with timers := q.timers.map fun t => if t = old then new else t }

/-- The loop of `poll`: the timer objects, the timers that are left and the operations. -/
def pollLoop (now : Int) (timer : ι → Timer η) : List ι → (ι → Timer η) × List ι × List (Posted η)
  | [] => (timer, [], [])
  | t :: timers =>
    if now ≥ (timer t).expiryTime then
      let ops := (timer t).handlers.map fun handler => ⟨handler, false⟩
      let r := pollLoop now (Function.update timer t { timer t with isTicking := false, handlers := [] }) timers
      (r.1, r.2.1, ops ++ r.2.2)
    else (timer, t :: timers, [])

def poll (q : WaitQueue ι η) (now : Int) : WaitQueue ι η × List (Posted η) :=
  if q.timers.isEmpty then (q, [])
  else
    let r := pollLoop now q.timer q.timers
    ({ timers := r.2.1, timer := r.1, leastExpiryTime := firstExpiry (fun t => (r.1 t).expiryTime) r.2.1 }, r.2.2)

end

end WaitQueue

/-! ## Timers in use -/

section

variable [DecidableEq ι]

/-- The queue with the timer objects that are alive. -/
structure Timers (ι η : Type*) where
  queue : WaitQueue ι η := {}
  live : List ι := []

inductive Action (ι η : Type*) where
  | construct (t : ι)
  | constructAt (t : ι) (time : Int)
  | moveConstruct (old new : ι)
  | moveAssign (old new : ι)
  | destroy (t : ι)
  /-- `timer_impl::expires`. -/
  | expires (t : ι) (time : Int)
  | cancel (t : ι)
  /-- `add_timer_handler`. -/
  | wait (t : ι) (handler : η)
  | poll (now : Int)

namespace Timers

/-- `schedule_timer` at a time. -/
def schedule (c : WaitQueue ι η) (t : ι) (time : Int) : WaitQueue ι η :=
  ((c.setTimer t { c.timer t with expiryTime := time }).addTimer t).1

/-- `cancel_timer`, which posts the operations. -/
def cancel (q : WaitQueue ι η) (t : ι) : WaitQueue ι η × List (Posted η) := ((q.removeTimer t).1, (q.removeTimer t).2.1)

def step (c : Timers ι η) : Action ι η → Option (Timers ι η × List (Posted η))
  | .construct t =>
    if t ∈ c.live then none else some ({ queue := c.queue.setTimer t {}, live := t :: c.live }, [])
  | .constructAt t time =>
    if t ∈ c.live then none
    else some ({ queue := schedule (c.queue.setTimer t {}) t time, live := t :: c.live }, [])
  | .moveConstruct old new =>
    if old ∈ c.live ∧ new ∉ c.live then
      let q := c.queue.setTimer new { expiryTime := c.queue.expiry old }
      some ({ queue := q.moveTimers old new, live := new :: c.live }, [])
    else none
  | .moveAssign old new =>
    if old ∈ c.live ∧ new ∈ c.live ∧ old ≠ new then
      let r := cancel c.queue new
      let q := r.1.setTimer new { r.1.timer new with expiryTime := r.1.expiry old }
      some ({ c with queue := q.moveTimers old new }, r.2)
    else none
  | .destroy t =>
    if t ∈ c.live then
      let r := cancel c.queue t
      some ({ queue := r.1, live := c.live.erase t }, r.2)
    else none
  | .expires t time =>
    if t ∈ c.live then
      let r := cancel c.queue t
      some ({ c with queue := schedule r.1 t time }, r.2)
    else none
  | .cancel t =>
    if t ∈ c.live then
      let r := cancel c.queue t
      some ({ c with queue := r.1 }, r.2)
    else none
  | .wait t handler => if t ∈ c.live then some ({ c with queue := c.queue.addTimerHandler t handler }, []) else none
  | .poll now =>
    let r := c.queue.poll now
    some ({ c with queue := r.1 }, r.2)

end Timers

end

/-! ## The order of the queue -/

section

variable {q q' : WaitQueue ι η} {live live' timers : List ι} {t old new : ι} {state : Timer η} {expiry expiry' : ι → Int}

/-- What the queue is sorted by. -/
def Earlier (expiry : ι → Int) : ι → ι → Prop := InvImage (· ≤ ·) expiry

instance (expiry : ι → Int) : DecidableRel (Earlier expiry) := fun a b => inferInstanceAs (Decidable (expiry a ≤ expiry b))

instance (expiry : ι → Int) : IsTrans ι (Earlier expiry) := inferInstanceAs (IsTrans ι (InvImage _ _))

instance (expiry : ι → Int) : Std.Total (Earlier expiry) := ⟨fun a b => Int.le_total (expiry a) (expiry b)⟩

namespace WaitQueue

theorem pushBefore_eq (expiry : ι → Int) (new : ι) (timers : List ι) :
    pushBefore expiry new timers = timers.orderedInsert (Earlier expiry) new := by
  induction timers with
  | nil => rfl
  | cons t timers ih =>
      rw [pushBefore, List.orderedInsert_cons, ih]
      rfl

theorem firstExpiry_congr (h : ∀ t ∈ timers, expiry t = expiry' t) :
    firstExpiry expiry timers = firstExpiry expiry' timers := by
  cases timers with
  | nil => rfl
  | cons t timers => exact h t List.mem_cons_self

theorem pairwise_congr (hsorted : timers.Pairwise (Earlier expiry)) (h : ∀ t ∈ timers, expiry t = expiry' t) :
    timers.Pairwise (Earlier expiry') := by
  refine hsorted.imp_of_mem fun {a b} ha hb hab => ?_
  change expiry' a ≤ expiry' b
  rw [← h a ha, ← h b hb]
  exact hab

/-- The queue holds the timers that tick, sorted by their expiry. -/
structure Linked (q : WaitQueue ι η) (live : List ι) : Prop where
  nodup : q.timers.Nodup
  sorted : q.timers.Pairwise (Earlier q.expiry)
  least : q.leastExpiryTime = firstExpiry q.expiry q.timers
  mem : ∀ t, t ∈ q.timers ↔ t ∈ live ∧ (q.timer t).isTicking = true

namespace Linked

/-- Timer objects change that are not in the queue. -/
theorem congr (h : Linked q live) (htimers : q'.timers = q.timers) (hleast : q'.leastExpiryTime = q.leastExpiryTime)
    (hexpiry : ∀ t ∈ q.timers, q.expiry t = q'.expiry t)
    (hmem : ∀ t, t ∈ q.timers ↔ t ∈ live' ∧ (q'.timer t).isTicking = true) : Linked q' live' where
  nodup := htimers ▸ h.nodup
  sorted := htimers ▸ pairwise_congr h.sorted hexpiry
  least := by rw [hleast, h.least, htimers, firstExpiry_congr hexpiry]
  mem := htimers ▸ hmem

end Linked

variable [DecidableEq ι]

@[simp] theorem setTimer_timers (q : WaitQueue ι η) (t : ι) (state : Timer η) : (q.setTimer t state).timers = q.timers := rfl

@[simp] theorem setTimer_leastExpiryTime (q : WaitQueue ι η) (t : ι) (state : Timer η) :
    (q.setTimer t state).leastExpiryTime = q.leastExpiryTime := rfl

@[simp] theorem setTimer_self (q : WaitQueue ι η) (t : ι) (state : Timer η) : (q.setTimer t state).timer t = state :=
  Function.update_self ..

theorem setTimer_of_ne (q : WaitQueue ι η) {t u : ι} (h : u ≠ t) (state : Timer η) :
    (q.setTimer t state).timer u = q.timer u := Function.update_of_ne h ..

theorem setTimer_expiry_self (q : WaitQueue ι η) (t : ι) (state : Timer η) :
    (q.setTimer t state).expiry t = state.expiryTime := by
  rw [expiry, setTimer_self]

theorem setTimer_expiry_of_ne (q : WaitQueue ι η) {t u : ι} (h : u ≠ t) (state : Timer η) :
    (q.setTimer t state).expiry u = q.expiry u := by
  rw [expiry, setTimer_of_ne q h, expiry]

theorem setTimer_expiry (h : state.expiryTime = q.expiry t) : (q.setTimer t state).expiry = q.expiry := by
  funext u
  by_cases hu : u = t
  · rw [hu, setTimer_expiry_self, h]
  · exact setTimer_expiry_of_ne q hu state

theorem Linked.setTimer (h : Linked q live) (ht : t ∉ q.timers) (hstate : state.isTicking = false)
    (hlive : ∀ u, u ≠ t → (u ∈ live' ↔ u ∈ live)) : Linked (q.setTimer t state) live' := by
  refine h.congr rfl rfl (fun u hu => ?_) fun u => ?_
  · rw [expiry, expiry, setTimer_of_ne q (ne_of_mem_of_not_mem hu ht)]
  · by_cases hu : u = t
    · rw [hu, setTimer_self, hstate]
      exact iff_of_false ht fun hfalse => Bool.noConfusion hfalse.2
    · rw [setTimer_of_ne q hu, hlive u hu, h.mem]

theorem addTimer_spec (h : Linked q live) (new : ι) : (q.addTimer new).1 =
    { timers := q.timers.orderedInsert (Earlier q.expiry) new
      leastExpiryTime := firstExpiry q.expiry (q.timers.orderedInsert (Earlier q.expiry) new)
      timer := (q.setTimer new { q.timer new with isTicking := true }).timer } := by
  have hexpiry : (q.setTimer new { q.timer new with isTicking := true }).expiry = q.expiry := setTimer_expiry rfl
  have hleast := h.least
  rw [addTimer]
  dsimp only
  rw [hexpiry, setTimer_timers]
  cases htimers : q.timers with
  | nil => rfl
  | cons front timers =>
      rw [htimers] at hleast
      by_cases hearliest : q.expiry new < q.expiry front
      · have hle : Earlier q.expiry new front := Int.le_of_lt hearliest
        rw [if_pos (decide_eq_true hearliest), List.orderedInsert_cons_of_le _ _ hle]
        rfl
      · rw [if_neg (by simpa using hearliest), pushBefore_eq, setTimer_leastExpiryTime, hleast]
        by_cases hle : Earlier q.expiry new front
        · have hsame : q.expiry front = q.expiry new := Int.le_antisymm (Int.not_lt.1 hearliest) hle
          rw [List.orderedInsert_cons_of_le _ _ hle, firstExpiry, firstExpiry, hsame]
        · rw [List.orderedInsert_of_not_le _ _ hle, firstExpiry, firstExpiry]

/-- `addTimer` keeps the handlers. -/
theorem addTimer_timer (h : Linked q live) (new t : ι) : ((q.addTimer new).1.timer t).expiryTime = q.expiry t ∧
    ((q.addTimer new).1.timer t).handlers = (q.timer t).handlers ∧
      ((q.addTimer new).1.timer t).isTicking = (decide (t = new) || (q.timer t).isTicking) := by
  rw [addTimer_spec h]
  by_cases ht : t = new
  · rw [ht, setTimer_self]
    simp [expiry]
  · rw [setTimer_of_ne q ht, decide_eq_false ht, Bool.false_or]
    exact ⟨rfl, rfl, rfl⟩

theorem Linked.addTimer (h : Linked q live) (hlive : new ∈ live) (hnew : new ∉ q.timers) :
    Linked (q.addTimer new).1 live := by
  have htimer := addTimer_timer h new
  have hexpiry : (q.addTimer new).1.expiry = q.expiry := funext fun t => (htimer t).1
  have htimers : (q.addTimer new).1.timers = q.timers.orderedInsert (Earlier q.expiry) new := by rw [addTimer_spec h]
  refine ⟨?_, ?_, ?_, fun t => ?_⟩
  · rw [htimers, (List.perm_orderedInsert _ _ _).nodup_iff]
    exact List.nodup_cons.2 ⟨hnew, h.nodup⟩
  · rw [htimers, hexpiry]
    exact h.sorted.orderedInsert new _
  · rw [hexpiry, htimers, addTimer_spec h]
  · rw [htimers, List.mem_orderedInsert, (htimer t).2.2, Bool.or_eq_true, decide_eq_true_iff, h.mem]
    constructor
    · rintro (rfl | ⟨ht, htick⟩)
      · exact ⟨hlive, .inl rfl⟩
      · exact ⟨ht, .inr htick⟩
    · rintro ⟨ht, rfl | htick⟩
      · exact .inl rfl
      · exact .inr ⟨ht, htick⟩

/-- The operations that `remove_timer` takes from a timer. -/
def cancelled (state : Timer η) : List (Posted η) :=
  if state.isTicking then state.handlers.map fun handler => ⟨handler, true⟩ else []

theorem removeTimer_idle (h : (q.timer t).isTicking = false) : q.removeTimer t = (q, [], false) := by
  rw [removeTimer, h]
  rfl

theorem removeTimer_ticking (h : (q.timer t).isTicking = true) : q.removeTimer t =
    ({ timers := q.timers.erase t, leastExpiryTime := firstExpiry q.expiry (q.timers.erase t),
       timer := (q.setTimer t { q.timer t with isTicking := false, handlers := [] }).timer },
      (q.timer t).handlers.map fun handler => ⟨handler, true⟩, true) := by
  have hexpiry : (q.setTimer t { q.timer t with isTicking := false, handlers := [] }).expiry = q.expiry := setTimer_expiry rfl
  rw [removeTimer, h, ← hexpiry]
  rfl

theorem removeTimer_ops (q : WaitQueue ι η) (t : ι) : (q.removeTimer t).2.1 = cancelled (q.timer t) := by
  rw [cancelled]
  cases htick : (q.timer t).isTicking with
  | false => rw [removeTimer_idle htick]; rfl
  | true => rw [removeTimer_ticking htick]; rfl

theorem removeTimer_timer (q : WaitQueue ι η) (t u : ι) :
    ((q.removeTimer t).1.timer u).expiryTime = q.expiry u ∧
      ((q.removeTimer t).1.timer u).isTicking = (decide (u ≠ t) && (q.timer u).isTicking) ∧
      ((q.removeTimer t).1.timer u).handlers =
        if u = t ∧ (q.timer t).isTicking = true then [] else (q.timer u).handlers := by
  cases htick : (q.timer t).isTicking with
  | false =>
      rw [removeTimer_idle htick]
      refine ⟨rfl, ?_, by simp⟩
      by_cases hu : u = t
      · rw [hu, htick, Bool.and_false]
      · rw [decide_eq_true hu, Bool.true_and]
  | true =>
      rw [removeTimer_ticking htick]
      by_cases hu : u = t
      · rw [hu, setTimer_self]
        simp [expiry]
      · rw [setTimer_of_ne q hu]
        simp [hu, expiry]

theorem Linked.removeTimer (h : Linked q live) (t : ι) :
    Linked (q.removeTimer t).1 live ∧ (q.removeTimer t).1.timers = q.timers.erase t := by
  cases htick : (q.timer t).isTicking with
  | false =>
      have ht : t ∉ q.timers := fun ht => by simp [((h.mem t).1 ht).2] at htick
      rw [removeTimer_idle htick, List.erase_of_not_mem ht]
      exact ⟨h, rfl⟩
  | true =>
      have hexpiry : (q.removeTimer t).1.expiry = q.expiry := funext fun u => (removeTimer_timer q t u).1
      have hmem := fun u => (removeTimer_timer q t u).2.1
      rw [removeTimer_ticking htick] at hexpiry hmem ⊢
      refine ⟨⟨h.nodup.erase t, ?_, ?_, fun u => ?_⟩, rfl⟩
      · rw [hexpiry]
        exact h.sorted.sublist List.erase_sublist
      · rw [hexpiry]
      · rw [h.nodup.mem_erase_iff, h.mem, hmem]
        simp [and_left_comm]

theorem addTimerHandler_timer (q : WaitQueue ι η) (t : ι) (handler : η) (u : ι) :
    ((q.addTimerHandler t handler).timer u).expiryTime = q.expiry u ∧
      ((q.addTimerHandler t handler).timer u).isTicking = (q.timer u).isTicking ∧
      ((q.addTimerHandler t handler).timer u).handlers =
        (q.timer u).handlers ++ if u = t then [handler] else [] := by
  rw [addTimerHandler]
  by_cases hu : u = t
  · subst hu
    simp [expiry]
  · simp [hu, setTimer_of_ne, expiry]

theorem Linked.addTimerHandler (h : Linked q live) (t : ι) (handler : η) : Linked (q.addTimerHandler t handler) live :=
  h.congr rfl rfl (fun u _ => (addTimerHandler_timer q t handler u).1.symm) fun u => by
    rw [h.mem, (addTimerHandler_timer q t handler u).2.1]

theorem moveTimers_timer (q : WaitQueue ι η) (hne : old ≠ new) (u : ι) :
    ((q.moveTimers old new).timer u).expiryTime = q.expiry u ∧
      ((q.moveTimers old new).timer u).isTicking =
        (if u = new then (q.timer old).isTicking else decide (u ≠ old) && (q.timer u).isTicking) ∧
      ((q.moveTimers old new).timer u).handlers =
        if u = new then (q.timer old).handlers else if u = old then [] else (q.timer u).handlers := by
  have hnew : ∀ (q : WaitQueue ι η) (state : Timer η), (q.setTimer old state).timer new = q.timer new :=
    fun q state => setTimer_of_ne q (Ne.symm hne) state
  rw [moveTimers]
  by_cases hu : u = new
  · subst hu
    cases (q.timer old).isTicking <;> simp [hnew, expiry]
  · by_cases hu' : u = old
    · subst hu'
      cases (q.timer u).isTicking <;> simp [hu, expiry]
    · cases (q.timer old).isTicking <;> simp [hu, hu', setTimer_of_ne, expiry]

theorem moveTimers_timers (q : WaitQueue ι η) (old new : ι) : (q.moveTimers old new).timers =
    if (q.timer old).isTicking then q.timers.map fun t => if t = old then new else t else q.timers := by
  rw [moveTimers]
  cases (q.timer old).isTicking <;> rfl

theorem moveTimers_leastExpiryTime (q : WaitQueue ι η) (old new : ι) :
    (q.moveTimers old new).leastExpiryTime = q.leastExpiryTime := by
  rw [moveTimers]
  cases (q.timer old).isTicking <;> rfl

theorem Linked.moveTimers (h : Linked q live) (hne : old ≠ new) (hold : old ∈ live) (hnew : new ∈ live)
    (hout : new ∉ q.timers) (hexpiry : q.expiry new = q.expiry old) : Linked (q.moveTimers old new) live := by
  have hmoved : (q.moveTimers old new).expiry = q.expiry := funext fun u => (moveTimers_timer q hne u).1
  have hmem := fun u => (moveTimers_timer q hne u).2.1
  have hidle : (q.timer new).isTicking = false := by
    by_contra htick
    exact hout ((h.mem new).2 ⟨hnew, Bool.not_eq_false _ ▸ htick⟩)
  cases htick : (q.timer old).isTicking with
  | false =>
      have htimers : (q.moveTimers old new).timers = q.timers := by rw [moveTimers_timers, htick]; rfl
      refine h.congr htimers (moveTimers_leastExpiryTime q old new) (fun t _ => (congrFun hmoved t).symm) fun t => ?_
      rw [hmem, h.mem]
      grind
  | true =>
      have htimers : (q.moveTimers old new).timers = q.timers.map fun t => if t = old then new else t := by
        rw [moveTimers_timers, htick]; rfl
      -- the new timer expires when the old one does
      have hsame : ∀ t, q.expiry (if t = old then new else t) = q.expiry t := fun t => by
        by_cases ht : t = old
        · rw [if_pos ht, hexpiry, ht]
        · rw [if_neg ht]
      refine ⟨?_, ?_, ?_, fun t => ?_⟩
      · rw [htimers]
        refine h.nodup.map_on fun a ha b hb hab => ?_
        grind
      · rw [htimers, hmoved, List.pairwise_map]
        refine h.sorted.imp fun {a b} hab => ?_
        change q.expiry _ ≤ q.expiry _
        rw [hsame, hsame]
        exact hab
      · rw [moveTimers_leastExpiryTime, hmoved, htimers, h.least]
        cases q.timers with
        | nil => rfl
        | cons t timers => exact (hsame t).symm
      · have holdmem := (h.mem old).2 ⟨hold, htick⟩
        rw [htimers, List.mem_map, hmem]
        have := h.mem t
        grind

/-- The operations of a timer that expires. -/
def expired (state : Timer η) : List (Posted η) := state.handlers.map fun handler => ⟨handler, false⟩

/-- What `poll` makes of the timers that are due. -/
theorem pollLoop_spec (now : Int) {timer : ι → Timer η} (hnodup : timers.Nodup)
    (hsorted : timers.Pairwise (Earlier fun t => (timer t).expiryTime)) :
    (pollLoop now timer timers).2.1 = timers.filter (fun t => now < (timer t).expiryTime) ∧
      (pollLoop now timer timers).2.2 =
        (timers.filter fun t => (timer t).expiryTime ≤ now).flatMap (fun t => expired (timer t)) ∧
      ∀ u, (pollLoop now timer timers).1 u =
        if u ∈ timers ∧ (timer u).expiryTime ≤ now then { timer u with isTicking := false, handlers := [] } else timer u := by
  induction timers generalizing timer with
  | nil => exact ⟨rfl, rfl, fun u => by simp [pollLoop]⟩
  | cons t timers ih =>
      obtain ⟨ht, hnodup⟩ := List.nodup_cons.1 hnodup
      obtain ⟨hfirst, hsorted⟩ := List.pairwise_cons.1 hsorted
      rw [pollLoop]
      split
      · rename_i hdue
        generalize htimer' : Function.update timer t { timer t with isTicking := false, handlers := [] } = timer'
        have hself : timer' t = { timer t with isTicking := false, handlers := [] } := by rw [← htimer', Function.update_self]
        have hother : ∀ u, u ≠ t → timer' u = timer u := fun u hu => by rw [← htimer', Function.update_of_ne hu]
        have hin : ∀ u ∈ timers, timer' u = timer u := fun u hu => hother u (ne_of_mem_of_not_mem hu ht)
        obtain ⟨hleft, hops, htimer⟩ := @ih timer' hnodup (pairwise_congr hsorted fun u hu => by rw [hin u hu])
        refine ⟨?_, ?_, fun u => ?_⟩
        · rw [hleft, List.filter_cons_of_neg (by simpa using hdue)]
          exact List.filter_congr fun u hu => by rw [hin u hu]
        · dsimp only
          rw [hops, List.filter_cons_of_pos (by simpa using hdue), List.flatMap_cons]
          have hfilter : timers.filter (fun u => (timer' u).expiryTime ≤ now) =
              timers.filter fun u => (timer u).expiryTime ≤ now := List.filter_congr fun u hu => by rw [hin u hu]
          rw [hfilter, List.flatMap_congr fun u hu => congrArg expired (hin u (List.mem_filter.1 hu).1)]
          rfl
        · rw [htimer]
          by_cases hu : u = t
          · subst hu
            rw [if_neg fun hmem => ht hmem.1, if_pos ⟨List.mem_cons_self, hdue⟩, hself]
          · rw [hother u hu]
            simp [hu]
      · rename_i hdue
        have hlater : ∀ u ∈ t :: timers, now < (timer u).expiryTime := fun u hu => by
          rcases List.mem_cons.1 hu with rfl | hu
          · omega
          · have := hfirst u hu
            change (timer t).expiryTime ≤ (timer u).expiryTime at this
            omega
        refine ⟨?_, ?_, fun u => ?_⟩
        · exact (List.filter_eq_self.2 fun u hu => decide_eq_true (hlater u hu)).symm
        · rw [List.filter_eq_nil_iff.2 fun u hu => by simpa using hlater u hu]
          rfl
        · rw [if_neg fun hu => by have := hlater u hu.1; omega]

theorem poll_timers (h : Linked q live) (now : Int) :
    (q.poll now).1.timers = q.timers.filter fun t => now < q.expiry t := by
  rw [poll]
  split
  · rename_i hempty
    rw [List.isEmpty_iff.1 hempty]
    rfl
  · exact (pollLoop_spec now h.nodup h.sorted).1

/-- The timers that are due are posted in the order of the queue. -/
theorem poll_ops (h : Linked q live) (now : Int) :
    (q.poll now).2 = (q.timers.filter fun t => q.expiry t ≤ now).flatMap fun t => expired (q.timer t) := by
  rw [poll]
  split
  · rename_i hempty
    rw [List.isEmpty_iff.1 hempty]
    rfl
  · exact (pollLoop_spec now h.nodup h.sorted).2.1

theorem poll_timer (h : Linked q live) (now : Int) (u : ι) : (q.poll now).1.timer u =
    if u ∈ q.timers ∧ q.expiry u ≤ now then { q.timer u with isTicking := false, handlers := [] } else q.timer u := by
  rw [poll]
  split
  · rename_i hempty
    rw [List.isEmpty_iff.1 hempty, if_neg fun hu => List.not_mem_nil hu.1]
  · exact (pollLoop_spec now h.nodup h.sorted).2.2 u

theorem Linked.poll (h : Linked q live) (now : Int) : Linked (q.poll now).1 live := by
  have htimers := poll_timers h now
  have hexpiry : (q.poll now).1.expiry = q.expiry := funext fun u => by
    rw [expiry, poll_timer h]
    split <;> rfl
  refine ⟨?_, ?_, ?_, fun u => ?_⟩
  · rw [htimers]
    exact h.nodup.filter _
  · rw [htimers, hexpiry]
    exact h.sorted.filter _
  · rw [WaitQueue.poll]
    split
    · exact h.least
    · rfl
  · rw [htimers, List.mem_filter, decide_eq_true_iff, poll_timer h]
    have hmem := h.mem u
    by_cases hdue : q.expiry u ≤ now
    · by_cases hu : u ∈ q.timers
      · rw [if_pos ⟨hu, hdue⟩]
        simp [Int.not_lt.2 hdue]
      · rw [if_neg fun hfalse => hu hfalse.1, ← hmem]
        simp [hu]
    · rw [if_neg fun hfalse => hdue hfalse.2, ← hmem]
      simp [Int.not_le.1 hdue]

end WaitQueue

end

end Rad.Async
