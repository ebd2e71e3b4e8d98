import Rad.Async.Timers

/-!
# Runs of timers

The steps of timer objects keep the queue sorted, and every handler is posted once: a poll posts those of the timers that are due,
and what cancels a timer posts its handlers as cancelled. Handlers are lost only with a timer that does not tick.
-/

namespace Rad.Async

variable {ι η : Type*} {q : WaitQueue ι η} {live : List ι} {t old new : ι}

namespace Timers

open WaitQueue

/-- The queue holds the timers that are alive and tick. -/
structure Invariant (c : Timers ι η) : Prop where
  nodup : c.live.Nodup
  linked : Linked c.queue c.live

theorem invariant_new : Invariant ({} : Timers ι η) := ⟨.nil, .nil, .nil, rfl, fun t => by simp⟩

theorem idle_of_not_mem (h : Linked q live) (hlive : t ∈ live) (ht : t ∉ q.timers) : (q.timer t).isTicking = false := by
  by_contra htick
  exact ht ((h.mem t).2 ⟨hlive, Bool.not_eq_false _ ▸ htick⟩)

variable [DecidableEq ι] {c c' : Timers ι η} {a : Action ι η} {out : List (Posted η)}
  {xs : List (Lib.Transition (Timers ι η) (Action ι η) (Posted η))}

theorem linked_setExpiry (h : Linked q live) (hlive : t ∈ live) (ht : t ∉ q.timers) (time : Int) :
    Linked (q.setTimer t { q.timer t with expiryTime := time }) live :=
  h.setTimer ht (idle_of_not_mem h hlive ht) fun _ _ => Iff.rfl

theorem linked_schedule (h : Linked q live) (hlive : t ∈ live) (ht : t ∉ q.timers) (time : Int) :
    Linked (schedule q t time) live :=
  (linked_setExpiry h hlive ht time).addTimer hlive ht

theorem linked_cancel (h : Linked q live) (t : ι) : Linked (cancel q t).1 live ∧ t ∉ (cancel q t).1.timers := by
  obtain ⟨hlinked, htimers⟩ := h.removeTimer t
  refine ⟨hlinked, ?_⟩
  rw [cancel, htimers]
  exact h.nodup.not_mem_erase

theorem Invariant.step (h : Invariant c) (hstep : step c a = some (c', out)) : Invariant c' := by
  obtain ⟨hnodup, hlinked⟩ := h
  have hdead : ∀ {t}, t ∉ c.live → t ∉ c.queue.timers := fun ht hmem => ht ((hlinked.mem _).1 hmem).1
  have hnew : ∀ {t : ι} (u : ι), u ≠ t → (u ∈ t :: c.live ↔ u ∈ c.live) := fun u hu => by simp [hu]
  cases a with
  | construct t =>
      rw [Timers.step] at hstep
      split at hstep
      · cases hstep
      · rename_i ht
        cases hstep
        exact ⟨.cons ht hnodup, hlinked.setTimer (hdead ht) rfl hnew⟩
  | constructAt t time =>
      rw [Timers.step] at hstep
      split at hstep
      · cases hstep
      · rename_i ht
        cases hstep
        refine ⟨.cons ht hnodup, linked_schedule (hlinked.setTimer (hdead ht) rfl hnew) List.mem_cons_self (hdead ht) time⟩
  | moveConstruct old new =>
      rw [Timers.step] at hstep
      split at hstep
      · rename_i hmove
        obtain ⟨hold, hfresh⟩ := hmove
        cases hstep
        have hne := ne_of_mem_of_not_mem hold hfresh
        refine ⟨.cons hfresh hnodup, (hlinked.setTimer (hdead hfresh) rfl hnew).moveTimers hne (List.mem_cons_of_mem _ hold)
          List.mem_cons_self (hdead hfresh) ?_⟩
        rw [setTimer_expiry_self, setTimer_expiry_of_ne _ hne]
      · cases hstep
  | moveAssign old new =>
      rw [Timers.step] at hstep
      split at hstep
      · rename_i hmove
        obtain ⟨hold, hin, hne⟩ := hmove
        obtain ⟨hcancel, hout⟩ := linked_cancel hlinked new
        cases hstep
        refine ⟨hnodup, (linked_setExpiry hcancel hin hout _).moveTimers hne hold hin hout ?_⟩
        rw [setTimer_expiry_self, setTimer_expiry_of_ne _ hne]
      · cases hstep
  | destroy t =>
      rw [Timers.step] at hstep
      split at hstep
      · obtain ⟨hcancel, hout⟩ := linked_cancel hlinked t
        cases hstep
        refine ⟨hnodup.erase t, hcancel.congr rfl rfl (fun _ _ => rfl) fun u => ?_⟩
        rw [hcancel.mem, hnodup.mem_erase_iff]
        refine ⟨fun hu => ⟨⟨?_, hu.1⟩, hu.2⟩, fun hu => ⟨hu.1.2, hu.2⟩⟩
        rintro rfl
        exact hout ((hcancel.mem _).2 hu)
      · cases hstep
  | expires t time =>
      rw [Timers.step] at hstep
      split at hstep
      · rename_i ht
        obtain ⟨hcancel, hout⟩ := linked_cancel hlinked t
        cases hstep
        exact ⟨hnodup, linked_schedule hcancel ht hout time⟩
      · cases hstep
  | cancel t =>
      rw [Timers.step] at hstep
      split at hstep
      · cases hstep
        exact ⟨hnodup, (linked_cancel hlinked t).1⟩
      · cases hstep
  | wait t handler =>
      rw [Timers.step] at hstep
      split at hstep
      · cases hstep
        exact ⟨hnodup, hlinked.addTimerHandler t handler⟩
      · cases hstep
  | poll now =>
      rw [Timers.step] at hstep
      cases hstep
      exact ⟨hnodup, hlinked.poll now⟩

/-- The runs of the timers of an empty queue. -/
abbrev Runs (xs : List (Lib.Transition (Timers ι η) (Action ι η) (Posted η))) (c : Timers ι η) : Prop := Lib.Run step {} xs c

theorem run_invariant (h : Runs xs c) : Invariant c := h.invariant invariant_new fun _ _ _ _ hinv => hinv.step

/-! ## What is posted -/

/-- In every state of a run the queue holds the timers that are alive and tick, the earliest first, and the least expiry is
theirs. -/
theorem queue_sorted (h : Runs xs c) :
    c.queue.timers.Nodup ∧ c.queue.timers.Pairwise (fun t u => c.queue.expiry t ≤ c.queue.expiry u) ∧
      (∀ t, t ∈ c.queue.timers ↔ t ∈ c.live ∧ (c.queue.timer t).isTicking = true) ∧
      (c.queue.timers = [] → c.queue.leastExpiryTime = maxExpiry) ∧
      ∀ t ∈ c.queue.timers, c.queue.leastExpiryTime ≤ c.queue.expiry t := by
  obtain ⟨-, hnodup, hsorted, hleast, hmem⟩ := run_invariant h
  refine ⟨hnodup, hsorted, hmem, fun hempty => by rw [hleast, hempty]; rfl, fun t ht => ?_⟩
  rw [hleast]
  cases htimers : c.queue.timers with
  | nil => rw [htimers] at ht; cases ht
  | cons front timers =>
      rw [htimers] at ht hsorted
      rcases List.mem_cons.1 ht with rfl | ht
      · exact Int.le_refl _
      · exact List.rel_of_pairwise_cons hsorted ht

theorem queue_sorted_two : ∃ (xs : List (Lib.Transition (Timers Nat Nat) (Action Nat Nat) (Posted Nat))) (c : Timers Nat Nat),
    Runs xs c ∧ c.queue.timers = [2, 1] ∧ c.queue.expiry 2 ≤ c.queue.expiry 1 := by
  have hexecute : (Lib.execute step ({} : Timers Nat Nat) [.constructAt 1 20, .constructAt 2 10]).map (fun r =>
      r.2.queue.timers) = some [2, 1] := rfl
  obtain ⟨xs, c, hrun, htimers⟩ := Lib.exists_run_of_map_execute hexecute
  obtain ⟨-, hsorted, -⟩ := queue_sorted hrun
  dsimp only at htimers
  rw [htimers] at hsorted
  exact ⟨xs, c, hrun, htimers, List.rel_of_pairwise_cons hsorted (List.mem_singleton_self 1)⟩

/-- A poll posts the handlers of the timers that are due, in the order of their expiry, and these stop; the others go on, and
the least expiry is in the future. -/
theorem poll_posts_due (h : Runs xs c) (hstep : step c (.poll now) = some (c', out)) :
    out = (c.queue.timers.filter fun t => c.queue.expiry t ≤ now).flatMap (fun t => expired (c.queue.timer t)) ∧
      c'.queue.timers = c.queue.timers.filter (fun t => now < c.queue.expiry t) ∧
      (∀ t ∈ c.live, (c'.queue.timer t).isTicking = ((c.queue.timer t).isTicking && decide (now < c.queue.expiry t))) ∧
      (c'.queue.timers ≠ [] → now < c'.queue.leastExpiryTime) := by
  have hlinked := (run_invariant h).linked
  rw [step] at hstep
  cases hstep
  refine ⟨poll_ops hlinked now, poll_timers hlinked now, fun t ht => ?_, fun hne => ?_⟩
  · change ((c.queue.poll now).1.timer t).isTicking = _
    have hmem := hlinked.mem t
    rw [poll_timer hlinked]
    grind
  · change now < (c.queue.poll now).1.leastExpiryTime
    rw [(hlinked.poll now).least]
    cases htimers : (c.queue.poll now).1.timers with
    | nil => exact absurd htimers hne
    | cons front timers =>
        have hfront : front ∈ c.queue.timers.filter fun t => now < c.queue.expiry t := by
          rw [← poll_timers hlinked now, htimers]
          exact List.mem_cons_self
        have hexpiry : (c.queue.poll now).1.expiry front = c.queue.expiry front := by
          rw [expiry, poll_timer hlinked]
          split <;> rfl
        rw [firstExpiry, hexpiry]
        exact of_decide_eq_true (List.mem_filter.1 hfront).2

theorem poll_posts_due_first : ∃ (xs : List (Lib.Transition (Timers Nat Nat) (Action Nat Nat) (Posted Nat)))
    (c c' : Timers Nat Nat) (out : List (Posted Nat)), Runs xs c ∧ step c (.poll 15) = some (c', out) ∧
      out = [⟨7, false⟩] ∧ c'.queue.timers = [1] := by
  have hexecute : (Lib.execute step ({} : Timers Nat Nat)
      [.constructAt 1 20, .constructAt 2 10, .wait 1 6, .wait 2 7]).map (fun r =>
        ((r.2.queue.timers.filter fun t => r.2.queue.expiry t ≤ 15).flatMap (fun t => expired (r.2.queue.timer t)),
          r.2.queue.timers.filter fun t => 15 < r.2.queue.expiry t)) = some ([⟨7, false⟩], [1]) := rfl
  obtain ⟨xs, c, hrun, hseen⟩ := Lib.exists_run_of_map_execute hexecute
  obtain ⟨hdue, hleft⟩ := Prod.mk.inj hseen
  obtain ⟨hout, htimers, -⟩ := poll_posts_due hrun rfl
  exact ⟨xs, c, _, _, hrun, rfl, hout.trans hdue, htimers.trans hleft⟩

/-! ## No handler is lost -/

section

variable {f f' : ι → List η}

/-- Something moves out of one list and into it. -/
theorem flatMap_perm (hnodup : live.Nodup) (ht : t ∈ live) (h : ∀ u ∈ live, u ≠ t → f' u = f u) :
    (f t ++ live.flatMap f').Perm (live.flatMap f ++ f' t) := by
  have hlive := List.perm_cons_erase ht
  have hrest : (live.erase t).flatMap f' = (live.erase t).flatMap f := List.flatMap_congr fun u hu => by
    obtain ⟨hne, hmem⟩ := hnodup.mem_erase_iff.1 hu
    exact h u hmem hne
  have hnew : (live.flatMap f').Perm (f' t ++ (live.erase t).flatMap f) := by
    rw [← hrest]
    exact hlive.flatMap_right f'
  have hold : (live.flatMap f).Perm (f t ++ (live.erase t).flatMap f) := hlive.flatMap_right f
  calc (f t ++ live.flatMap f').Perm (f t ++ (f' t ++ (live.erase t).flatMap f)) := hnew.append_left _
    _ |>.Perm ((f t ++ (live.erase t).flatMap f) ++ f' t) := by
        rw [List.append_assoc]
        exact List.perm_append_comm.append_left _
    _ |>.Perm (live.flatMap f ++ f' t) := hold.symm.append_right _

end

/-- The handlers that wait. -/
def pending (c : Timers ι η) : List η := c.live.flatMap fun t => (c.queue.timer t).handlers

/-- What `async_wait` adds. -/
def added : Action ι η → List η
  | .wait _ handler => [handler]
  | _ => []

/-- A timer that ends has no handlers, or it ticks: the handlers of a timer that does not tick are not taken from it. -/
def Kept (c : Timers ι η) : Action ι η → Prop
  | .destroy t => (c.queue.timer t).isTicking = true ∨ (c.queue.timer t).handlers = []
  | .moveAssign _ new => (c.queue.timer new).isTicking = true ∨ (c.queue.timer new).handlers = []
  | _ => True

instance (c : Timers ι η) : (a : Action ι η) → Decidable (Kept c a)
  | .destroy _ | .moveAssign _ _ => inferInstanceAs (Decidable (_ ∨ _))
  | .construct _ | .constructAt _ _ | .moveConstruct _ _ | .expires _ _ | .cancel _ | .wait _ _ | .poll _ =>
    inferInstanceAs (Decidable True)

theorem cancel_perm (q : WaitQueue ι η) (hnodup : live.Nodup) (ht : t ∈ live) :
    ((cancel q t).2.map Posted.handler ++ live.flatMap fun u => ((cancel q t).1.timer u).handlers).Perm
      (live.flatMap fun u => (q.timer u).handlers) := by
  have hhandlers := fun u => (removeTimer_timer q t u).2.2
  rw [cancel, removeTimer_ops, cancelled]
  cases htick : (q.timer t).isTicking with
  | false =>
      simp only [htick, Bool.false_eq_true, and_false, if_false] at hhandlers
      simp only [hhandlers, Bool.false_eq_true, if_false, List.map_nil, List.nil_append]
      exact .refl _
  | true =>
      have hself : ((q.removeTimer t).1.timer t).handlers = [] := by rw [hhandlers, if_pos ⟨rfl, htick⟩]
      have hmoved := @flatMap_perm ι η live t _ (fun u => (q.timer u).handlers)
        (fun u => ((q.removeTimer t).1.timer u).handlers) hnodup ht fun u _ hu => by rw [hhandlers, if_neg fun h => hu h.1]
      rw [hself, List.append_nil] at hmoved
      rw [if_pos rfl, List.map_map, show Posted.handler ∘ (fun handler : η => ⟨handler, true⟩) = id from rfl, List.map_id]
      exact hmoved

theorem cancel_handlers (h : (q.timer t).isTicking = true ∨ (q.timer t).handlers = []) :
    ((cancel q t).1.timer t).handlers = [] := by
  rw [cancel, (removeTimer_timer q t t).2.2]
  grind

theorem schedule_handlers (h : Linked q live) (hlive : t ∈ live) (ht : t ∉ q.timers) (time : Int) (u : ι) :
    ((schedule q t time).timer u).handlers = (q.timer u).handlers := by
  rw [schedule, (addTimer_timer (linked_setExpiry h hlive ht time) t u).2.1]
  by_cases hu : u = t
  · rw [hu, setTimer_self]
  · rw [setTimer_of_ne q hu]

theorem moveTimers_perm (q : WaitQueue ι η) (hnodup : live.Nodup) (hold : old ∈ live) (hnew : new ∈ live) (hne : old ≠ new)
    (hempty : (q.timer new).handlers = []) :
    (live.flatMap fun u => ((q.moveTimers old new).timer u).handlers).Perm (live.flatMap fun u => (q.timer u).handlers) := by
  have hhandlers := fun u => (moveTimers_timer q hne u).2.2
  generalize hf : (fun u => (q.timer u).handlers) = f
  -- the handlers leave the old timer, and then they come to the new one
  have hleave := @flatMap_perm ι η live old _ f (Function.update f old []) hnodup hold fun u _ hu => Function.update_of_ne hu ..
  have hcome := @flatMap_perm ι η live new _ (Function.update f old []) (fun u => ((q.moveTimers old new).timer u).handlers)
    hnodup hnew fun u _ hu => by
      rw [hhandlers, if_neg hu, ← hf]
      by_cases hu' : u = old
      · rw [hu', if_pos rfl, Function.update_self]
      · rw [if_neg hu', Function.update_of_ne hu']
  rw [Function.update_self, List.append_nil] at hleave
  rw [Function.update_of_ne (Ne.symm hne), hhandlers, if_pos rfl, ← hf] at hcome
  dsimp only at hcome
  rw [hempty, List.nil_append] at hcome
  rw [← hf] at hleave ⊢
  exact hcome.trans (List.perm_append_comm.trans hleave)

theorem poll_perm (h : Linked q live) (hnodup : live.Nodup) (now : Int) :
    ((q.poll now).2.map Posted.handler ++ live.flatMap fun u => ((q.poll now).1.timer u).handlers).Perm
      (live.flatMap fun u => (q.timer u).handlers) := by
  generalize hdue : (fun u => decide (u ∈ q.timers ∧ q.expiry u ≤ now)) = due
  have hposted : (q.poll now).2.map Posted.handler =
      (q.timers.filter fun t => q.expiry t ≤ now).flatMap fun u => (q.timer u).handlers := by
    rw [poll_ops h, List.map_flatMap]
    refine List.flatMap_congr fun u _ => ?_
    rw [expired, List.map_map, show Posted.handler ∘ (fun handler : η => ⟨handler, false⟩) = id from rfl, List.map_id]
  have hqueue : (q.timers.filter fun t => q.expiry t ≤ now).Perm (live.filter due) := by
    rw [List.perm_ext_iff_of_nodup (h.nodup.filter _) (hnodup.filter _)]
    intro u
    have hmem := h.mem u
    rw [List.mem_filter, List.mem_filter, ← hdue, decide_eq_true_iff, decide_eq_true_iff]
    exact ⟨fun hu => ⟨(hmem.1 hu.1).1, hu⟩, fun hu => hu.2⟩
  have hsplit := List.filter_append_perm due live
  have hleft : (live.flatMap fun u => ((q.poll now).1.timer u).handlers).Perm
      ((live.filter fun u => !due u).flatMap fun u => (q.timer u).handlers) := by
    refine (hsplit.symm.flatMap_right _).trans ?_
    rw [List.flatMap_append]
    have hgone : (live.filter due).flatMap (fun u => ((q.poll now).1.timer u).handlers) = [] := by
      refine List.flatMap_eq_nil_iff.2 fun u hu => ?_
      have hu := (List.mem_filter.1 hu).2
      rw [← hdue, decide_eq_true_iff] at hu
      rw [poll_timer h, if_pos hu]
    have hkept : (live.filter fun u => !due u).flatMap (fun u => ((q.poll now).1.timer u).handlers) =
        (live.filter fun u => !due u).flatMap fun u => (q.timer u).handlers := by
      refine List.flatMap_congr fun u hu => ?_
      have hu := (List.mem_filter.1 hu).2
      rw [← hdue, Bool.not_eq_true', decide_eq_false_iff_not] at hu
      rw [poll_timer h, if_neg hu]
    rw [hgone, hkept]
    exact .refl _
  rw [hposted]
  refine ((hqueue.flatMap_right _).append hleft).trans ?_
  rw [← List.flatMap_append]
  exact hsplit.flatMap_right _

theorem step_pending (hinv : Invariant c) (hkept : Kept c a) (hstep : step c a = some (c', out)) :
    (out.map Posted.handler ++ pending c').Perm (pending c ++ added a) := by
  obtain ⟨hnodup, hlinked⟩ := hinv
  have hdead : ∀ {t}, t ∉ c.live → t ∉ c.queue.timers := fun ht hmem => ht ((hlinked.mem _).1 hmem).1
  have hfresh : ∀ {t : ι} (state : Timer η), t ∉ c.live →
      c.live.flatMap (fun u => ((c.queue.setTimer t state).timer u).handlers) = pending c := fun state ht =>
    List.flatMap_congr fun u hu => by rw [setTimer_of_ne _ (ne_of_mem_of_not_mem hu ht)]
  unfold pending
  cases a with
  | construct t =>
      rw [step] at hstep
      split at hstep
      · cases hstep
      · rename_i ht
        cases hstep
        rw [List.flatMap_cons, hfresh _ ht, setTimer_self]
        simp [pending, added]
  | constructAt t time =>
      rw [step] at hstep
      split at hstep
      · cases hstep
      · rename_i ht
        cases hstep
        have hnew : ∀ u, u ≠ t → (u ∈ t :: c.live ↔ u ∈ c.live) := fun u hu => by simp [hu]
        have hset : Linked (c.queue.setTimer t {}) (t :: c.live) := hlinked.setTimer (hdead ht) rfl hnew
        have hhandlers := schedule_handlers hset List.mem_cons_self (hdead ht) time
        rw [List.flatMap_congr fun u _ => hhandlers u, List.flatMap_cons, hfresh _ ht, setTimer_self]
        simp [pending, added]
  | moveConstruct old new =>
      rw [step] at hstep
      split at hstep
      · rename_i hmove
        obtain ⟨hold, hnew⟩ := hmove
        cases hstep
        have hmoved := moveTimers_perm (c.queue.setTimer new { expiryTime := c.queue.expiry old })
          (.cons hnew hnodup) (List.mem_cons_of_mem _ hold) List.mem_cons_self (ne_of_mem_of_not_mem hold hnew)
          (by rw [setTimer_self])
        refine hmoved.trans ?_
        rw [List.flatMap_cons, hfresh _ hnew, setTimer_self]
        simp [pending, added]
      · cases hstep
  | moveAssign old new =>
      rw [step] at hstep
      split at hstep
      · rename_i hmove
        obtain ⟨hold, hnew, hne⟩ := hmove
        cases hstep
        have hempty := cancel_handlers hkept
        generalize hstate : ({ (cancel c.queue new).1.timer new with expiryTime := (cancel c.queue new).1.expiry old } :
          Timer η) = state
        have hhandlers : state.handlers = [] := by rw [← hstate]; exact hempty
        have hset : ∀ u, (((cancel c.queue new).1.setTimer new state).timer u).handlers =
            ((cancel c.queue new).1.timer u).handlers := fun u => by
          by_cases hu : u = new
          · rw [hu, setTimer_self, hhandlers, hempty]
          · rw [setTimer_of_ne _ hu]
        have hmoved := moveTimers_perm ((cancel c.queue new).1.setTimer new state) hnodup hold hnew hne
          (by rw [setTimer_self]; exact hhandlers)
        rw [List.flatMap_congr fun u _ => hset u] at hmoved
        simp only [added, List.append_nil]
        exact (hmoved.append_left _).trans (cancel_perm _ hnodup hnew)
      · cases hstep
  | destroy t =>
      rw [step] at hstep
      split at hstep
      · rename_i ht
        cases hstep
        have hcancel := cancel_perm c.queue hnodup ht
        have hlive := (List.perm_cons_erase ht).flatMap_right fun u => ((cancel c.queue t).1.timer u).handlers
        rw [List.flatMap_cons, cancel_handlers hkept, List.nil_append] at hlive
        simp only [added, List.append_nil]
        exact (hlive.symm.append_left _).trans hcancel
      · cases hstep
  | expires t time =>
      rw [step] at hstep
      split at hstep
      · rename_i ht
        obtain ⟨hcancel, hout⟩ := linked_cancel hlinked t
        cases hstep
        rw [List.flatMap_congr fun u _ => schedule_handlers hcancel ht hout time u]
        simp only [added, List.append_nil]
        exact cancel_perm _ hnodup ht
      · cases hstep
  | cancel t =>
      rw [step] at hstep
      split at hstep
      · rename_i ht
        cases hstep
        simp only [added, List.append_nil]
        exact cancel_perm _ hnodup ht
      · cases hstep
  | wait t handler =>
      rw [step] at hstep
      split at hstep
      · rename_i ht
        cases hstep
        have hhandlers := fun u => (addTimerHandler_timer c.queue t handler u).2.2
        have hadded := @flatMap_perm ι η c.live t _ (fun u => (c.queue.timer u).handlers)
          (fun u => ((c.queue.addTimerHandler t handler).timer u).handlers) hnodup ht fun u _ hu => by
            rw [hhandlers, if_neg hu, List.append_nil]
        rw [hhandlers, if_pos rfl] at hadded
        refine (List.perm_append_left_iff (c.queue.timer t).handlers).1 (hadded.trans ?_)
        rw [← List.append_assoc, ← List.append_assoc]
        exact List.perm_append_comm.append_right _
      · cases hstep
  | poll now =>
      rw [step] at hstep
      cases hstep
      simp only [added, List.append_nil]
      exact poll_perm hlinked hnodup now

theorem canceled_of_mem {p : Posted η} (h : p ∈ (cancel q t).2) : p.canceled = true := by
  rw [cancel, removeTimer_ops, cancelled] at h
  split at h
  · obtain ⟨_, -, rfl⟩ := List.mem_map.1 h
    rfl
  · cases h

/-- A handler is told that it is cancelled where no time has come. -/
theorem step_canceled {p : Posted η} (hinv : Invariant c) (hstep : step c a = some (c', out)) (hp : p ∈ out) :
    p.canceled = false ↔ ∃ now, a = .poll now := by
  cases a with
  | poll now =>
      rw [step] at hstep
      cases hstep
      rw [poll_ops hinv.linked] at hp
      obtain ⟨t, -, hp⟩ := List.mem_flatMap.1 hp
      obtain ⟨_, -, rfl⟩ := List.mem_map.1 hp
      exact iff_of_true rfl ⟨now, rfl⟩
  | _ =>
      have hcanceled : p.canceled = true := by
        rw [step] at hstep
        split at hstep
        · cases hstep <;> first | cases hp | exact canceled_of_mem hp
        · cases hstep <;> cases hp
      rw [hcanceled]
      simp

/-- Every handler that is added waits, or it was posted, once: by a poll when the time has come, and as cancelled otherwise. -/
theorem handlers_posted_once (h : Runs xs c) (hkept : ∀ x ∈ xs, Kept x.before x.action) :
    ((xs.flatMap fun x => x.output.map Posted.handler) ++ pending c).Perm (xs.flatMap fun x => added x.action) ∧
      ∀ x ∈ xs, ∀ p ∈ x.output, p.canceled = false ↔ ∃ now, x.action = .poll now := by
  refine ⟨?_, fun x hx p hp => ?_⟩
  · induction h with
    | start => exact .nil
    | @next xs s t a out hrun hstep ih =>
        obtain ⟨hxs, hlast⟩ := List.forall_mem_append.1 hkept
        have hmoved := step_pending (run_invariant hrun) (hlast _ (List.mem_singleton.2 rfl)) hstep
        rw [List.flatMap_append, List.flatMap_append, List.flatMap_singleton, List.flatMap_singleton, List.append_assoc]
        refine (hmoved.append_left _).trans ?_
        rw [← List.append_assoc]
        exact (ih hxs).append_right _
  · obtain ⟨ys, hrun, -, hstep⟩ := h.of_mem hx
    exact step_canceled (run_invariant hrun) hstep hp

theorem handlers_posted_once_cancel : ∃ (xs : List (Lib.Transition (Timers Nat Nat) (Action Nat Nat) (Posted Nat)))
    (c : Timers Nat Nat), Runs xs c ∧ xs.flatMap (fun x => x.output) = [⟨7, false⟩, ⟨8, true⟩] ∧
      ((xs.flatMap fun x => x.output.map Posted.handler) ++ pending c).Perm (xs.flatMap fun x => added x.action) := by
  have hexecute : (Lib.execute step ({} : Timers Nat Nat)
      [.constructAt 1 20, .wait 1 7, .poll 25, .expires 1 30, .wait 1 8, .destroy 1]).map (fun r =>
        (decide (∀ x ∈ r.1, Kept x.before x.action), r.1.flatMap fun x => x.output)) =
      some (true, [⟨7, false⟩, ⟨8, true⟩]) := rfl
  obtain ⟨xs, c, hrun, hseen⟩ := Lib.exists_run_of_map_execute hexecute
  obtain ⟨hkept, hout⟩ := Prod.mk.inj hseen
  obtain ⟨hposted, -⟩ := handlers_posted_once hrun (of_decide_eq_true hkept)
  exact ⟨xs, c, hrun, hout, hposted⟩

/-- A handler that is added behind the expiry is posted by no cancel, and it is lost with its timer. -/
example : (Lib.execute step ({} : Timers Nat Nat) [.constructAt 1 20, .poll 25, .wait 1 7, .cancel 1, .destroy 1]).map
    (fun r => (r.1.flatMap fun x => x.output, r.2.pending)) = some ([], []) := rfl

end Timers

end Rad.Async
