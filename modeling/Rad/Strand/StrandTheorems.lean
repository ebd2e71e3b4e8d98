import Rad.Strand.Lemmas.Steps

/-!
# Strands: each operation once, in order and alone
-/

namespace Rad.Strand

variable {ν τ : Type} {s t : State ν τ} {rs qs : List ν} {a : Action ν τ}
  {out : List (Event ν)}

/-- The operations that are posted and invoked in a step. -/
def postedIn (out : List (Event ν)) : List ν := out.filterMap Event.posted?

def invokedIn (out : List (Event ν)) : List ν := out.filterMap Event.invoked?

theorem postedIn_posted (ops : List ν) : postedIn (ops.map .posted) = ops := by
  rw [postedIn, List.filterMap_map]
  exact List.filterMap_some

theorem invokedIn_posted (ops : List ν) : invokedIn (ops.map .posted) = [] := by
  rw [invokedIn, List.filterMap_map]
  exact List.filterMap_none ops

theorem postedIn_invoked (op : Option ν) : postedIn (op.toList.map .invoked) = [] := by
  cases op <;> rfl

theorem invokedIn_invoked (op : Option ν) : invokedIn (op.toList.map .invoked) = op.toList := by
  cases op <;> rfl

/-! ## The steps of a call of `run` -/

variable [DecidableEq ν] {i : Nat} {act : Activation ν τ}

theorem advance_entering (h : act.phase = .entering) : s.advance i act =
    some ({ s with
      runState := .executing
      id := some act.thread
      ops := {}
      runs := s.runs.set i { act with phase := .outer, readyOps := s.ops } }, none) := by
  simp only [State.advance, h]

theorem advance_outer (h : act.phase = .outer) : s.advance i act =
    some ({ s with
      runs := s.runs.set i { act with phase := if act.readyOps.isEmpty then .leaving else .inner } }, none) := by
  simp only [State.advance, h]

theorem advance_inner_empty (h : act.phase = .inner) (hempty : act.readyOps.isEmpty = true) : s.advance i act =
    some ({ s with ops := {}, runs := s.runs.set i { act with phase := .outer, readyOps := s.ops } }, none) := by
  simp only [State.advance, h, hempty, if_true]

theorem advance_inner {op : ν} {l : ForwardList ν} (h : act.phase = .inner) (hempty : ¬act.readyOps.isEmpty = true)
    (hpop : act.readyOps.tryPopFront s.links = some (op, l)) : s.advance i act =
    some ({ s with runs := s.runs.set i { act with phase := .invoking op, readyOps := l } }, some op) := by
  simp only [State.advance, h, hempty, hpop, if_false, Option.map_some, Bool.false_eq_true]

omit [DecidableEq ν] in
/-- The call of `run` that goes on is the only one. -/
theorem eq_of_runs {a : Activation ν τ} (hruns : s.runs = [a]) (hi : s.runs[i]? = some act) : i = 0 ∧ a = act := by
  rw [hruns] at hi
  cases i with
  | zero => exact ⟨rfl, Option.some.inj hi⟩
  | succ i => cases hi

/-- What a call of `run` does in its next step. -/
theorem Inv.advance (h : Inv s rs qs) (hi : s.runs[i]? = some act) (hphase : ∀ op, act.phase ≠ .invoking op) :
    ∃ t op rs' qs', s.advance i act = some (t, op) ∧ Inv t rs' qs' ∧ op.toList ++ (rs' ++ qs') = rs ++ qs := by
  have hnil : (qs ++ []).Nodup := by
    rw [List.append_nil]
    exact (List.nodup_append.1 h.nodup).2.1
  cases h.owner with
  | nobody _ _ hruns => rw [hruns] at hi; cases hi
  | executor _ _ hruns => rw [hruns] at hi; cases hi
  | entered a hstate hqueue hruns hentering hready =>
      obtain ⟨rfl, rfl⟩ := eq_of_runs hruns hi
      refine ⟨_, none, qs, [], advance_entering hentering,
        ⟨.runner { a with phase := .outer, readyOps := s.ops } rfl hqueue ?_ (fun hphase => nomatch hphase) h.ops, Holds.empty, hnil, ?_⟩,
        List.append_nil qs⟩
      · show s.runs.set 0 _ = [_]
        rw [hruns]
        rfl
      · exact fun hidle => nomatch hidle
  | runner a hstate hqueue hruns hentering hready =>
      obtain ⟨rfl, rfl⟩ := eq_of_runs hruns hi
      cases hat : a.phase with
      | entering => exact absurd hat hentering
      | invoking op => exact absurd hat (hphase op)
      | outer =>
          refine ⟨_, none, rs, qs, advance_outer hat, h.turn hstate hruns ?_ hready h.ops h.nodup, rfl⟩
          show (if a.readyOps.isEmpty then Phase.leaving else .inner) ≠ .entering
          split <;> exact fun hphase => nomatch hphase
      | inner =>
          cases rs with
          | nil =>
              exact ⟨_, none, qs, [], advance_inner_empty hat (hready.isEmpty_iff.2 rfl),
                h.turn hstate hruns (fun hphase => nomatch hphase) h.ops Holds.empty hnil, List.append_nil qs⟩
          | cons op rs =>
              obtain ⟨l, hpop, hl⟩ := hready.tryPopFront
              have hne : ¬a.readyOps.isEmpty = true := mt hready.isEmpty_iff.1 (List.cons_ne_nil op rs)
              exact ⟨_, some op, rs, qs, advance_inner hat hne hpop,
                h.turn hstate hruns (fun hphase => nomatch hphase) hl h.ops (List.nodup_cons.1 h.nodup).2, rfl⟩
      | leaving =>
          obtain ⟨t, hafter, ht⟩ := h.afterRun hruns hready
          refine ⟨_, none, [], rs ++ qs, ?_, ht, rfl⟩
          rw [State.advance, hat]
          simp only [hafter, Option.map_some]

omit [DecidableEq ν] in
theorem Inv.finish {op : ν} (h : Inv s rs qs) (hi : s.runs[i]? = some act) (hphase : act.phase = .invoking op)
    (thrown : Bool) : ∃ t, s.finish i act thrown = some t ∧ Inv t rs qs := by
  cases h.owner with
  | nobody _ _ hruns => rw [hruns] at hi; cases hi
  | executor _ _ hruns => rw [hruns] at hi; cases hi
  | entered a hstate hqueue hruns hentering hready =>
      obtain ⟨rfl, rfl⟩ := eq_of_runs hruns hi
      cases hphase.symm.trans hentering
  | runner a hstate hqueue hruns hentering hready =>
      obtain ⟨rfl, rfl⟩ := eq_of_runs hruns hi
      refine ⟨{ s with runs := s.runs.set 0 { a with phase := if thrown then .leaving else .inner } }, ?_,
        h.turn hstate hruns ?_ hready h.ops h.nodup⟩
      · rw [State.finish, hphase]
      · show (if thrown then Phase.leaving else .inner) ≠ .entering
        split <;> exact fun hphase => nomatch hphase

/-! ## The steps of a strand -/

variable [DecidableEq τ]

/-- Each step that can be taken is taken, it keeps the invariant, and it invokes the operation in front. -/
theorem Inv.step (h : Inv s rs qs) (hlinkable : a.Linkable s) (henabled : a.Enabled s) :
    ∃ t out rs' qs', step s a = some (t, out) ∧ Inv t rs' qs' ∧
      invokedIn out ++ (rs' ++ qs') = rs ++ qs ++ postedIn out := by
  have hnodup := hlinkable.1
  have hnew := hlinkable.2
  rw [h.linked] at hnew
  have hquiet {t : State ν τ} (ht : Inv t rs qs) (hstep : Strand.step s a = some (t, [])) :
      ∃ t out rs' qs', Strand.step s a = some (t, out) ∧ Inv t rs' qs' ∧
        invokedIn out ++ (rs' ++ qs') = rs ++ qs ++ postedIn out :=
    ⟨t, [], rs, qs, hstep, ht, (List.append_nil _).symm⟩
  have hposted {t : State ν τ} (ops : List ν) (ht : Inv t rs (qs ++ ops))
      (hstep : Strand.step s a = some (t, ops.map .posted)) :
      ∃ t out rs' qs', Strand.step s a = some (t, out) ∧ Inv t rs' qs' ∧
        invokedIn out ++ (rs' ++ qs') = rs ++ qs ++ postedIn out := by
    refine ⟨t, _, rs, qs ++ ops, hstep, ht, ?_⟩
    rw [invokedIn_posted, postedIn_posted, List.nil_append, List.append_assoc]
  have hwork (n : UInt64) : Inv { s with workCount := n } rs qs := h.same rfl rfl rfl rfl rfl
  have happend {ops : List ν} (hops : ops.Nodup) (hnew : ∀ op ∈ ops, op ∉ rs ++ qs) : (rs ++ (qs ++ ops)).Nodup := by
    rw [← List.append_assoc, List.nodup_append]
    exact ⟨h.nodup, hops, fun n hn op hop heq => hnew op hop (heq ▸ hn)⟩
  have hstep := step.eq_def s a
  rw [if_neg (not_not.2 hlinkable)] at hstep
  cases a with
  | post op =>
      obtain ⟨t, hpost, ht⟩ := (hwork (s.workCount + 1)).doPostFinished (hnew op (List.mem_singleton.2 rfl))
      refine hposted [op] ht (hstep.trans ?_)
      simp only [State.post, hpost, Option.map_some, List.map_cons, List.map_nil]
  | postFinished op =>
      obtain ⟨t, hpost, ht⟩ := h.doPostFinished (hnew op (List.mem_singleton.2 rfl))
      refine hposted [op] ht (hstep.trans ?_)
      simp only [hpost, Option.map_some, List.map_cons, List.map_nil]
  | trySchedule thread op =>
      by_cases hid : s.id = some thread
      · refine hquiet h (hstep.trans ?_)
        simp only [State.trySchedule, if_pos hid, Option.map_some, Bool.false_eq_true, if_false]
      · obtain ⟨t, hpost, ht⟩ := (hwork (s.workCount + 1)).doPostFinished (hnew op (List.mem_singleton.2 rfl))
        refine hposted [op] ht (hstep.trans ?_)
        simp only [State.trySchedule, if_neg hid, hpost, Option.map_some, if_true, List.map_cons, List.map_nil]
  | postList ops =>
      obtain ⟨t, l, hlink, ht, hl⟩ : ∃ t l, s.link ops = some (t, l) ∧ Inv t rs qs ∧ Holds t.links l ops :=
        h.link hnodup hnew
      by_cases hempty : l.isEmpty = true
      · obtain rfl := hl.isEmpty_iff.1 hempty
        refine hquiet ht (hstep.trans ?_)
        simp only [hlink, Option.bind_some, State.postList, hempty, if_true, Option.map_some, List.map_nil]
      · have hwork : Inv { t with workCount := t.workCount + l.nodesCount.toUInt64 } rs qs :=
          ht.same rfl rfl rfl rfl rfl
        obtain ⟨t', hpost, ht'⟩ := hwork.doPostFinishedList hl (happend hnodup hnew)
        refine hposted _ ht' (hstep.trans ?_)
        simp only [hlink, Option.bind_some, State.postList, if_neg hempty, hpost, Option.map_some]
  | postFinishedList ops =>
      obtain ⟨t, l, hlink, ht, hl⟩ : ∃ t l, s.link ops = some (t, l) ∧ Inv t rs qs ∧ Holds t.links l ops :=
        h.link hnodup hnew
      obtain ⟨t', hpost, ht'⟩ := ht.doPostFinishedList hl (happend hnodup hnew)
      refine hposted _ ht' (hstep.trans ?_)
      simp only [hlink, Option.bind_some, hpost, Option.map_some]
  | addWork n => exact hquiet (hwork _) hstep
  | consumeWork n => exact hquiet (hwork _) hstep
  | cancelWork =>
      refine hquiet ?_ hstep
      split
      · exact (hwork _).postWaiter
      · exact hwork _
  | asyncWait =>
      refine hquiet ?_ hstep
      split
      · exact h
      · exact h.same rfl rfl rfl rfl rfl
  | start thread => exact hquiet (h.start henabled thread) (hstep.trans (if_pos henabled))
  | resume =>
      have hwaiter : InnerOp.waiter ∈ s.innerQueue := henabled
      have hcount : (s.innerQueue.erase .waiter).count .strand = s.innerQueue.count .strand :=
        List.count_erase_of_ne (show InnerOp.strand ≠ .waiter by decide)
      have hresumed : Inv { s with innerQueue := s.innerQueue.erase .waiter } rs qs := h.same rfl hcount rfl rfl rfl
      exact hquiet hresumed (hstep.trans (if_pos hwaiter))
  | advance i =>
      obtain ⟨act, hi, hphase⟩ := henabled
      obtain ⟨t, op, rs', qs', hadvance, ht, hops⟩ := h.advance hi hphase
      refine ⟨t, op.toList.map .invoked, rs', qs', hstep.trans ?_, ht, ?_⟩
      · simp only [hi, Option.bind_some, hadvance, Option.map_some]
      · rw [invokedIn_invoked, postedIn_invoked, hops, List.append_nil]
  | finish i thrown =>
      obtain ⟨act, op, hi, hphase⟩ := henabled
      obtain ⟨t, hfinish, ht⟩ := h.finish hi hphase thrown
      refine hquiet ht (hstep.trans ?_)
      simp only [hi, Option.bind_some, hfinish, Option.map_some]

theorem enabled_of_step {r : State ν τ × List (Event ν)} (h : Strand.step s a = some r) :
    a.Linkable s ∧ a.Enabled s := by
  rw [Strand.step.eq_def] at h
  split at h
  · cases h
  rename_i hlinkable
  refine ⟨not_not.1 hlinkable, ?_⟩
  cases a with
  | start thread =>
      simp only at h
      split at h
      · rename_i hqueue
        exact hqueue
      · cases h
  | resume =>
      simp only at h
      split at h
      · rename_i hqueue
        exact hqueue
      · cases h
  | advance i =>
      obtain ⟨act, hi, h⟩ := Option.bind_eq_some_iff.1 h
      obtain ⟨x, hadvance, -⟩ := Option.map_eq_some_iff.1 h
      refine ⟨act, hi, fun op hphase => ?_⟩
      rw [State.advance, hphase] at hadvance
      cases hadvance
  | finish i thrown =>
      obtain ⟨act, hi, h⟩ := Option.bind_eq_some_iff.1 h
      obtain ⟨x, hfinish, -⟩ := Option.map_eq_some_iff.1 h
      cases hphase : act.phase with
      | invoking op => exact ⟨act, op, hi, hphase⟩
      | _ =>
          rw [State.finish, hphase] at hfinish
          cases hfinish
  | _ => trivial

/-! ## Runs -/

open Lib

/-- The operations that are posted and invoked in a run, one after the other. -/
def posted (xs : List (Transition (State ν τ) (Action ν τ) (Event ν))) : List ν := xs.flatMap fun x => postedIn x.output

def invoked (xs : List (Transition (State ν τ) (Action ν τ) (Event ν))) : List ν :=
  xs.flatMap fun x => invokedIn x.output

variable {links : Links ν} {xs : List (Transition (State ν τ) (Action ν τ) (Event ν))}

theorem exists_inv (h : Run Strand.step (State.fresh links) xs t) : ∃ rs qs, Inv t rs qs :=
  h.invariant (I := fun s => ∃ rs qs, Inv s rs qs) ⟨[], [], Inv.fresh links⟩ fun s a t out ⟨rs, qs, hs⟩ hstep => by
    obtain ⟨hlinkable, henabled⟩ := enabled_of_step hstep
    obtain ⟨t', out', rs', qs', hstep', ht, -⟩ := hs.step hlinkable henabled
    cases hstep.symm.trans hstep'
    exact ⟨rs', qs', ht⟩

/-- What is posted is invoked or still linked, in the order of the posts. -/
theorem invoked_append_linked (h : Run Strand.step (State.fresh links) xs t) : invoked xs ++ t.linked = posted xs := by
  have hqueue := h.queue State.linked (fun x => invokedIn x.output) (fun x => postedIn x.output)
    fun ys s a t out hrun hstep => by
      obtain ⟨rs, qs, hs⟩ := exists_inv hrun
      obtain ⟨hlinkable, henabled⟩ := enabled_of_step hstep
      obtain ⟨t', out', rs', qs', hstep', ht, hops⟩ := hs.step hlinkable henabled
      cases hstep.symm.trans hstep'
      rw [ht.linked, hs.linked]
      exact hops
  rwa [(Inv.fresh links : Inv (State.fresh links : State ν τ) [] []).linked] at hqueue

/-- A strand runs every operation once, in order and alone, and no step of it follows a null pointer. -/
theorem run_once_in_order (h : Run Strand.step (State.fresh links) xs t) :
    t.innerQueue.count .strand + t.runs.length ≤ 1 ∧
      invoked xs ++ t.linked = posted xs ∧ t.linked.Nodup ∧
      (t.ops.isEmpty = false → t.runState ≠ .idle) ∧
      (t.linked ≠ [] → t.innerQueue.count .strand + t.runs.length = 1) ∧
      ∀ a : Action ν τ, a.Linkable t → a.Enabled t → (Strand.step t a).isSome := by
  obtain ⟨rs, qs, ht⟩ := exists_inv h
  refine ⟨ht.alone, invoked_append_linked h, ?_, fun hops hidle => ?_, fun hlinked => ht.owned.1 fun hidle => ?_,
    fun a hlinkable henabled => ?_⟩
  · rw [ht.linked]
    exact ht.nodup
  · have hempty : t.ops.isEmpty = true := ht.ops.isEmpty_iff.2 (ht.idle hidle)
    exact absurd (hops.symm.trans hempty) (by decide)
  · exact hlinked (ht.linked.trans (by rw [ht.taken_of_idle hidle, ht.idle hidle, List.nil_append]))
  · obtain ⟨t', out, rs', qs', hstep, -⟩ := ht.step hlinkable henabled
    rw [hstep]
    rfl

/-- Three operations, of which the first one posts another one and the second one exits by an exception. -/
theorem run_once_in_order_thrown :
    ∃ (xs : List (Transition (State Nat Nat) (Action Nat Nat) (Event Nat))) (t : State Nat Nat),
      posted xs = [1, 2, 3, 4] ∧ invoked xs = [1, 2] ∧ invoked xs ++ t.linked = posted xs ∧
        t.innerQueue.count .strand + t.runs.length = 1 := by
  have hexecute : (execute Strand.step (State.fresh fun _ => none : State Nat Nat)
      [.post 1, .postList [2, 3], .start 7, .advance 0, .advance 0, .advance 0, .post 4, .trySchedule 7 5,
        .finish 0 false, .advance 0, .finish 0 true, .advance 0]).map
      (fun r => (posted r.1, invoked r.1, r.2.linked)) = some ([1, 2, 3, 4], [1, 2], [3, 4]) := by decide
  obtain ⟨xs, t, hrun, hseen⟩ := exists_run_of_map_execute hexecute
  simp only [Prod.mk.injEq] at hseen
  obtain ⟨-, hinvoked, -, -, howned, -⟩ := run_once_in_order hrun
  refine ⟨xs, t, hseen.1, hseen.2.1, hinvoked, howned ?_⟩
  rw [hseen.2.2]
  exact List.cons_ne_nil _ _

end Rad.Strand
