import Mathlib.Algebra.Group.Int.Defs
import Mathlib.Algebra.GroupWithZero.Nat
import Mathlib.Data.List.Basic

/-!
# Runs of a system

A system takes a step for an action: it goes to a new state and puts something out, or it cannot take the action. A run
is the list of the transitions that it makes, and what an observer sees of it is a function of that list.
-/

namespace Rad.Lib

/-- One step of a run. -/
structure Transition (σ α ω : Type*) where
  before : σ
  action : α
  output : List ω
  after : σ

section

variable {σ α ω : Type*} (step : σ → α → Option (σ × List ω))

/-- The runs that begin in a state, with the state in which they end. -/
inductive Run (s₀ : σ) : List (Transition σ α ω) → σ → Prop where
  | start : Run s₀ [] s₀
  | next {xs : List (Transition σ α ω)} {s t : σ} {a : α} {out : List ω} (h : Run s₀ xs s)
      (hstep : step s a = some (t, out)) : Run s₀ (xs ++ [⟨s, a, out, t⟩]) t

/-- The run in which the actions are taken one after the other. -/
def execute (s : σ) : List α → Option (List (Transition σ α ω) × σ)
  | [] => some ([], s)
  | a :: as =>
    match step s a with
    | none => none
    | some (t, out) => (execute t as).map fun r => (⟨s, a, out, t⟩ :: r.1, r.2)

variable {step} {s₀ s t : σ} {xs ys : List (Transition σ α ω)}

namespace Run

theorem single {a : α} {out : List ω} (h : step s a = some (t, out)) : Run step s [⟨s, a, out, t⟩] t :=
  .next .start h

theorem append (h : Run step s₀ xs s) (h' : Run step s ys t) : Run step s₀ (xs ++ ys) t := by
  induction h' with
  | start => rwa [List.append_nil]
  | next _ hstep ih => rw [← List.append_assoc]; exact .next ih hstep

/-- What every step preserves holds at the end of every run. -/
theorem invariant {I : σ → Prop} (h : Run step s₀ xs t) (hs : I s₀)
    (hstep : ∀ s a t out, I s → step s a = some (t, out) → I t) : I t := by
  induction h with
  | start => exact hs
  | next _ hnext ih => exact hstep _ _ _ _ ih hnext

/-- A step of a run is taken in a state that the run reaches. -/
theorem of_mem (h : Run step s₀ xs t) {x : Transition σ α ω} (hx : x ∈ xs) :
    ∃ ys, Run step s₀ ys x.before ∧ ys ⊆ xs ∧ step x.before x.action = some (x.after, x.output) := by
  induction h with
  | start => cases hx
  | next hrun hnext ih =>
      rcases List.mem_append.1 hx with hold | hnew
      · obtain ⟨ys, hys, hsub, hstep⟩ := ih hold
        exact ⟨ys, hys, fun y hy => List.mem_append_left _ (hsub hy), hstep⟩
      · obtain rfl := List.mem_singleton.1 hnew
        exact ⟨_, hrun, List.subset_append_left _ _, hnext⟩

/-- A run is cut at one of its steps. -/
theorem cut {x : Transition σ α ω} (h : Run step s₀ (xs ++ x :: ys) t) :
    Run step s₀ xs x.before ∧ step x.before x.action = some (x.after, x.output) ∧ Run step x.after ys t := by
  generalize hzs : xs ++ x :: ys = zs at h
  induction h generalizing ys with
  | start => simp at hzs
  | next hrun hnext ih =>
      rcases List.eq_nil_or_concat ys with rfl | ⟨ys, y, rfl⟩
      · obtain ⟨rfl, heq⟩ := List.append_inj' hzs rfl
        obtain rfl := List.singleton_inj.1 heq
        exact ⟨hrun, hnext, .start⟩
      · rw [List.concat_eq_append, ← List.cons_append, ← List.append_assoc] at hzs
        obtain ⟨rfl, heq⟩ := List.append_inj' hzs rfl
        obtain rfl := List.singleton_inj.1 heq
        rw [List.concat_eq_append]
        obtain ⟨hfirst, hstep, hlast⟩ := ih rfl
        exact ⟨hfirst, hstep, .next hlast hnext⟩

/-- A queue that is filled and drained in the steps of a run: what is drained and what is left is what was filled in. -/
theorem queue {β : Type*} (pending : σ → List β) (drained filled : Transition σ α ω → List β) (h : Run step s₀ xs t)
    (hstep : ∀ xs s a t out, Run step s₀ xs s → step s a = some (t, out) →
      drained ⟨s, a, out, t⟩ ++ pending t = pending s ++ filled ⟨s, a, out, t⟩) :
    xs.flatMap drained ++ pending t = pending s₀ ++ xs.flatMap filled := by
  induction h with
  | start => simp
  | next hrun hnext ih =>
      rw [List.flatMap_append, List.flatMap_append, List.flatMap_singleton, List.flatMap_singleton, List.append_assoc,
        hstep _ _ _ _ _ hrun hnext, ← List.append_assoc, ih, List.append_assoc]

end Run

theorem run_of_execute {as : List α} {r : List (Transition σ α ω) × σ} (h : execute step s as = some r) :
    Run step s r.1 r.2 := by
  induction as generalizing s r with
  | nil => cases h; exact .start
  | cons a as ih =>
      rw [execute] at h
      split at h
      · cases h
      · rename_i t out hstep
        obtain ⟨r', hr', rfl⟩ := Option.map_eq_some_iff.1 h
        exact (Run.single hstep).append (ih hr')

/-- A run whose actions are given, by what is seen of it. -/
theorem exists_run_of_map_execute {β : Type*} {as : List α} {f : List (Transition σ α ω) × σ → β} {b : β}
    (h : (execute step s as).map f = some b) : ∃ xs t, Run step s xs t ∧ f (xs, t) = b := by
  obtain ⟨r, hr, hf⟩ := Option.map_eq_some_iff.1 h
  exact ⟨r.1, r.2, run_of_execute hr, hf⟩

/-- The same for a run that is cut at one of its actions. -/
theorem exists_runs_of_execute {β : Type*} {as bs : List α} {a : α}
    {f : List (Transition σ α ω) × σ → σ × List ω → List (Transition σ α ω) × σ → β} {b : β}
    (h : ((execute step s as).bind fun r => (step r.2 a).bind fun q => (execute step q.1 bs).map (f r q)) = some b) :
    ∃ xs t u out ys v, Run step s xs t ∧ step t a = some (u, out) ∧ Run step u ys v ∧ f (xs, t) (u, out) (ys, v) = b := by
  obtain ⟨r, hr, h⟩ := Option.bind_eq_some_iff.1 h
  obtain ⟨⟨u, out⟩, hstep, h⟩ := Option.bind_eq_some_iff.1 h
  obtain ⟨ys, v, hys, hf⟩ := exists_run_of_map_execute h
  exact ⟨r.1, r.2, u, out, ys, v, run_of_execute hr, hstep, hys, hf⟩

/-- Steps that do not see what is forgotten make runs that do not see it. -/
theorem execute_congr {e : σ → σ}
    (hstep : ∀ s a, (step s a).map (Prod.map e fun out => out) = (step (e s) a).map (Prod.map e fun out => out))
    (h : e s = e t) (as : List α) :
    (execute step s as).map (fun r => (r.1.map Transition.output, e r.2)) =
      (execute step t as).map fun r => (r.1.map Transition.output, e r.2) := by
  induction as generalizing s t with
  | nil => exact congrArg (fun s => some ([], s)) h
  | cons a as ih =>
      have hsame : (step s a).map (Prod.map e fun out => out) = (step t a).map (Prod.map e fun out => out) := by
        rw [hstep s, hstep t, h]
      unfold execute
      cases hs : step s a with
      | none =>
          rw [hs] at hsame
          rw [Option.map_eq_none_iff.1 hsame.symm]
      | some r =>
          obtain ⟨u, out⟩ := r
          rw [hs] at hsame
          obtain ⟨⟨u', out'⟩, hr', heq⟩ := Option.map_eq_some_iff.1 hsame.symm
          obtain ⟨hstate, hout⟩ := Prod.mk.inj heq
          cases hout
          have hrest := congrArg (Option.map fun p => (out :: p.1, p.2)) (ih hstate.symm)
          rw [hr']
          dsimp only
          rw [Option.map_map, Option.map_map] at hrest ⊢
          exact hrest

end

end Rad.Lib
