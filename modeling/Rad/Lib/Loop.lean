import Mathlib.Algebra.Group.Int.Defs
import Mathlib.Algebra.GroupWithZero.Nat
import Mathlib.Data.Finset.Card
import Mathlib.Logic.Relation

/-!
# Loops

A loop is the function that makes one pass of it: it goes on with a new state or returns a result. Returning is an
inductive relation, so that a loop which never returns has no result.
-/

namespace Rad.Lib

/-- What one pass of a loop comes to. -/
inductive Pass (σ ρ : Type*) where
  | next (s : σ)
  | done (r : ρ)
  deriving DecidableEq

/-- The state with which the loop goes on. -/
def Pass.state {σ ρ : Type*} : Pass σ ρ → Option σ
  | .next s => some s
  | .done _ => none

section

variable {σ ρ : Type*} (pass : σ → Pass σ ρ)

/-- The loop returns `r` when it is entered in the state `s`. -/
inductive Returns : σ → ρ → Prop where
  | done {s : σ} {r : ρ} (h : pass s = .done r) : Returns s r
  | next {s t : σ} {r : ρ} (h : pass s = .next t) (ht : Returns t r) : Returns s r

/-- A loop that is entered in the state `s` comes to make a pass in the state `t`. -/
abbrev Visits : σ → σ → Prop := Relation.ReflTransGen fun s t => pass s = .next t

/-- The loop with at most `fuel` passes. -/
def runLoop (fuel : Nat) (s : σ) : Option ρ :=
  match fuel with
  | 0 => none
  | fuel + 1 =>
    match pass s with
    | .done r => some r
    | .next t => runLoop fuel t

/-- The states in which a loop makes its first `fuel` passes. -/
def visited (fuel : Nat) (s : σ) : List σ :=
  match fuel with
  | 0 => []
  | fuel + 1 =>
    s :: match pass s with
      | .done _ => []
      | .next t => visited fuel t

/-- The state in which a loop makes the pass behind the first `n`. -/
def stateAfter (n : Nat) (s : σ) : σ :=
  match n with
  | 0 => s
  | n + 1 => (pass (stateAfter n s)).state.getD (stateAfter n s)

variable {pass}

theorem pass_stateAfter {n : Nat} {s : σ} (h : (pass (stateAfter pass n s)).state.isSome) :
    pass (stateAfter pass n s) = .next (stateAfter pass (n + 1) s) := by
  rw [stateAfter]
  cases hpass : pass (stateAfter pass n s) with
  | next t => rfl
  | done r => rw [hpass] at h; cases h

theorem returns_of_runLoop {fuel : Nat} {s : σ} {r : ρ} (h : runLoop pass fuel s = some r) : Returns pass s r := by
  induction fuel generalizing s with
  | zero => cases h
  | succ fuel ih =>
      rw [runLoop] at h
      split at h
      · rename_i r' hdone
        cases h
        exact .done hdone
      · rename_i t hnext
        exact .next hnext (ih h)

theorem returns_of_map_runLoop {α : Type*} {fuel : Nat} {s : σ} {f : ρ → α} {a : α}
    (h : (runLoop pass fuel s).map f = some a) : ∃ r, Returns pass s r ∧ f r = a := by
  obtain ⟨r, hr, hf⟩ := Option.map_eq_some_iff.1 h
  exact ⟨r, returns_of_runLoop hr, hf⟩

theorem Returns.unique {s : σ} {r r' : ρ} (h : Returns pass s r) (h' : Returns pass s r') : r = r' := by
  induction h with
  | done hdone =>
      cases h' with
      | done hdone' => rw [hdone] at hdone'; cases hdone'; rfl
      | next hnext' => rw [hdone] at hnext'; cases hnext'
  | next hnext _ ih =>
      cases h' with
      | done hdone' => rw [hnext] at hdone'; cases hdone'
      | next hnext' ht' =>
          rw [hnext] at hnext'
          cases hnext'
          exact ih ht'

theorem Visits.returns {s t : σ} {r : ρ} (h : Visits pass s t) (ht : Returns pass t r) : Returns pass s r := by
  induction h using Relation.ReflTransGen.head_induction_on with
  | refl => exact ht
  | head hnext _ ih => exact .next hnext ih

theorem Visits.returns_of {s t : σ} {r : ρ} (h : Visits pass s t) (hs : Returns pass s r) : Returns pass t r := by
  induction h with
  | refl => exact hs
  | tail _ hnext ih =>
      cases ih with
      | done hdone => rw [hnext] at hdone; cases hdone
      | next hnext' ht => rw [hnext] at hnext'; cases hnext'; exact ht

/-- The result comes from the last state that the loop visits. -/
theorem Returns.exists_last {s : σ} {r : ρ} (h : Returns pass s r) : ∃ t, Visits pass s t ∧ pass t = .done r := by
  induction h with
  | done hdone => exact ⟨_, .refl, hdone⟩
  | next hnext _ ih =>
      obtain ⟨t, hvisits, hdone⟩ := ih
      exact ⟨t, .head hnext hvisits, hdone⟩

theorem Visits.mem_visited {fuel : Nat} {s t : σ} (h : Visits pass s t) (hreturns : (runLoop pass fuel s).isSome) :
    t ∈ visited pass fuel s := by
  induction fuel generalizing s with
  | zero => cases hreturns
  | succ fuel ih =>
      rw [visited, List.mem_cons]
      rw [runLoop] at hreturns
      rcases Relation.ReflTransGen.cases_head h with rfl | ⟨u, hnext, hvisits⟩
      · exact .inl rfl
      · simp only [hnext] at hreturns ⊢
        exact .inr (ih hvisits hreturns)

theorem visits_of_mem_visited {fuel : Nat} {s t : σ} (h : t ∈ visited pass fuel s) : Visits pass s t := by
  induction fuel generalizing s with
  | zero => cases h
  | succ fuel ih =>
      rw [visited, List.mem_cons] at h
      rcases h with rfl | h
      · exact .refl
      · cases hpass : pass s with
        | done r => simp only [hpass, List.not_mem_nil] at h
        | next u =>
            simp only [hpass] at h
            exact .head hpass (ih h)

/-- What every pass preserves holds in every state that is visited. -/
theorem Visits.preserves {s t : σ} {I : σ → Prop} (h : Visits pass s t)
    (hpass : ∀ u v, Visits pass s u → I u → pass u = .next v → I v) (hs : I s) : I t := by
  induction h with
  | refl => exact hs
  | tail hvisits hnext ih => exact hpass _ _ hvisits ih hnext

/-- A loop does not return from a set of states that no pass leaves. -/
theorem not_returns_of_trap {D : σ → Prop} (htrap : ∀ s, D s → ∃ t, pass s = .next t ∧ D t) {s : σ} (hs : D s) (r : ρ) :
    ¬Returns pass s r := by
  intro h
  induction h with
  | done hdone =>
      obtain ⟨t, hnext, -⟩ := htrap _ hs
      rw [hdone] at hnext
      cases hnext
  | next hnext _ ih =>
      obtain ⟨t, hnext', ht⟩ := htrap _ hs
      rw [hnext] at hnext'
      cases hnext'
      exact ih ht

/-- A loop returns when each of its passes makes a measure smaller. -/
theorem exists_returns_of_measure (μ : σ → Nat) {s : σ}
    (hpass : ∀ t u, Visits pass s t → pass t = .next u → μ u < μ t) : ∃ r, Returns pass s r := by
  -- strong induction on the measure: the rest of the loop is entered with a smaller one
  induction hn : μ s using Nat.strongRecOn generalizing s with
  | ind n ih =>
      cases hs : pass s with
      | done r => exact ⟨r, .done hs⟩
      | next t =>
          have hlt : μ t < n := hn ▸ hpass s t .refl hs
          obtain ⟨r, hr⟩ := ih (μ t) hlt (fun u v hvisits => hpass u v (.head hs hvisits)) rfl
          exact ⟨r, .next hs hr⟩

/-! ## Loops of finitely many states -/

variable (pass) in
/-- One or more passes lead from a state to another one. -/
abbrev LeadsTo : σ → σ → Prop := Relation.TransGen fun s t => pass s = .next t

/-- A loop that comes back to a state does not return. -/
theorem not_returns_of_leadsTo_self {s : σ} (h : LeadsTo pass s s) (r : ρ) : ¬Returns pass s r := by
  -- every state on the way has a next one on the way
  refine not_returns_of_trap (D := fun t => LeadsTo pass t s) (fun t ht => ?_) h r
  rcases Relation.TransGen.head'_iff.1 ht with ⟨u, hnext, hvisits⟩
  refine ⟨u, hnext, ?_⟩
  rcases Relation.reflTransGen_iff_eq_or_transGen.1 hvisits with rfl | hleads
  · exact h
  · exact hleads

/-- A loop of finitely many states returns exactly when it comes back to none of them. -/
theorem exists_returns_iff_acyclic {s : σ} {S : Finset σ} (hS : ∀ t, Visits pass s t → t ∈ S) :
    (∃ r, Returns pass s r) ↔ ∀ t, Visits pass s t → ¬LeadsTo pass t t := by
  classical
  constructor
  · rintro ⟨r, hr⟩ t hvisits hcycle
    exact not_returns_of_leadsTo_self hcycle r (hvisits.returns_of hr)
  · intro hacyclic
    -- the states that are still to be visited become fewer
    refine exists_returns_of_measure (fun t => (S.filter fun u => Visits pass t u).card) fun t u hvisits hnext => ?_
    refine Finset.card_lt_card ⟨fun v hv => ?_, fun hsub => ?_⟩
    · rw [Finset.mem_filter] at hv ⊢
      exact ⟨hv.1, .head hnext hv.2⟩
    · have ht : t ∈ S.filter fun v => Visits pass t v := Finset.mem_filter.2 ⟨hS t hvisits, .refl⟩
      exact hacyclic t hvisits (.head' hnext (Finset.mem_filter.1 (hsub ht)).2)

end

end Rad.Lib
