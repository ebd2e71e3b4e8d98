import Mathlib.Algebra.Group.Int.Defs
import Mathlib.Algebra.GroupWithZero.Nat
import Mathlib.Data.List.Basic

/-!
# FIFO tables with a budget

Entries, oldest first, each with a weight. Before a new entry is added the oldest ones are evicted until the total
weight leaves room for it; an entry heavier than the whole budget empties the table.
-/

namespace Rad.Lib.BoundedFifo

variable {α β : Type*}

section

variable (weight : α → Nat)

/-- The weight of all entries. -/
def total (l : List α) : Nat := (l.map weight).sum

/-- Drops the oldest entries until the total weight is within the budget. -/
def evict (budget : Nat) : List α → List α
  | [] => []
  | x :: l => if total weight (x :: l) ≤ budget then x :: l else evict budget l

/-- Adds an entry to a table that may hold `max`. -/
def insert (max : Nat) (l : List α) (x : α) : List α :=
  if weight x > max then [] else evict weight (max - weight x) l ++ [x]

end

variable {weight : α → Nat}

@[simp] theorem total_nil : total weight [] = 0 := rfl

@[simp] theorem total_cons (x : α) (l : List α) : total weight (x :: l) = weight x + total weight l := by
  simp [total]

@[simp] theorem total_append (l m : List α) : total weight (l ++ m) = total weight l + total weight m := by
  simp [total]

@[simp] theorem evict_nil (budget : Nat) : evict weight budget [] = [] := rfl

theorem evict_cons (budget : Nat) (x : α) (l : List α) :
    evict weight budget (x :: l) = if total weight (x :: l) ≤ budget then x :: l else evict weight budget l := rfl

theorem evict_of_le {budget : Nat} {l : List α} (h : total weight l ≤ budget) : evict weight budget l = l := by
  cases l with
  | nil => rfl
  | cons x l => rw [evict_cons, if_pos h]

theorem total_evict_le (budget : Nat) (l : List α) : total weight (evict weight budget l) ≤ budget := by
  induction l with
  | nil => exact Nat.zero_le _
  | cons x l ih =>
      rw [evict_cons]
      split
      · assumption
      · exact ih

theorem evict_length_le (budget : Nat) (l : List α) : (evict weight budget l).length ≤ l.length := by
  induction l with
  | nil => exact Nat.le_refl _
  | cons x l ih =>
      rw [evict_cons]
      split
      · exact Nat.le_refl _
      · rw [List.length_cons]; omega

/-! ## Tables with a smaller budget -/

theorem evict_suffix (budget : Nat) (l : List α) : evict weight budget l <:+ l := by
  induction l with
  | nil => exact List.suffix_rfl
  | cons x l ih =>
      rw [evict_cons]
      split
      · exact List.suffix_rfl
      · exact ih.trans (List.suffix_cons x l)

/-- Eviction keeps every part at the end of the table that is within the budget. -/
theorem suffix_evict {budget : Nat} {l m : List α} (h : l <:+ m) (hle : total weight l ≤ budget) :
    l <:+ evict weight budget m := by
  induction m with
  | nil => exact h
  | cons x m ih =>
      rw [evict_cons]
      split
      · exact h
      · rename_i hover
        rcases List.suffix_cons_iff.1 h with rfl | hsuffix
        · exact absurd hle hover
        · exact ih hsuffix

theorem evict_suffix_evict {b c : Nat} (hle : b ≤ c) {l m : List α} (h : l <:+ m) :
    evict weight b l <:+ evict weight c m :=
  suffix_evict ((evict_suffix b l).trans h) (Nat.le_trans (total_evict_le b l) hle)

/-- A table with a smaller budget stays the newest part of one with a larger budget. -/
theorem insert_suffix_insert {n k : Nat} (hle : n ≤ k) {l m : List α} (h : l <:+ m) (x : α) :
    insert weight n l x <:+ insert weight k m x := by
  unfold insert
  by_cases hbig : weight x > n
  · rw [if_pos hbig]
    exact List.nil_suffix
  · rw [if_neg hbig, if_neg (by omega)]
    exact List.suffix_append_self_iff.2 (evict_suffix_evict (by omega) h)

/-! ## When an insertion changes nothing -/

theorem total_of_all_eq {x : α} {l : List α} (h : ∀ y ∈ l, y = x) : total weight l = l.length * weight x := by
  induction l with
  | nil => simp
  | cons y l ih =>
      rw [total_cons, ih fun z hz => h z (by simp [hz]), h y (by simp), List.length_cons, Nat.succ_mul, Nat.add_comm]

theorem concat_eq_cons_of_all_eq {x : α} {l : List α} (h : ∀ y ∈ l, y = x) : l ++ [x] = x :: l := by
  induction l with
  | nil => rfl
  | cons y l ih => rw [List.cons_append, ih fun z hz => h z (by simp [hz]), h y (by simp)]

theorem all_eq_of_concat_eq_cons {x y : α} {l : List α} (h : l ++ [x] = y :: l) : ∀ z ∈ y :: l, z = x := by
  induction l generalizing y with
  | nil => simpa [eq_comm] using h
  | cons a l ih =>
      rw [List.cons_append, List.cons.injEq] at h
      intro z hz
      rcases List.mem_cons.mp hz with hz | hz
      · exact ih h.2 z (by simp [hz, h.1])
      · exact ih h.2 z hz

/-- An insertion leaves a table as it was exactly when it empties an empty one, or when the table is full of copies of
the new entry and one of them makes room for it. -/
theorem insert_eq_self_iff {max : Nat} {l : List α} (hmax : total weight l ≤ max) (x : α) :
    insert weight max l x = l ↔
      if weight x > max then l = []
      else l ≠ [] ∧ (∀ y ∈ l, y = x) ∧ (l.length + 1) * weight x > max := by
  unfold insert
  by_cases hbig : weight x > max
  · rw [if_pos hbig, if_pos hbig, eq_comm]
  · rw [if_neg hbig, if_neg hbig]
    cases l with
    | nil => simp
    | cons y l =>
        by_cases hfit : total weight (y :: l) ≤ max - weight x
        · -- nothing is evicted, so the table grows
          rw [evict_of_le hfit]
          constructor
          · intro h
            have := congrArg List.length h
            simp at this
          · rintro ⟨-, hall, hgt⟩
            rw [total_of_all_eq hall] at hfit
            rw [Nat.succ_mul] at hgt
            omega
        · rw [evict_cons, if_neg hfit]
          constructor
          · intro h
            have hlen := congrArg List.length h
            simp only [List.length_append, List.length_cons, List.length_nil] at hlen
            have hkeep : evict weight (max - weight x) l = l := by
              cases l with
              | nil => rfl
              | cons z l =>
                  by_cases hz : total weight (z :: l) ≤ max - weight x
                  · exact evict_of_le hz
                  · rw [evict_cons, if_neg hz] at hlen
                    have := @evict_length_le _ weight (max - weight x) l
                    rw [List.length_cons] at hlen
                    omega
            rw [hkeep] at h
            have hall := all_eq_of_concat_eq_cons h
            refine ⟨by simp, hall, ?_⟩
            rw [total_of_all_eq hall] at hfit
            rw [Nat.succ_mul]
            omega
          · rintro ⟨-, hall, -⟩
            have hall' : ∀ z ∈ l, z = x := fun z hz => hall z (by simp [hz])
            have hy : y = x := hall y (by simp)
            have hle : total weight l ≤ max - weight x := by
              rw [total_cons, hy] at hmax; omega
            rw [evict_of_le hle, concat_eq_cons_of_all_eq hall', hy]

/-! ## Tables of renamed entries -/

section

variable {weight' : β → Nat} {f : α → β} (hf : ∀ x, weight' (f x) = weight x)

include hf

theorem total_map (l : List α) : total weight' (l.map f) = total weight l := by
  simp [total, Function.comp_def, hf]

theorem evict_map (budget : Nat) (l : List α) : evict weight' budget (l.map f) = (evict weight budget l).map f := by
  induction l with
  | nil => rfl
  | cons x l ih =>
      simp only [List.map_cons, evict_cons, total_cons, total_map hf, hf, ih]
      split <;> rfl

/-- Renaming entries without changing their weights commutes with insertion. -/
theorem insert_map (max : Nat) (l : List α) (x : α) :
    insert weight' max (l.map f) (f x) = (insert weight max l x).map f := by
  simp only [insert, hf, evict_map hf]
  split <;> simp

end

end Rad.Lib.BoundedFifo
