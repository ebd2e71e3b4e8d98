import Mathlib.Algebra.Group.Int.Defs
import Mathlib.Algebra.GroupWithZero.Nat
import Mathlib.Data.List.Forall2

/-!
# The first element that satisfies a predicate

An object of a list is found by a key, changed in place and erased. The operations are given by the index of the first
element that satisfies a predicate; here is how they compose.
-/

namespace Rad.Lib

variable {α : Type*} {p q : α → Bool} {f : α → α}

theorem find?_modify (hf : ∀ x, p x → p (f x)) (l : List α) :
    (l.modify (l.findIdx p) f).find? p = (l.find? p).map f := by
  induction l with
  | nil => rfl
  | cons x l ih =>
      by_cases hx : p x
      · simp [List.findIdx_cons, hx, hf x hx]
      · simpa [List.findIdx_cons, hx] using ih

/-- An element that is found by another key is not changed. -/
theorem find?_modify_of_not (hq : ∀ x, p x → q x = false ∧ q (f x) = false) (l : List α) :
    (l.modify (l.findIdx p) f).find? q = l.find? q := by
  induction l with
  | nil => rfl
  | cons x l ih =>
      by_cases hx : p x
      · simp [List.findIdx_cons, hx, hq x hx]
      · by_cases hqx : q x
        · simp [List.findIdx_cons, hx, hqx]
        · simpa [List.findIdx_cons, hx, hqx] using ih

theorem find?_eraseIdx_of_not (hq : ∀ x, p x → q x = false) (l : List α) :
    (l.eraseIdx (l.findIdx p)).find? q = l.find? q := by
  induction l with
  | nil => rfl
  | cons x l ih =>
      by_cases hx : p x
      · simp [List.findIdx_cons, hx, hq x hx]
      · by_cases hqx : q x
        · simp [List.findIdx_cons, hx, hqx]
        · simpa [List.findIdx_cons, hx, hqx] using ih

theorem modify_modify (hf : ∀ x, p x → p (f x)) (g : α → α) (l : List α) :
    (l.modify (l.findIdx p) f).modify ((l.modify (l.findIdx p) f).findIdx p) g =
      l.modify (l.findIdx p) (g ∘ f) := by
  induction l with
  | nil => rfl
  | cons x l ih =>
      by_cases hx : p x
      · simp [List.findIdx_cons, hx, hf x hx]
      · simpa [List.findIdx_cons, hx] using ih

theorem eraseIdx_modify (hf : ∀ x, p x → p (f x)) (l : List α) :
    (l.modify (l.findIdx p) f).eraseIdx ((l.modify (l.findIdx p) f).findIdx p) = l.eraseIdx (l.findIdx p) := by
  induction l with
  | nil => rfl
  | cons x l ih =>
      by_cases hx : p x
      · simp [List.findIdx_cons, hx, hf x hx]
      · simpa [List.findIdx_cons, hx] using ih

/-- The change of an element that is found is the replacement of it. -/
theorem modify_of_find? {x : α} {l : List α} (h : l.find? p = some x) (f : α → α) :
    l.modify (l.findIdx p) f = l.modify (l.findIdx p) fun _ => f x := by
  induction l with
  | nil => cases h
  | cons y l ih =>
      by_cases hy : p y
      · have hyx : y = x := by simpa [List.find?_cons, hy] using h
        simp [List.findIdx_cons, hy, ← hyx]
      · have hrest : l.find? p = some x := by simpa [List.find?_cons, hy] using h
        simpa [List.findIdx_cons, hy] using ih hrest

theorem modify_self {x : α} {l : List α} (h : l.find? p = some x) : (l.modify (l.findIdx p) fun _ => x) = l := by
  rw [← modify_of_find? h fun y => y]
  exact List.modify_id _ _

section Split

variable {first last : List α} {x : α}

theorem modify_append_cons (hfirst : ∀ y ∈ first, p y = false) (hx : p x = true) (f : α → α) :
    (first ++ x :: last).modify ((first ++ x :: last).findIdx p) f = first ++ f x :: last := by
  induction first with
  | nil => simp [List.findIdx_cons, hx]
  | cons y first ih =>
      have hrest := ih fun z hz => hfirst z (List.mem_cons_of_mem _ hz)
      simpa [List.findIdx_cons, hfirst y (List.mem_cons_self ..)] using hrest

theorem eraseIdx_append_cons (hfirst : ∀ y ∈ first, p y = false) (hx : p x = true) :
    (first ++ x :: last).eraseIdx ((first ++ x :: last).findIdx p) = first ++ last := by
  induction first with
  | nil => simp [List.findIdx_cons, hx]
  | cons y first ih =>
      have hrest := ih fun z hz => hfirst z (List.mem_cons_of_mem _ hz)
      simpa [List.findIdx_cons, hfirst y (List.mem_cons_self ..)] using hrest

end Split

/-! ## Lists that lose elements -/

section SublistForall₂

variable {R : α → α → Prop}

theorem sublistForall₂_modify [Std.Refl R] {l : List α} (h : ∀ x, l.find? p = some x → R (f x) x) :
    List.SublistForall₂ R (l.modify (l.findIdx p) f) l := by
  induction l with
  | nil => exact .nil
  | cons x l ih =>
      by_cases hx : p x
      · simp only [List.findIdx_cons, hx, cond_true, List.modify_zero_cons]
        exact .cons (h x (by simp [hx])) (refl _)
      · simp only [List.findIdx_cons, hx, cond_false, List.modify_succ_cons]
        exact .cons (refl _) (ih fun y hy => h y (by simpa [List.find?_cons, hx] using hy))

theorem sublistForall₂_replace [Std.Refl R] {x y : α} (h : R y x) (first last : List α) :
    List.SublistForall₂ R (first ++ y :: last) (first ++ x :: last) := by
  induction first with
  | nil => exact .cons h (refl _)
  | cons z first ih => exact .cons (refl _) ih

theorem sublistForall₂_map {l : List α} (h : ∀ x ∈ l, R (f x) x) : List.SublistForall₂ R (l.map f) l := by
  induction l with
  | nil => exact .nil
  | cons x l ih =>
      exact .cons (h x (List.mem_cons_self ..)) (ih fun y hy => h y (List.mem_cons_of_mem _ hy))

theorem sublistForall₂_filterMap {g : α → Option α} {l : List α} (h : ∀ x ∈ l, ∀ y, g x = some y → R y x) :
    List.SublistForall₂ R (l.filterMap g) l := by
  induction l with
  | nil => exact .nil
  | cons x l ih =>
      have hrest := ih fun y hy => h y (List.mem_cons_of_mem _ hy)
      cases hx : g x with
      | none => rw [List.filterMap_cons_none hx]; exact .cons_right hrest
      | some y => rw [List.filterMap_cons_some hx]; exact .cons (h x (List.mem_cons_self ..) y hx) hrest

theorem sublistForall₂_imp {S : α → α → Prop} (hRS : ∀ y x, R y x → S y x) {l l' : List α}
    (h : List.SublistForall₂ R l' l) : List.SublistForall₂ S l' l := by
  induction h with
  | nil => exact .nil
  | cons hR _ ih => exact .cons (hRS _ _ hR) ih
  | cons_right _ ih => exact .cons_right ih

theorem exists_of_sublistForall₂ {l l' : List α} (h : List.SublistForall₂ R l' l) {y : α} (hy : y ∈ l') :
    ∃ x ∈ l, R y x := by
  induction h with
  | nil => cases hy
  | cons hR _ ih =>
      rcases List.mem_cons.1 hy with rfl | hy
      · exact ⟨_, List.mem_cons_self .., hR⟩
      · obtain ⟨x, hx, hRx⟩ := ih hy
        exact ⟨x, List.mem_cons_of_mem _ hx, hRx⟩
  | cons_right _ ih =>
      obtain ⟨x, hx, hRx⟩ := ih hy
      exact ⟨x, List.mem_cons_of_mem _ hx, hRx⟩

end SublistForall₂

/-- A change in a list that is mapped before and after it. -/
theorem map_modify_map {β γ : Type*} {a : α → β} {b : β → γ} {c : α → γ} {f : β → β} {g : α → α}
    (hmap : ∀ x, b (a x) = c x) (hchange : ∀ x, b (f (a x)) = c (g x)) (l : List α) (i : Nat) :
    ((l.map a).modify i f).map b = (l.modify i g).map c := by
  induction l generalizing i with
  | nil => simp
  | cons x l ih =>
      cases i with
      | zero => simp [hchange, hmap]
      | succ i => simp [hmap, ih]

end Rad.Lib
