import Mathlib.Algebra.Group.Int.Defs
import Mathlib.Algebra.GroupWithZero.Nat
import Mathlib.Data.List.Basic

/-!
# Lists that are split at a separator

`List.splitOn` and `List.intercalate` are inverse; what their pieces hold and how they begin.
-/

namespace Rad.Lib

variable {α : Type*} [DecidableEq α] {sep x : α} {xs p : List α} {xss : List (List α)}

theorem splitOn_append {t u : List α} (h : sep ∉ t) :
    (t ++ u).splitOn sep = (u.splitOn sep).modifyHead (t ++ ·) := by
  induction t with
  | nil =>
      rw [List.nil_append]
      cases hu : u.splitOn sep <;> rfl
  | cons b t ih =>
      have hb : ¬(b == sep) = true := by
        rw [beq_iff_eq]
        exact fun hb => h (hb ▸ List.mem_cons_self)
      rw [List.cons_append, List.splitOn_cons_eq_if_modifyHead, if_neg hb, ih fun ht => h (List.mem_cons_of_mem _ ht)]
      cases u.splitOn sep <;> rfl

/-- Each element but the separator is in a piece, and the pieces have no other elements. -/
theorem mem_splitOn_iff : (∃ piece ∈ xs.splitOn sep, x ∈ piece) ↔ x ∈ xs ∧ x ≠ sep := by
  induction xs with
  | nil => simp
  | cons y xs ih =>
      rw [List.splitOn_cons_eq_if_modifyHead]
      by_cases hy : y = sep
      · rw [if_pos (beq_iff_eq.2 hy)]
        simp only [List.mem_cons, exists_eq_or_imp, List.not_mem_nil, false_or, ih]
        exact ⟨fun h => ⟨.inr h.1, h.2⟩, fun h => ⟨h.1.resolve_left fun hx => h.2 (hx.trans hy), h.2⟩⟩
      · rw [if_neg (mt beq_iff_eq.1 hy)]
        cases hxs : xs.splitOn sep with
        | nil => exact absurd hxs (List.splitOn_ne_nil _ _)
        | cons piece pieces =>
            rw [hxs] at ih
            simp only [List.modifyHead_cons, List.mem_cons, exists_eq_or_imp] at ih ⊢
            constructor
            · rintro ((rfl | hx) | hx)
              · exact ⟨.inl rfl, hy⟩
              · exact ⟨.inr (ih.1 (.inl hx)).1, (ih.1 (.inl hx)).2⟩
              · exact ⟨.inr (ih.1 (.inr hx)).1, (ih.1 (.inr hx)).2⟩
            · rintro ⟨rfl | hx, hne⟩
              · exact .inl (.inl rfl)
              · exact (ih.2 ⟨hx, hne⟩).imp .inr id

theorem mem_of_mem_piece {piece : List α} (hpiece : piece ∈ xs.splitOn sep) (hx : x ∈ piece) : x ∈ xs :=
  (mem_splitOn_iff.1 ⟨piece, hpiece, hx⟩).1

/-- A text that stands at the beginning of one of the parts begins a piece. -/
theorem exists_piece_of_prefix (hsep : sep ∉ p) (hmem : ∃ ys ∈ xss, p <+: ys) :
    ∃ piece ∈ ([sep].intercalate xss).splitOn sep, p <+: piece := by
  have hhead {ys : List α} (h : p <+: ys) : ∃ piece ∈ ys.splitOn sep, p <+: piece := by
    obtain ⟨zs, rfl⟩ := h
    rw [splitOn_append hsep]
    cases hzs : zs.splitOn sep with
    | nil => exact absurd hzs (List.splitOn_ne_nil _ _)
    | cons piece pieces => exact ⟨p ++ piece, List.mem_cons_self, List.prefix_append p piece⟩
  induction xss with
  | nil =>
      obtain ⟨ys, hys, -⟩ := hmem
      cases hys
  | cons ys xss ih =>
      cases xss with
      | nil =>
          obtain ⟨zs, hzs, hprefix⟩ := hmem
          rw [List.mem_singleton.1 hzs] at hprefix
          rw [List.intercalate_singleton]
          exact hhead hprefix
      | cons zs xss =>
          rw [List.intercalate_cons_cons, List.append_assoc, List.singleton_append, List.splitOn_append_cons_self]
          obtain ⟨vs, hvs, hprefix⟩ := hmem
          rcases List.mem_cons.1 hvs with rfl | hvs
          · obtain ⟨piece, hpiece, hp⟩ := hhead hprefix
            exact ⟨piece, List.mem_append_left _ hpiece, hp⟩
          · obtain ⟨piece, hpiece, hp⟩ := ih ⟨vs, hvs, hprefix⟩
            exact ⟨piece, List.mem_append_right _ hpiece, hp⟩

omit [DecidableEq α] in
theorem mem_intercalate (h : x ∈ [sep].intercalate xss) : x = sep ∨ ∃ xs ∈ xss, x ∈ xs := by
  induction xss with
  | nil => cases h
  | cons ys xss ih =>
      cases xss with
      | nil =>
          rw [List.intercalate_singleton] at h
          exact .inr ⟨ys, List.mem_cons_self, h⟩
      | cons zs xss =>
          rw [List.intercalate_cons_cons, List.mem_append, List.mem_append, List.mem_singleton] at h
          rcases h with (hx | hx) | hx
          · exact .inr ⟨ys, List.mem_cons_self, hx⟩
          · exact .inl hx
          · exact (ih hx).imp id fun ⟨vs, hvs, hx⟩ => ⟨vs, List.mem_cons_of_mem _ hvs, hx⟩

omit [DecidableEq α] in
theorem intercalate_concat (h : xss ≠ []) (ys : List α) :
    [sep].intercalate (xss ++ [ys]) = [sep].intercalate xss ++ [sep] ++ ys := by
  induction xss with
  | nil => exact absurd rfl h
  | cons xs xss ih =>
      cases xss with
      | nil => rw [List.singleton_append, List.intercalate_cons_cons, List.intercalate_singleton, List.intercalate_singleton]
      | cons zs xss =>
          rw [List.cons_append, List.cons_append, List.intercalate_cons_cons, ← List.cons_append, ih (List.cons_ne_nil _ _),
            List.intercalate_cons_cons]
          simp only [List.append_assoc]

/-- A function that makes nothing else to the separator can be applied before the list is split or afterwards. -/
theorem splitOn_map {f : α → α} (hf : ∀ x ∈ xs, f x = sep ↔ x = sep) :
    (xs.map f).splitOn sep = (xs.splitOn sep).map (List.map f) := by
  induction xs with
  | nil => rfl
  | cons x xs ih =>
      obtain ⟨hx, hf⟩ := List.forall_mem_cons.1 hf
      rw [List.map_cons, List.splitOn_cons_eq_if_modifyHead, List.splitOn_cons_eq_if_modifyHead, ih hf]
      by_cases hsep : x = sep
      · rw [if_pos (beq_iff_eq.2 (hx.2 hsep)), if_pos (beq_iff_eq.2 hsep)]
        rfl
      · rw [if_neg (mt beq_iff_eq.1 (mt hx.1 hsep)), if_neg (mt beq_iff_eq.1 hsep)]
        cases xs.splitOn sep <;> rfl

end Rad.Lib
