import Rad.RingBuffer.Basic

/-!
# What a ring buffer represents

`Repr b l`: the buffer `b` satisfies the representation invariant and its elements, oldest first, are `l`. `Holds` is
the same without the condition on the pointers of an empty buffer, which every removing operation restores last.
-/

namespace Rad.RingBuffer

open Lib

variable {α : Type*} {b : RingBuffer α} {l : List α}

structure Holds (b : RingBuffer α) (l : List α) : Prop where
  front_lt : b.frontPtr < b.capacity
  back_eq : b.backPtr = wrap b.capacity b.frontPtr l.length
  count_eq : b.count = l.length
  length_le : l.length ≤ b.capacity
  /-- The slot `i` steps after the front holds the `i`-th element, and no element when there is none. -/
  slot : ∀ i, i < b.capacity → b.slots[wrap b.capacity b.frontPtr i]? = some l[i]?

structure Repr (b : RingBuffer α) (l : List α) : Prop extends Holds b l where
  empty_start : l = [] → b.frontPtr = 0

/-- The invariant for elements with a trivial destructor: what is in the slots behind the elements does not matter. -/
structure Contains (b : RingBuffer α) (l : List α) : Prop where
  front_lt : b.frontPtr < b.capacity
  back_eq : b.backPtr = wrap b.capacity b.frontPtr l.length
  count_eq : b.count = l.length
  length_le : l.length ≤ b.capacity
  slot : ∀ i, i < l.length → b.slots[wrap b.capacity b.frontPtr i]? = some l[i]?
  empty_start : l = [] → b.frontPtr = 0

theorem Repr.contains (h : Repr b l) : Contains b l :=
  ⟨h.front_lt, h.back_eq, h.count_eq, h.length_le, fun i hi => h.slot i (Nat.lt_of_lt_of_le hi h.length_le),
    h.empty_start⟩

theorem Holds.cap_pos (h : Holds b l) : 0 < b.capacity := Nat.lt_of_le_of_lt (Nat.zero_le _) h.front_lt

theorem Holds.back_lt (h : Holds b l) : b.backPtr < b.capacity := by
  rw [h.back_eq]; exact wrap_lt h.front_lt h.length_le

theorem Repr.back_of_empty (h : Repr b l) (he : l = []) : b.backPtr = 0 := by
  have hf := h.empty_start he
  have hc := h.cap_pos
  rw [h.back_eq, he, hf]; simp [wrap, hc]

/-- The representation of a list is determined by its capacity and its front. -/
theorem Repr.eq_of_front {c : RingBuffer α} (h : Repr b l) (h' : Repr c l) (hcap : b.capacity = c.capacity)
    (hfront : b.frontPtr = c.frontPtr) : b = c := by
  have hback : b.backPtr = c.backPtr := by rw [h.back_eq, h'.back_eq, hcap, hfront]
  have hcount : b.count = c.count := by rw [h.count_eq, h'.count_eq]
  have hslots : b.slots = c.slots := by
    apply List.ext_getElem?
    intro j
    by_cases hj : j < b.capacity
    · obtain ⟨i, hi, rfl⟩ := exists_wrap h.front_lt hj
      rw [h.slot i hi, hcap, hfront, h'.slot i (hcap ▸ hi)]
    · have hlen : b.slots.length = c.slots.length := hcap
      simp only [RingBuffer.capacity] at hj
      rw [List.getElem?_eq_none (by omega), List.getElem?_eq_none (by omega)]
  obtain ⟨slots, front, back, count⟩ := b
  simp_all

/-! ## Reading -/

theorem Contains.isLinearized_iff (h : Contains b l) :
    b.isLinearized = true ↔ b.frontPtr + l.length ≤ b.capacity := by
  have hf := h.front_lt
  have hl := h.length_le
  have hb := h.back_eq
  unfold wrap at hb
  simp only [isLinearized, Bool.or_eq_true, decide_eq_true_eq, beq_iff_eq]
  by_cases he : l = []
  · have := h.empty_start he
    simp only [he, List.length_nil] at hb ⊢
    split at hb <;> omega
  · have : 0 < l.length := List.length_pos_iff.mpr he
    split at hb <;> omega

theorem Repr.isLinearized_iff (h : Repr b l) :
    b.isLinearized = true ↔ b.frontPtr + l.length ≤ b.capacity := h.contains.isLinearized_iff

theorem Repr.slot_linear (h : Repr b l) {i : Nat} (hi : b.frontPtr + i < b.capacity) :
    b.slots[b.frontPtr + i]? = some l[i]? := by
  have := h.slot i (by omega)
  rwa [wrap, if_pos hi] at this

theorem Repr.slot_wrapped (h : Repr b l) {i : Nat} (hi : i < b.frontPtr) :
    b.slots[i]? = some l[b.capacity - b.frontPtr + i]? := by
  have hf := h.front_lt
  have := h.slot (b.capacity - b.frontPtr + i) (by omega)
  rw [wrap, if_neg (by omega)] at this
  rw [← this]; congr 1; omega

theorem Contains.getArray1_eq (h : Contains b l) :
    b.getArray1 b.isLinearized = (l.take (b.capacity - b.frontPtr)).map some := by
  have hf := h.front_lt
  have hcap : b.slots.length = b.capacity := rfl
  have hlin := h.isLinearized_iff
  have hlinear {i : Nat} (hi : i < l.length) (hcap : b.frontPtr + i < b.capacity) :
      b.slots[b.frontPtr + i]? = some (some l[i]) := by
    have := h.slot i hi
    rwa [wrap, if_pos hcap, List.getElem?_eq_getElem hi] at this
  apply List.ext_getElem?
  intro i
  rw [List.getElem?_map, List.getElem?_take]
  unfold getArray1
  split
  · rename_i hl
    rw [hlin] at hl
    rw [List.getElem?_take, List.getElem?_drop]
    simp only [size, h.count_eq]
    by_cases hi : i < l.length
    · rw [if_pos hi, if_pos (by omega), hlinear hi (by omega), List.getElem?_eq_getElem hi]; rfl
    · rw [if_neg hi, List.getElem?_eq_none (by omega : l.length ≤ i)]; simp
  · rename_i hl
    rw [hlin] at hl
    rw [List.getElem?_drop]
    by_cases hi : i < b.capacity - b.frontPtr
    · rw [if_pos hi, hlinear (by omega) (by omega), List.getElem?_eq_getElem (by omega : i < l.length)]; rfl
    · rw [if_neg hi, List.getElem?_eq_none (by omega)]; rfl

theorem Repr.getArray1_eq (h : Repr b l) :
    b.getArray1 b.isLinearized = (l.take (b.capacity - b.frontPtr)).map some := h.contains.getArray1_eq

theorem Contains.getArray2_eq (h : Contains b l) :
    b.getArray2 b.isLinearized = (l.drop (b.capacity - b.frontPtr)).map some := by
  have hf := h.front_lt
  have hle := h.length_le
  have hlin := h.isLinearized_iff
  have hb := h.back_eq
  unfold getArray2
  split
  · rename_i hl
    rw [hlin] at hl
    rw [List.drop_eq_nil_of_le (by omega)]; rfl
  · rename_i hl
    rw [hlin] at hl
    rw [wrap, if_neg (by omega)] at hb
    apply List.ext_getElem?
    intro i
    rw [List.getElem?_take, List.getElem?_map, List.getElem?_drop]
    by_cases hi : i < b.backPtr
    · have hslot := h.slot (b.capacity - b.frontPtr + i) (by omega)
      rw [wrap, if_neg (by omega), show b.frontPtr + (b.capacity - b.frontPtr + i) - b.capacity = i by omega] at hslot
      rw [if_pos hi, hslot, List.getElem?_eq_getElem (by omega)]; rfl
    · rw [if_neg hi, List.getElem?_eq_none (by omega)]; rfl

theorem Repr.getArray2_eq (h : Repr b l) :
    b.getArray2 b.isLinearized = (l.drop (b.capacity - b.frontPtr)).map some := h.contains.getArray2_eq

theorem Contains.arrays_eq (h : Contains b l) : b.arrayOne ++ b.arrayTwo = l.map some := by
  rw [arrayOne, arrayTwo, h.getArray1_eq, h.getArray2_eq, ← List.map_append, List.take_append_drop]

theorem Repr.arrays_eq (h : Repr b l) : b.arrayOne ++ b.arrayTwo = l.map some := h.contains.arrays_eq

theorem Repr.indexToPointer_eq (h : Repr b l) {i : Nat} (hi : i < l.length) :
    b.indexToPointer i = wrap b.capacity b.frontPtr i := by
  have hf := h.front_lt
  have hlin := h.isLinearized_iff
  unfold indexToPointer wrap
  split
  · rename_i hl
    rw [hlin] at hl
    rw [if_pos (by omega)]
  · simp only
    split <;> split <;> omega

theorem Repr.get_eq (h : Repr b l) {i : Nat} (hi : i < l.length) : b.get i = l[i]? := by
  have hle := h.length_le
  rw [get, deref, h.indexToPointer_eq hi, h.slot i (by omega)]; rfl

theorem Repr.pointerToIndex_wrap (h : Repr b l) {i : Nat} (hi : i < l.length) :
    b.pointerToIndex (some (wrap b.capacity b.frontPtr i)) = i := by
  have hf := h.front_lt
  have hle := h.length_le
  simp only [pointerToIndex, wrap]
  split <;> split <;> omega

/-! ## Iteration -/

theorem increment_wrap {i : Nat} (hf : b.frontPtr < b.capacity) (hi : i < b.capacity) :
    b.increment (wrap b.capacity b.frontPtr i) = wrap b.capacity b.frontPtr (i + 1) := by
  unfold increment wrap
  split <;> split <;> split <;> omega

theorem Repr.next_wrap (h : Repr b l) {i : Nat} (hi : i < l.length) :
    b.next (wrap b.capacity b.frontPtr i) =
      if i + 1 = l.length then none else some (wrap b.capacity b.frontPtr (i + 1)) := by
  have hf := h.front_lt
  have hle := h.length_le
  have hiff : wrap b.capacity b.frontPtr (i + 1) = b.backPtr ↔ i + 1 = l.length := by
    rw [h.back_eq]; unfold wrap; split <;> split <;> omega
  simp only [next, increment_wrap hf (by omega : i < b.capacity), hiff]

/-- Iterating from the `i`-th element reads the elements from there on and then meets the end. -/
theorem Repr.iterate_from (h : Repr b l) :
    ∀ (n i : Nat), i + n = l.length → 0 < n →
      b.iterate n (some (wrap b.capacity b.frontPtr i)) = some ((l.drop i).map some)
  | 0, _, _, hn => absurd hn (by omega)
  | n + 1, i, hi, _ => by
      have hlt : i < l.length := by omega
      have hle := h.length_le
      have hd : b.deref (wrap b.capacity b.frontPtr i) = some l[i] := by
        rw [deref, h.slot i (by omega), List.getElem?_eq_getElem hlt]; rfl
      simp only [iterate, h.next_wrap hlt, hd]
      rw [List.drop_eq_getElem_cons hlt, List.map_cons]
      by_cases he : i + 1 = l.length
      · rw [if_pos he, List.drop_eq_nil_of_le (by omega)]
        cases n <;> simp [iterate]
      · rw [if_neg he, h.iterate_from n (i + 1) (by omega) (by omega)]; rfl

theorem Repr.iterate_begin (h : Repr b l) : b.iterate b.size b.begin = some (l.map some) := by
  have hf := h.front_lt
  have hc := h.count_eq
  unfold begin
  by_cases he : l = []
  · subst he
    simp only [empty, size, hc, List.length_nil, beq_self_eq_true, if_true, iterate, List.map_nil]
  · have hp : 0 < l.length := List.length_pos_iff.mpr he
    have hne : b.empty = false := by simp [empty, size, hc, he]
    rw [hne, if_neg (by simp), ← wrap_zero hf, size, hc]
    exact h.iterate_from l.length 0 (by omega) hp

theorem Repr.range_eq (h : Repr b l) : b.range = l.map some := by
  rw [range, h.iterate_begin]; rfl

/-! ## Searching -/

theorem findInSlots_map_some (pred : α → Bool) (xs : List α) :
    findInSlots pred (xs.map some) = xs.findIdx? pred := by
  rw [findInSlots, List.findIdx?_map]; rfl

/-- `find_if` points at the first element that satisfies the predicate. -/
theorem Repr.findIf_eq (h : Repr b l) (pred : α → Bool) :
    b.findIf pred = (l.findIdx? pred).map (wrap b.capacity b.frontPtr) := by
  have hf := h.front_lt
  have hle := h.length_le
  have hsplit : l.findIdx? pred =
      ((l.take (b.capacity - b.frontPtr)).findIdx? pred).or
        (((l.drop (b.capacity - b.frontPtr)).findIdx? pred).map
          (· + (l.take (b.capacity - b.frontPtr)).length)) := by
    rw [← List.findIdx?_append, List.take_append_drop]
  simp only [findIf, h.getArray1_eq, h.getArray2_eq, findInSlots_map_some]
  rw [hsplit]
  cases h1 : (l.take (b.capacity - b.frontPtr)).findIdx? pred with
  | some i =>
      have hi : i < (l.take (b.capacity - b.frontPtr)).length := (List.findIdx?_eq_some_iff_getElem.mp h1).1
      rw [List.length_take] at hi
      simp only [Option.some_or, Option.map_some, wrap]
      rw [if_pos (by omega)]
  | none =>
      simp only [Option.none_or]
      cases h2 : (l.drop (b.capacity - b.frontPtr)).findIdx? pred with
      | none => simp
      | some i =>
          have hi : i < (l.drop (b.capacity - b.frontPtr)).length := (List.findIdx?_eq_some_iff_getElem.mp h2).1
          rw [List.length_drop] at hi
          have hlin : b.isLinearized = false := by
            rw [Bool.eq_false_iff, ne_eq, h.isLinearized_iff]; omega
          rw [hlin, if_neg (by simp)]
          simp only [Option.map_some, Option.some.injEq, wrap, List.length_take]
          rw [if_neg (by omega)]; omega

end Rad.RingBuffer
