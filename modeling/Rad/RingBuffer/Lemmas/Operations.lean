import Rad.RingBuffer.Lemmas.Representation

/-!
# What the operations of a ring buffer do to the elements

One specification for each operation: from `Repr b l` it gives `Repr` of the result and the new list.
-/

namespace Rad.RingBuffer

open Lib

variable {α : Type*} {b : RingBuffer α} {l : List α}

@[simp] theorem capacity_mk {slots : List (Option α)} {f k c : Nat} :
    (⟨slots, f, k, c⟩ : RingBuffer α).capacity = slots.length := rfl

theorem Repr.nil {slots : List (Option α)} (hpos : 0 < slots.length)
    (h : ∀ j, j < slots.length → slots[j]? = some none) : Repr ⟨slots, 0, 0, 0⟩ ([] : List α) where
  front_lt := hpos
  back_eq := by simp [wrap, capacity, hpos]
  count_eq := rfl
  length_le := Nat.zero_le _
  slot := fun i hi => by
    simp only [capacity] at hi
    simp only [capacity, wrap, Nat.zero_add, hi, if_true, h i hi, List.getElem?_nil]
  empty_start := fun _ => rfl

theorem Holds.resetIfEmpty (h : Holds b l) : Repr b.resetIfEmpty l := by
  unfold RingBuffer.resetIfEmpty
  rw [h.count_eq]
  by_cases he : l = []
  · subst he
    rw [if_pos List.length_nil, List.length_nil]
    refine Repr.nil h.cap_pos fun j hj => ?_
    obtain ⟨i, hi, hij⟩ := exists_wrap h.front_lt hj
    rw [← hij, h.slot i hi]; rfl
  · rw [if_neg (by simpa using he)]
    exact { h with empty_start := fun hn => absurd hn he }

/-! ## Removing from the front -/

theorem Holds.dropFront (h : Holds b l) {n : Nat} (hn : n ≤ l.length) {slots : List (Option α)} {front : Nat}
    (hlen : slots.length = b.capacity) (hfront : front = wrap b.capacity b.frontPtr n)
    (hslots : ∀ i, i < b.capacity → slots[wrap b.capacity b.frontPtr i]? =
      if i < n then some none else b.slots[wrap b.capacity b.frontPtr i]?) :
    Holds ⟨slots, front, b.backPtr, b.count - n⟩ (l.drop n) := by
  have hf := h.front_lt
  have hle := h.length_le
  refine ⟨?_, ?_, ?_, ?_, ?_⟩
  · simp only [capacity_mk, hlen, hfront]; exact wrap_lt hf (by omega)
  · simp only [capacity_mk, hlen, hfront, List.length_drop]
    rw [wrap_wrap hf (by omega), h.back_eq]
    congr 1; omega
  · simp only [h.count_eq, List.length_drop]
  · simp only [capacity_mk, hlen, List.length_drop]; omega
  · intro i hi
    simp only [capacity_mk, hlen] at hi
    simp only [capacity_mk, hlen, hfront, List.getElem?_drop]
    by_cases hin : n + i < b.capacity
    · rw [wrap_wrap hf (by omega), hslots _ hin, if_neg (by omega), h.slot _ hin]
    · -- the position is one of the `n` destroyed slots, reached again past the end
      have hw : wrap b.capacity (wrap b.capacity b.frontPtr n) i =
          wrap b.capacity b.frontPtr (n + i - b.capacity) := by
        unfold wrap; split <;> split <;> split <;> omega
      rw [hw, hslots _ (by omega), if_pos (by omega), List.getElem?_eq_none (by omega)]

theorem Repr.popFront (h : Repr b l) (hne : l ≠ []) : Repr b.popFront l.tail := by
  have hf := h.front_lt
  have hp : 0 < l.length := List.length_pos_iff.mpr hne
  have hle := h.length_le
  have hcap : b.slots.length = b.capacity := rfl
  rw [← List.drop_one]
  refine Holds.resetIfEmpty (h.toHolds.dropFront (by omega) (by simp [hcap]) ?_ ?_)
  · rw [← increment_wrap hf (by omega : 0 < b.capacity), wrap_zero hf]
  · intro i hi
    have hiff : b.frontPtr = wrap b.capacity b.frontPtr i ↔ i < 1 := by
      unfold wrap; split <;> omega
    rw [List.getElem?_set]
    simp only [hiff, hcap, hf, if_true]

theorem Repr.popFrontValue (h : Repr b l) : b.popFrontValue = (l.head?, b.popFront) := by
  have hf := h.front_lt
  have h0 := h.slot 0 h.cap_pos
  rw [wrap_zero hf] at h0
  rw [RingBuffer.popFrontValue, deref, h0, List.head?_eq_getElem?]; rfl

theorem destroySlots_length {slots : List (Option α)} {first n : Nat} (h : first + n ≤ slots.length) :
    (destroySlots slots first n).length = slots.length := by
  rw [destroySlots, length_overwrite (by simpa using h)]

theorem destroySlots_getElem? {slots : List (Option α)} {first n : Nat} (h : first + n ≤ slots.length) (j : Nat) :
    (destroySlots slots first n)[j]? = if first ≤ j ∧ j < first + n then some none else slots[j]? := by
  rw [destroySlots, getElem?_overwrite (by simpa using h), List.length_replicate]
  split
  · rw [List.getElem?_replicate, if_pos (by omega)]
  · rfl

/-- The `n` slots that are destroyed are those of the elements from the `k`-th on. -/
theorem getElem?_destroy_wrap {first k m n i : Nat}
    (hfirst : first = wrap b.capacity b.frontPtr k) (hm : m = k + n) (hle : m ≤ b.capacity)
    (hn : first + n ≤ b.capacity) (hi : i < b.capacity) :
    (destroySlots b.slots first n)[wrap b.capacity b.frontPtr i]? =
      if k ≤ i ∧ i < m then some none else b.slots[wrap b.capacity b.frontPtr i]? := by
  have hiff : (first ≤ wrap b.capacity b.frontPtr i ∧ wrap b.capacity b.frontPtr i < first + n) ↔ k ≤ i ∧ i < m := by
    rcases wrap_cases b.capacity b.frontPtr k with ⟨hk, hwrap⟩ | ⟨hk, hwrap⟩ <;>
      rcases wrap_cases b.capacity b.frontPtr i with ⟨hi', hwrap'⟩ | ⟨hi', hwrap'⟩ <;> omega
  rw [destroySlots_getElem? hn]
  simp only [hiff]

theorem getElem?_destroy_front {n i : Nat} (hf : b.frontPtr < b.capacity) (hn : b.frontPtr + n ≤ b.capacity)
    (hi : i < b.capacity) :
    (destroySlots b.slots b.frontPtr n)[wrap b.capacity b.frontPtr i]? =
      if i < n then some none else b.slots[wrap b.capacity b.frontPtr i]? := by
  have hget := getElem?_destroy_wrap (wrap_zero hf).symm (Nat.zero_add n).symm (by omega) hn hi
  simpa only [Nat.zero_le, true_and] using hget

/-- Past the end of the storage, the elements go on at its start. -/
theorem Repr.take_wrapped (h : Repr b l) {m : Nat} (hl : b.capacity < b.frontPtr + l.length) (hm : m ≤ l.length)
    (hk : b.capacity - b.frontPtr ≤ m) :
    (l.take (b.capacity - b.frontPtr)).map some ++
      ((destroySlots b.slots b.frontPtr (b.capacity - b.frontPtr)).take b.backPtr).take
        (m - (b.capacity - b.frontPtr)) = (l.take m).map some := by
  have hf := h.front_lt
  have hle := h.length_le
  have hback := h.back_eq
  rw [wrap, if_neg (by omega)] at hback
  have hsplit : l.take m = l.take (b.capacity - b.frontPtr) ++
      (l.drop (b.capacity - b.frontPtr)).take (m - (b.capacity - b.frontPtr)) := by
    rw [← List.take_add, show b.capacity - b.frontPtr + (m - (b.capacity - b.frontPtr)) = m by omega]
  rw [hsplit, List.map_append]
  congr 1
  apply List.ext_getElem?
  intro i
  rw [List.getElem?_take, List.getElem?_take, List.getElem?_map, List.getElem?_take, List.getElem?_drop,
    destroySlots_getElem? (by simp only [capacity] at hf ⊢; omega)]
  split
  · rw [if_pos (by omega), if_neg (by omega), h.slot_wrapped (by omega), List.getElem?_eq_getElem (by omega)]
    rfl
  · rfl

theorem Repr.popFrontRange (h : Repr b l) (num : Nat) :
    (b.popFrontRange num).1 = (l.take num).map some ∧ Repr (b.popFrontRange num).2 (l.drop num) := by
  have hf := h.front_lt
  have hle := h.length_le
  have hc := h.count_eq
  have hcap : b.slots.length = b.capacity := rfl
  have hlin := h.isLinearized_iff
  have hback := h.back_eq
  have htake : l.take num = l.take (min num l.length) := by rw [← List.take_take, List.take_length]
  have hdrop : l.drop num = l.drop (min num l.length) := by
    rcases Nat.le_total num l.length with hn | hn
    · rw [Nat.min_eq_left hn]
    · rw [Nat.min_eq_right hn, List.drop_length, List.drop_eq_nil_of_le hn]
  rw [htake, hdrop]
  unfold RingBuffer.popFrontRange
  simp only [size, hc]
  generalize hm : min num l.length = m
  have hml : m ≤ l.length := by omega
  split
  · rename_i h0; rw [h0]; exact ⟨rfl, by simpa using h⟩
  rename_i h0
  split
  · -- one array
    rename_i hl
    rw [hlin] at hl
    refine ⟨?_, Holds.resetIfEmpty ?_⟩
    · apply List.ext_getElem?
      intro i
      rw [List.getElem?_take, List.getElem?_drop, List.getElem?_map, List.getElem?_take]
      split
      · rw [h.slot_linear (by omega), List.getElem?_eq_getElem (by omega)]; rfl
      · rfl
    · rw [← hc]
      refine h.toHolds.dropFront hml (destroySlots_length (by omega)) ?_ ?_
      · unfold endToStart wrap; split <;> split <;> omega
      · intro i hi; exact getElem?_destroy_front hf (by omega) hi
  · -- two arrays
    rename_i hl
    rw [hlin] at hl
    rw [wrap, if_neg (by omega)] at hback
    have harr : b.getArray1 false = (l.take (b.capacity - b.frontPtr)).map some := by
      rw [← h.getArray1_eq]; congr 1; symm; rw [Bool.eq_false_iff, ne_eq, hlin]; exact hl
    simp only [harr, List.length_map, List.length_take]
    rw [Nat.min_eq_left (by omega : b.capacity - b.frontPtr ≤ l.length), ← List.map_take, List.take_take]
    split
    · -- the first array is used up
      rename_i hr
      have hm1 : min m (b.capacity - b.frontPtr) = b.capacity - b.frontPtr := by omega
      rw [hm1] at hr ⊢
      have hd := fun j => @destroySlots_getElem? _ b.slots b.frontPtr
        (b.capacity - b.frontPtr) (by omega) j
      have hdl : (destroySlots b.slots b.frontPtr (b.capacity - b.frontPtr)).length = b.capacity :=
        destroySlots_length (by omega)
      refine ⟨?_, Holds.resetIfEmpty ?_⟩
      · rw [Nat.min_self]
        exact h.take_wrapped (by omega) hml (by omega)
      · rw [← hc]
        refine h.toHolds.dropFront hml ?_ ?_ ?_
        · rw [destroySlots_length (by omega), hdl]
        · unfold endToStart wrap; split <;> split <;> omega
        · intro i hi
          rw [destroySlots_getElem? (by omega), hd]
          unfold wrap
          split <;> split <;> split <;> first | rfl | omega | (split <;> first | rfl | omega)
    · rename_i hr
      have hm1 : min m (b.capacity - b.frontPtr) = m := by omega
      rw [hm1, Nat.min_eq_left (by omega)]
      refine ⟨rfl, Holds.resetIfEmpty ?_⟩
      rw [← hc]
      refine h.toHolds.dropFront hml (destroySlots_length (by omega)) ?_ ?_
      · unfold endToStart wrap; split <;> split <;> omega
      · intro i hi; exact getElem?_destroy_front hf (by omega) hi

/-! ## Removing from the back -/

theorem Repr.decrement_back (h : Repr b l) (hne : l ≠ []) :
    b.decrement b.backPtr = wrap b.capacity b.frontPtr (l.length - 1) := by
  have hf := h.front_lt
  have hle := h.length_le
  have hp : 0 < l.length := List.length_pos_iff.mpr hne
  rw [h.back_eq]
  unfold decrement wrap
  split <;> split <;> split <;> omega

theorem Repr.popBack (h : Repr b l) (hne : l ≠ []) : Repr b.popBack l.dropLast := by
  have hf := h.front_lt
  have hle := h.length_le
  have hp : 0 < l.length := List.length_pos_iff.mpr hne
  have hcap : b.slots.length = b.capacity := rfl
  have hdec := h.decrement_back hne
  refine Holds.resetIfEmpty ⟨?_, ?_, ?_, ?_, ?_⟩
  · simpa [capacity] using hf
  · simp only [capacity, List.length_set, List.length_dropLast, hdec]
  · simp only [h.count_eq, List.length_dropLast]
  · simp only [capacity, List.length_set, List.length_dropLast]; simp only [capacity] at hle; omega
  · intro i hi
    simp only [capacity, List.length_set] at hi
    simp only [capacity, List.length_set]
    have hwl := wrap_lt hf (by omega : l.length - 1 ≤ b.capacity)
    rw [List.getElem?_set, hdec, hcap, List.getElem?_dropLast]
    by_cases hi' : i = l.length - 1
    · rw [hi', if_pos rfl, if_pos hwl, if_neg (by omega)]
    · rw [if_neg fun hw => hi' (wrap_inj hi (by omega) hw.symm), h.slot i hi]
      split
      · rfl
      · rw [List.getElem?_eq_none (by omega)]

theorem Repr.popBackValue (h : Repr b l) (hne : l ≠ []) :
    b.popBackValue = (l.getLast?, b.popBack) := by
  have hle := h.length_le
  have hp : 0 < l.length := List.length_pos_iff.mpr hne
  rw [RingBuffer.popBackValue, deref, h.decrement_back hne, h.slot _ (by omega), List.getLast?_eq_getElem?]; rfl

/-! ## Emptying -/

/-- A slot in which no element lives. -/
theorem Holds.slot_dead (h : Holds b l) {j : Nat} (hj : j < b.capacity)
    (hno : ∀ i, i < l.length → wrap b.capacity b.frontPtr i ≠ j) : b.slots[j]? = some none := by
  obtain ⟨i, hi, rfl⟩ := exists_wrap h.front_lt hj
  rw [h.slot i hi, List.getElem?_eq_none]
  exact Nat.le_of_not_lt fun hlt => hno i hlt rfl

theorem Repr.destroyAll_eq (h : Repr b l) :
    b.destroyAll.length = b.capacity ∧ ∀ j, j < b.capacity → b.destroyAll[j]? = some none := by
  have hf := h.front_lt
  have hle := h.length_le
  have hc := h.count_eq
  have hcap : b.slots.length = b.capacity := rfl
  have hlin := h.isLinearized_iff
  have hback := h.back_eq
  unfold destroyAll
  split
  · rename_i he
    simp only [empty, size, hc, beq_iff_eq] at he
    exact ⟨hcap, fun j hj => h.slot_dead hj fun i hi => absurd hi (by omega)⟩
  split
  · rename_i hl
    rw [hlin] at hl
    simp only [size, hc]
    refine ⟨destroySlots_length (by omega), fun j hj => ?_⟩
    rw [destroySlots_getElem? (by omega)]
    split
    · rfl
    · exact h.slot_dead hj fun i hi => by unfold wrap; split <;> omega
  · rename_i hl
    rw [hlin] at hl
    rw [wrap, if_neg (by omega)] at hback
    have hdl : (destroySlots b.slots b.frontPtr (b.capacity - b.frontPtr)).length = b.capacity :=
      destroySlots_length (by omega)
    refine ⟨by rw [destroySlots_length (by omega), hdl], fun j hj => ?_⟩
    rw [destroySlots_getElem? (by omega), destroySlots_getElem? (by omega)]
    split
    · rfl
    split
    · rfl
    · exact h.slot_dead hj fun i hi => by unfold wrap; split <;> omega

theorem Repr.clear (h : Repr b l) : Repr b.clear [] := by
  have hp := h.cap_pos
  obtain ⟨hlen, hall⟩ := h.destroyAll_eq
  rw [RingBuffer.clear, if_neg (by omega)]
  exact Repr.nil (by omega) (fun j hj => hall j (by omega))

theorem Repr.capacity_clear (h : Repr b l) : b.clear.capacity = b.capacity := by
  have hp := h.cap_pos
  rw [RingBuffer.clear, if_neg (by omega)]
  exact h.destroyAll_eq.1

/-! ## Appending -/

theorem Repr.uncheckedEmplaceBack (h : Repr b l) (hlt : l.length < b.capacity) (x : α) :
    Repr (b.uncheckedEmplaceBack x) (l ++ [x]) := by
  have hf := h.front_lt
  have hcap : b.slots.length = b.capacity := rfl
  refine ⟨⟨?_, ?_, ?_, ?_, ?_⟩, fun hn => absurd hn (by simp)⟩
  · simpa [RingBuffer.uncheckedEmplaceBack, capacity] using hf
  · simp only [RingBuffer.uncheckedEmplaceBack, capacity, List.length_set, List.length_append, List.length_singleton,
      h.back_eq]
    exact increment_wrap hf hlt
  · simp only [RingBuffer.uncheckedEmplaceBack, h.count_eq, List.length_append, List.length_singleton]
  · simp only [RingBuffer.uncheckedEmplaceBack, capacity, List.length_set, List.length_append, List.length_singleton]
    exact hlt
  · intro i hi
    simp only [RingBuffer.uncheckedEmplaceBack, capacity, List.length_set] at hi
    simp only [RingBuffer.uncheckedEmplaceBack, capacity, List.length_set]
    rw [List.getElem?_set, h.back_eq, hcap]
    by_cases hi' : i = l.length
    · rw [hi', if_pos rfl, if_pos (wrap_lt hf h.length_le)]; simp
    · rw [if_neg fun hw => hi' (wrap_inj hlt hi hw).symm, h.slot i hi]
      rcases Nat.lt_or_gt_of_ne hi' with hlt' | hgt
      · rw [List.getElem?_append_left hlt']
      · rw [List.getElem?_eq_none (by omega), List.getElem?_eq_none (by simp; omega)]

theorem Repr.full_iff (h : Repr b l) : b.full = true ↔ l.length = b.capacity := by
  simp [full, size, h.count_eq]

@[simp] theorem capacity_popFront : b.popFront.capacity = b.capacity := by
  simp only [RingBuffer.popFront, RingBuffer.resetIfEmpty]; split <;> simp [capacity]

/-- `push_back` on the plain list model: a full buffer drops its oldest element. -/
def pushSpec (cap : Nat) (l : List α) (x : α) : List α := (if l.length = cap then l.tail else l) ++ [x]

theorem Repr.emplaceBack (h : Repr b l) (x : α) : Repr (b.emplaceBack x) (pushSpec b.capacity l x) := by
  have hp := h.cap_pos
  unfold RingBuffer.emplaceBack pushSpec
  by_cases hfull : l.length = b.capacity
  · rw [if_pos (h.full_iff.mpr hfull), if_pos hfull]
    have hne : l ≠ [] := by rintro rfl; simp at hfull; omega
    exact (h.popFront hne).uncheckedEmplaceBack (by rw [capacity_popFront, List.length_tail]; omega) x
  · rw [if_neg fun hx => hfull (h.full_iff.mp hx), if_neg hfull]
    exact h.uncheckedEmplaceBack (by have := h.length_le; omega) x

theorem Repr.tryEmplaceBack (h : Repr b l) (x : α) :
    (b.tryEmplaceBack x).1 = decide (l.length ≠ b.capacity) ∧
      Repr (b.tryEmplaceBack x).2 (if l.length = b.capacity then l else l ++ [x]) := by
  have hle := h.length_le
  unfold RingBuffer.tryEmplaceBack
  by_cases hfull : l.length = b.capacity
  · rw [if_pos (h.full_iff.mpr hfull), if_pos hfull]
    exact ⟨by simp [hfull], h⟩
  · rw [if_neg fun hx => hfull (h.full_iff.mp hx), if_neg hfull]
    exact ⟨by simp [hfull], h.uncheckedEmplaceBack (by omega) x⟩

/-! ## Copying -/

theorem Repr.ofPrefix {slots : List (Option α)} (hpos : 0 < slots.length)
    (hdead : ∀ j, j < slots.length → slots[j]? = some none) (hle : l.length ≤ slots.length) :
    Repr ⟨overwrite slots 0 (l.map some), 0, endToStart slots.length l.length, l.length⟩ l := by
  have hlen : (overwrite slots 0 (l.map some)).length = slots.length := length_overwrite (by simpa using hle)
  refine ⟨⟨?_, ?_, rfl, ?_, ?_⟩, fun _ => rfl⟩
  · simpa only [capacity, hlen] using hpos
  · simp only [capacity, hlen, endToStart, wrap]
    split <;> split <;> omega
  · simpa only [capacity, hlen] using hle
  · intro i hi
    simp only [capacity, hlen] at hi
    simp only [capacity, hlen, wrap, Nat.zero_add, hi, if_true]
    rw [getElem?_overwrite (by simpa using hle), List.length_map, Nat.sub_zero, List.getElem?_map]
    split
    · rw [List.getElem?_eq_getElem (by omega)]; rfl
    · rw [hdead i hi, List.getElem?_eq_none (by omega)]

theorem replicate_dead (n j : Nat) (hj : j < (List.replicate n (none : Option α)).length) :
    (List.replicate n (none : Option α))[j]? = some none := by
  rw [List.length_replicate] at hj
  rw [List.getElem?_replicate, if_pos hj]

theorem Repr.ofCapacity {n : Nat} (hn : 0 < n) : Repr (RingBuffer.ofCapacity n : RingBuffer α) [] :=
  Repr.nil (by simpa using hn) (replicate_dead n)

theorem Repr.slots_dead (h : Repr b []) : ∀ j, j < b.slots.length → b.slots[j]? = some none :=
  fun _ hj => h.slot_dead hj fun _ hi => absurd hi (Nat.not_lt_zero _)

theorem Repr.empty_iff (h : Repr b l) : b.empty = true ↔ l = [] := by
  simp [empty, size, h.count_eq]

theorem Repr.copyOtherItems {other : RingBuffer α} (h : Repr other l)
    (hb : ∀ j, j < b.slots.length → b.slots[j]? = some none) : Repr (b.copyOtherItems other) l := by
  have hp := h.cap_pos
  have hle := h.length_le
  have hbcap : b.slots.length = b.capacity := rfl
  unfold RingBuffer.copyOtherItems
  simp only [h.arrays_eq, List.length_map, h.count_eq]
  split
  · exact Repr.ofPrefix (by simpa using hp) (replicate_dead _) (by simpa using hle)
  · exact Repr.ofPrefix (by omega) hb (by omega)

theorem capacity_copyOtherItems {other : RingBuffer α} (h : Repr other l) :
    (b.copyOtherItems other).capacity = max b.capacity other.capacity := by
  have hle := h.length_le
  have hbcap : b.slots.length = b.capacity := rfl
  unfold RingBuffer.copyOtherItems
  simp only [h.arrays_eq]
  split
  · rw [RingBuffer.capacity, length_overwrite (by simpa using hle), List.length_replicate]; omega
  · rw [RingBuffer.capacity, length_overwrite (by simp; omega)]; omega

/-- A copy of a buffer that is not empty. Of an empty one it has no storage (`copyConstruct_of_empty`). -/
theorem Repr.copyConstruct (h : Repr b l) (hne : l ≠ []) : Repr b.copyConstruct l := by
  rw [RingBuffer.copyConstruct, if_neg fun he => hne (h.empty_iff.mp he)]
  exact h.copyOtherItems (by simp [null])

theorem Repr.capacity_copyConstruct (h : Repr b l) (hne : l ≠ []) : b.copyConstruct.capacity = b.capacity := by
  rw [RingBuffer.copyConstruct, if_neg fun he => hne (h.empty_iff.mp he), capacity_copyOtherItems h]
  simp [null, capacity]

theorem Repr.copyConstruct_of_empty (h : Repr b []) : b.copyConstruct = null := by
  rw [RingBuffer.copyConstruct, if_pos (h.empty_iff.mpr rfl)]

theorem Repr.copyAssign {other : RingBuffer α} {m : List α} (h : Repr b l) (ho : Repr other m) :
    Repr (b.copyAssign other) m := by
  have hc := h.clear
  unfold RingBuffer.copyAssign
  by_cases he : m = []
  · simp only [ho.empty_iff.mpr he, if_true]; rw [he]; exact hc
  · simp only [show other.empty = false by rw [Bool.eq_false_iff, ne_eq, ho.empty_iff]; exact he]
    exact ho.copyOtherItems hc.slots_dead

theorem Repr.capacity_copyAssign {other : RingBuffer α} {m : List α} (h : Repr b l) (ho : Repr other m) :
    (b.copyAssign other).capacity = if m = [] then b.capacity else max b.capacity other.capacity := by
  unfold RingBuffer.copyAssign
  by_cases he : m = []
  · simp only [ho.empty_iff.mpr he, if_true, he]; exact h.capacity_clear
  · simp only [show other.empty = false by rw [Bool.eq_false_iff, ne_eq, ho.empty_iff]; exact he, if_neg he]
    rw [if_neg (by simp), capacity_copyOtherItems ho, h.capacity_clear]

/-! ## Capacities -/

theorem Repr.capacity_popFrontRange (h : Repr b l) (num : Nat) :
    (b.popFrontRange num).2.capacity = b.capacity := by
  have hf := h.front_lt
  have hle := h.length_le
  have hc := h.count_eq
  have hlin := h.isLinearized_iff
  have hcap : b.slots.length = b.capacity := rfl
  have hreset : ∀ c : RingBuffer α, c.resetIfEmpty.capacity = c.capacity := by
    intro c; unfold resetIfEmpty; split <;> rfl
  have hd : ∀ n, b.frontPtr + n ≤ b.capacity → (destroySlots b.slots b.frontPtr n).length = b.capacity :=
    fun n hn => destroySlots_length hn
  unfold RingBuffer.popFrontRange
  simp only [size, hc]
  generalize hm : min num l.length = m
  split
  · rfl
  split
  · rename_i hl
    rw [hlin] at hl
    rw [hreset, capacity_mk, hd m (by omega)]
  · have hlen : (b.getArray1 false).length = b.capacity - b.frontPtr := by simp [getArray1, capacity]
    rw [hlen]
    split
    · rw [hreset, capacity_mk, destroySlots_length, hd _ (by omega)]
      rw [hd _ (by omega)]; omega
    · rw [hreset, capacity_mk, hd _ (by omega)]

theorem capacity_uncheckedEmplaceBack (b : RingBuffer α) (x : α) :
    (b.uncheckedEmplaceBack x).capacity = b.capacity := by simp [uncheckedEmplaceBack, capacity]

theorem capacity_emplaceBack (b : RingBuffer α) (x : α) : (b.emplaceBack x).capacity = b.capacity := by
  rw [emplaceBack, capacity_uncheckedEmplaceBack]; split <;> simp

theorem capacity_tryEmplaceBack (b : RingBuffer α) (x : α) : (b.tryEmplaceBack x).2.capacity = b.capacity := by
  unfold tryEmplaceBack; split
  · rfl
  · exact capacity_uncheckedEmplaceBack b x

theorem capacity_popBack (b : RingBuffer α) : b.popBack.capacity = b.capacity := by
  simp only [RingBuffer.popBack, RingBuffer.resetIfEmpty]; split <;> simp [capacity]

end Rad.RingBuffer
