import Rad.RingBuffer.Lemmas.Operations

/-!
# The bulk operations of a ring buffer

`pop_back` of a number of elements and `insert_back` of a range, one block of the storage at a time, and `set_capacity`
and `resize`, which use them.
-/

namespace Rad.RingBuffer

open Lib

variable {α : Type*} {b : RingBuffer α} {l : List α}

/-! ## Removing from the back -/

theorem Holds.dropBack (h : Holds b l) {n : Nat} {slots : List (Option α)} {back count : Nat}
    (hlen : slots.length = b.capacity) (hback : back = wrap b.capacity b.frontPtr (l.length - n))
    (hcount : count = l.length - n)
    (hslots : ∀ i, i < b.capacity → slots[wrap b.capacity b.frontPtr i]? =
      if l.length - n ≤ i ∧ i < l.length then some none else b.slots[wrap b.capacity b.frontPtr i]?) :
    Holds ⟨slots, b.frontPtr, back, count⟩ (l.take (l.length - n)) := by
  have hle := h.length_le
  refine ⟨?_, ?_, ?_, ?_, fun i hi => ?_⟩
  · simpa only [capacity_mk, hlen] using h.front_lt
  · simp only [capacity_mk, hlen, hback, List.length_take, Nat.min_eq_left (Nat.sub_le _ _)]
  · simp only [hcount, List.length_take, Nat.min_eq_left (Nat.sub_le _ _)]
  · simp only [capacity_mk, hlen, List.length_take]
    omega
  · simp only [capacity_mk, hlen] at hi ⊢
    rw [hslots i hi, List.getElem?_take]
    by_cases hkept : i < l.length - n
    · rw [if_neg (by omega), if_pos hkept, h.slot i hi]
    · rw [if_neg hkept]
      split
      · rfl
      · rw [h.slot i hi, List.getElem?_eq_none (by omega)]

/-- The bulk `pop_back` sets the back to the start of the storage although elements of the first array are removed, too. -/
def ReachesFirstArray (b : RingBuffer α) (num : Nat) : Prop :=
  b.isLinearized = false ∧ b.backPtr < num ∧ num < b.size

theorem Repr.popBackRange_copied (h : Repr b l) (num : Nat) :
    (b.popBackRange num).1 = (l.drop (l.length - num)).map some := by
  have hf := h.front_lt
  have hle := h.length_le
  have hc := h.count_eq
  have hcap : b.slots.length = b.capacity := rfl
  have hlin := h.isLinearized_iff
  have hback := h.back_eq
  have hdrop : l.drop (l.length - num) = l.drop (l.length - min num l.length) := by congr 1; omega
  rw [hdrop]
  unfold RingBuffer.popBackRange
  simp only [size, hc]
  generalize hm : min num l.length = m
  have hml : m ≤ l.length := by omega
  split
  · rename_i h0
    rw [h0, Nat.sub_zero, List.drop_length]
    rfl
  rename_i h0
  split
  · -- one array
    rename_i hl
    rw [hlin] at hl
    have hend : (if b.backPtr = 0 then b.capacity else b.backPtr) = b.frontPtr + l.length := by
      unfold wrap at hback
      split at hback <;> split <;> omega
    rw [hend]
    apply List.ext_getElem?
    intro i
    rw [List.getElem?_take, List.getElem?_drop, List.getElem?_map, List.getElem?_drop]
    split
    · rw [show b.frontPtr + l.length - m + i = b.frontPtr + (l.length - m + i) by omega, h.slot_linear (by omega),
        List.getElem?_eq_getElem (by omega)]
      rfl
    · rw [List.getElem?_eq_none (by omega)]
      rfl
  · -- two arrays
    rename_i hl
    rw [hlin] at hl
    rw [wrap, if_neg (by omega)] at hback
    have hfalse : b.isLinearized = false := by rw [Bool.eq_false_iff, ne_eq, hlin]; exact hl
    have harray1 : b.getArray1 false = (l.take (b.capacity - b.frontPtr)).map some := by
      rw [← h.getArray1_eq, hfalse]
    have harray2 : b.getArray2 false = (l.drop (b.capacity - b.frontPtr)).map some := by
      rw [← h.getArray2_eq, hfalse]
    simp only [harray1, harray2, List.length_map, List.length_take, List.length_drop, ← List.map_drop]
    split
    · rename_i hrem
      dsimp only
      rw [← List.map_append]
      congr 1
      have hmin : min m (l.length - (b.capacity - b.frontPtr)) = l.length - (b.capacity - b.frontPtr) := by omega
      rw [hmin, Nat.sub_self, List.drop_zero]
      have hsplit : l.drop (l.length - m) =
          (l.take (b.capacity - b.frontPtr)).drop (l.length - m) ++ l.drop (b.capacity - b.frontPtr) := by
        rw [← List.drop_append_of_le_length (by rw [List.length_take]; omega), List.take_append_drop]
      rw [hsplit]
      congr 2
      omega
    · rename_i hrem
      dsimp only
      rw [List.drop_drop]
      congr 2
      omega

theorem Repr.popBackRange (h : Repr b l) {num : Nat} (hnum : ¬ReachesFirstArray b num) :
    Repr (b.popBackRange num).2 (l.take (l.length - num)) := by
  have hf := h.front_lt
  have hle := h.length_le
  have hc := h.count_eq
  have hlin := h.isLinearized_iff
  have hback := h.back_eq
  have htake : l.take (l.length - num) = l.take (l.length - min num l.length) := by congr 1; omega
  rw [htake]
  simp only [ReachesFirstArray, size, hc, Bool.eq_false_iff, ne_eq, hlin] at hnum
  unfold RingBuffer.popBackRange
  simp only [size, hc]
  generalize hm : min num l.length = m
  have hml : m ≤ l.length := by omega
  have hone {first : Nat} (hfirst : first = wrap b.capacity b.frontPtr (l.length - m)) (hn : first + m ≤ b.capacity) :
      Repr (RingBuffer.resetIfEmpty ⟨destroySlots b.slots first m, b.frontPtr, first, l.length - m⟩)
        (l.take (l.length - m)) :=
    Holds.resetIfEmpty (h.toHolds.dropBack (destroySlots_length hn) hfirst rfl fun i hi =>
      getElem?_destroy_wrap hfirst (by omega) hle hn hi)
  split
  · rename_i h0
    rw [h0, Nat.sub_zero, List.take_length]
    exact h
  rename_i h0
  split
  · -- one array
    rename_i hl
    rw [hlin] at hl
    have hend : (if b.backPtr = 0 then b.capacity else b.backPtr) = b.frontPtr + l.length := by
      unfold wrap at hback
      split at hback <;> split <;> omega
    rw [hend]
    clear hback
    refine hone ?_ (by omega)
    rw [wrap, if_pos (by omega)]
    omega
  · -- two arrays
    rename_i hl
    rw [hlin] at hl
    rw [wrap, if_neg (by omega)] at hback
    have hsize2 : (b.getArray2 false).length = b.backPtr := by
      rw [getArray2, if_neg Bool.false_ne_true, List.length_take]
      exact Nat.min_eq_left (Nat.le_of_lt h.back_lt)
    simp only [hsize2]
    split
    · -- all the elements are removed
      rename_i hrem
      have hall : m = l.length := by omega
      have hmin : min m b.backPtr = b.backPtr := by omega
      clear hnum hm
      have hlen : (destroySlots b.slots 0 b.backPtr).length = b.capacity :=
        destroySlots_length (by rw [Nat.zero_add]; exact Nat.le_of_lt h.back_lt)
      have hrest : b.capacity - (m - b.backPtr) = b.frontPtr := by omega
      have hroom : b.frontPtr + (m - b.backPtr) = b.capacity := by omega
      rw [hmin, Nat.sub_self, hrest, hall, Nat.sub_self, List.take_zero, RingBuffer.resetIfEmpty, if_pos rfl]
      rw [hall] at hroom
      refine Repr.nil ?_ fun j hj => ?_
      · rw [destroySlots_length (by omega), hlen]
        exact h.cap_pos
      · rw [destroySlots_length (by omega), hlen] at hj
        rw [destroySlots_getElem? (by omega), destroySlots_getElem? (by rw [Nat.zero_add]; exact Nat.le_of_lt h.back_lt)]
        split
        · rfl
        split
        · rfl
        · refine h.slot_dead hj fun i hi => ?_
          rcases wrap_cases b.capacity b.frontPtr i with ⟨hi', hwrap'⟩ | ⟨hi', hwrap'⟩ <;> omega
    · rename_i hrem
      have hmin : min m b.backPtr = m := by omega
      have hfits := h.back_lt
      rw [hmin]
      refine hone ?_ (by omega)
      rw [wrap, if_neg (by omega)]
      omega

/-- The back is set to the start, and so it is not behind the elements that are left. -/
theorem Repr.popBackRange_broken (h : Repr b l) {num : Nat} (hnum : ReachesFirstArray b num) :
    ¬Repr (b.popBackRange num).2 (l.take (l.length - num)) := by
  have hf := h.front_lt
  have hle := h.length_le
  have hc := h.count_eq
  have hcap : b.slots.length = b.capacity := rfl
  have hback := h.back_eq
  obtain ⟨hlin, hfirst, hrest⟩ := hnum
  have hlin' := mt h.isLinearized_iff.2 (by rw [hlin]; decide)
  rw [wrap, if_neg (by omega)] at hback
  simp only [size, hc] at hrest
  have hsize2 : (b.getArray2 false).length = b.backPtr := by
    simp only [getArray2, Bool.false_eq_true, if_false, List.length_take]
    omega
  have hlen : (destroySlots b.slots 0 b.backPtr).length = b.capacity := destroySlots_length (by omega)
  intro hrepr
  unfold RingBuffer.popBackRange at hrepr
  simp only [size, hc, hlin, hsize2] at hrepr
  rw [Nat.min_eq_left (by omega : num ≤ l.length), if_neg (by omega), if_neg Bool.false_ne_true,
    Nat.min_eq_right (by omega : b.backPtr ≤ num), if_pos (by omega), RingBuffer.resetIfEmpty, Nat.sub_self] at hrepr
  dsimp only at hrepr
  rw [if_neg (by omega)] at hrepr
  have hbad := hrepr.back_eq
  simp only [capacity_mk, List.length_take] at hbad
  rw [destroySlots_length (by omega), hlen, wrap, if_pos (by omega)] at hbad
  omega

theorem Repr.popBack_iterate (h : Repr b l) {n : Nat} (hn : n ≤ l.length) :
    Repr (RingBuffer.popBack^[n] b) (l.take (l.length - n)) ∧ (RingBuffer.popBack^[n] b).capacity = b.capacity ∧
      (n < l.length → (RingBuffer.popBack^[n] b).frontPtr = b.frontPtr) := by
  induction n with
  | zero => exact ⟨by simpa using h, rfl, fun _ => rfl⟩
  | succ n ih =>
      obtain ⟨hrepr, hcap, hfront⟩ := ih (by omega)
      have hne : l.take (l.length - n) ≠ [] := List.length_pos_iff.1 (by rw [List.length_take]; omega)
      rw [Function.iterate_succ_apply']
      refine ⟨?_, (capacity_popBack _).trans hcap, fun hlt => ?_⟩
      · have hpop := hrepr.popBack hne
        rwa [List.dropLast_eq_take, List.length_take, List.take_take,
          show min (min (l.length - n) l.length - 1) (l.length - n) = l.length - (n + 1) by omega] at hpop
      · rw [RingBuffer.popBack, RingBuffer.resetIfEmpty, if_neg]
        · exact hfront (by omega)
        · simp only [hrepr.count_eq, List.length_take]
          omega

theorem Repr.capacity_popBackRange (h : Repr b l) (num : Nat) : (b.popBackRange num).2.capacity = b.capacity := by
  have hf := h.front_lt
  have hle := h.length_le
  have hc := h.count_eq
  have hback := h.back_lt
  have hlin := h.isLinearized_iff
  have hbackPtr := h.back_eq
  have hcap : b.slots.length = b.capacity := rfl
  unfold wrap at hbackPtr
  have hreset (c : RingBuffer α) : c.resetIfEmpty.capacity = c.capacity := by
    unfold RingBuffer.resetIfEmpty
    split <;> rfl
  unfold RingBuffer.popBackRange
  simp only [size, hc]
  split
  · rfl
  split
  · rw [hreset, capacity_mk, destroySlots_length, hcap]
    split <;> split at hbackPtr <;> omega
  · have hlen : (b.getArray2 false).length = b.backPtr := by
      simp only [getArray2, Bool.false_eq_true, if_false, List.length_take]
      omega
    have hfirst : (destroySlots b.slots (b.backPtr - min (min num l.length) b.backPtr)
        (min (min num l.length) b.backPtr)).length = b.capacity := destroySlots_length (by omega)
    rw [hlen]
    split
    · rw [hreset, capacity_mk, destroySlots_length (by omega), hfirst]
    · rw [hreset, capacity_mk, hfirst]

theorem Repr.frontPtr_popBackRange (h : Repr b l) {num : Nat} (hlt : num < l.length) :
    (b.popBackRange num).2.frontPtr = b.frontPtr := by
  have hc := h.count_eq
  have hreset (c : RingBuffer α) (hcount : c.count = b.count - num) : c.resetIfEmpty.frontPtr = c.frontPtr := by
    rw [RingBuffer.resetIfEmpty, if_neg (by omega)]
  unfold RingBuffer.popBackRange
  simp only [size, Nat.min_eq_left (by omega : num ≤ b.count)]
  split
  · rfl
  split
  · exact hreset _ rfl
  split <;> exact hreset _ rfl

/-! ## Appending a range -/

/-- A block written behind the elements is appended to them; when there is no room, the oldest ones are gone. -/
theorem Holds.writeBack (h : Holds b l) {xs : List α} {slots : List (Option α)} {drop front back count : Nat}
    (hslots : WrittenFrom b.slots b.backPtr (xs.map some) slots) (hxs : xs.length ≤ b.capacity)
    (hdrop : drop = l.length + xs.length - b.capacity) (hfront : front = wrap b.capacity b.frontPtr drop)
    (hback : back = wrap b.capacity b.backPtr xs.length) (hcount : count = l.length + xs.length - drop) :
    Holds ⟨slots, front, back, count⟩ ((l ++ xs).drop drop) := by
  have hf := h.front_lt
  have hle := h.length_le
  have hlen : slots.length = b.capacity := hslots.length_eq
  have hsize : ((l ++ xs).drop drop).length = l.length + xs.length - drop := by
    rw [List.length_drop, List.length_append]
  refine ⟨?_, ?_, ?_, ?_, fun i hi => ?_⟩
  · rw [capacity_mk, hlen, hfront]
    exact wrap_lt hf (by omega)
  · rw [capacity_mk, hlen, hfront, hback, h.back_eq, hsize]
    exact wrap_congr hf hle hxs (by omega) (by omega) (by omega)
  · rw [hcount, hsize]
  · rw [capacity_mk, hlen, hsize]
    omega
  · rw [capacity_mk, hlen] at hi ⊢
    rw [List.getElem?_drop, hfront]
    -- the position, counted from the block, belongs to an element of the block, to an old one or to none
    have hwritten {d : Nat} (hd : d < b.capacity)
        (hround : drop + i = l.length + d ∨ drop + i + b.capacity = l.length + d) :
        slots[wrap b.capacity (wrap b.capacity b.frontPtr drop) i]? =
          if d < xs.length then (xs.map some)[d]? else b.slots[wrap b.capacity (wrap b.capacity b.frontPtr drop) i]? := by
      have hposition : wrap b.capacity (wrap b.capacity b.frontPtr drop) i = wrap b.capacity b.backPtr d := by
        rw [h.back_eq]
        rcases hround with hround | hround
        · exact wrap_congr hf (by omega) (by omega) hle (by omega) (.inl hround)
        · exact (wrap_congr hf hle (by omega) (by omega) (by omega) (.inr hround.symm)).symm
      have hget := hslots.getElem?_wrap h.back_lt hd (by rw [List.length_map]; exact hxs)
      rw [List.length_map] at hget
      rw [hposition]
      exact hget
    by_cases hold : drop + i < l.length
    · rw [hwritten (d := drop + i + b.capacity - l.length) (by omega) (by omega), if_neg (by omega),
        wrap_wrap hf (by omega), h.slot _ (by omega), List.getElem?_append_left hold]
    · rw [hwritten (d := drop + i - l.length) (by omega) (by omega), List.getElem?_append_right (by omega)]
      split
      · rw [List.getElem?_map, List.getElem?_eq_getElem (by omega)]
        rfl
      · rw [wrap_wrap hf (by omega), h.slot _ (by omega), List.getElem?_eq_none (by omega : l.length ≤ drop + i),
          List.getElem?_eq_none (by omega)]

theorem Repr.insertBackFits (h : Repr b l) {xs : List α} (hxs : xs.length ≤ b.reserve) :
    Repr (b.insertBackFits (xs.map some)) (l ++ xs) ∧ (b.insertBackFits (xs.map some)).capacity = b.capacity := by
  have hf := h.front_lt
  have hle := h.length_le
  have hc := h.count_eq
  have hcap : b.slots.length = b.capacity := rfl
  have hlin := h.isLinearized_iff
  have hback := h.back_eq
  simp only [reserve, size, hc] at hxs
  have hwritten {slots : List (Option α)} {back : Nat} (hslots : WrittenFrom b.slots b.backPtr (xs.map some) slots)
      (hptr : back = wrap b.capacity b.backPtr xs.length) :
      Repr ⟨slots, b.frontPtr, back, b.count + xs.length⟩ (l ++ xs) ∧
        (⟨slots, b.frontPtr, back, b.count + xs.length⟩ : RingBuffer α).capacity = b.capacity := by
    refine ⟨⟨?_, fun hnil => h.empty_start (List.append_eq_nil_iff.1 hnil).1⟩, hslots.length_eq⟩
    have hholds : Holds ⟨slots, b.frontPtr, back, b.count + xs.length⟩ ((l ++ xs).drop 0) :=
      h.toHolds.writeBack hslots (by omega) (by omega) (wrap_zero hf).symm hptr (by omega)
    rwa [List.drop_zero] at hholds
  unfold RingBuffer.insertBackFits
  simp only [List.length_map]
  unfold wrap at hback
  split
  · -- the free slots are behind the elements
    refine hwritten (.overwrite ?_) ?_
    · rw [List.length_map]
      split at hback <;> omega
    · unfold endToStart wrap
      split at hback <;> split <;> split <;> omega
  split
  · -- the free slots are one block in front of the elements
    rename_i hfront hone
    have hbefore : b.backPtr + xs.length ≤ b.frontPtr := by
      rw [Bool.or_eq_true, decide_eq_true_eq, Bool.not_eq_true', Bool.eq_false_iff, ne_eq, hlin] at hone
      split at hback <;> omega
    refine hwritten (.overwrite ?_) ?_
    · rw [List.length_map]
      omega
    · unfold wrap
      split <;> omega
  · -- the free slots are on both sides of the elements
    rename_i hfront htwo
    rw [Bool.or_eq_true, decide_eq_true_eq, Bool.not_eq_true', Bool.eq_false_iff, ne_eq, hlin, not_or, not_not] at htwo
    have hbehind : b.backPtr = b.frontPtr + l.length := by split at hback <;> omega
    split
    · rename_i hwraps
      rw [Nat.min_eq_right (by omega)]
      refine hwritten (.overwrite_wrapped ?_ ?_ ?_) ?_
      · omega
      · rw [List.length_map]
        omega
      · rw [List.length_map]
        omega
      · unfold wrap
        split <;> omega
    · rename_i hwraps
      have hall : min xs.length (b.capacity - b.backPtr) = xs.length := by omega
      rw [hall, List.take_of_length_le (Nat.le_of_eq (List.length_map _))]
      refine hwritten (.overwrite ?_) ?_
      · rw [List.length_map]
        omega
      · unfold endToStart wrap
        split <;> split <;> omega

theorem Repr.insertBackOverwrites (h : Repr b l) {xs : List α} (hxs : b.reserve < xs.length)
    (hlt : xs.length < b.capacity) :
    Repr (b.insertBackOverwrites (xs.map some)) ((l ++ xs).drop (l.length + xs.length - b.capacity)) ∧
      (b.insertBackOverwrites (xs.map some)).capacity = b.capacity := by
  have hf := h.front_lt
  have hreserve : l.length + b.reserve = b.capacity := by
    rw [reserve, size, h.count_eq]
    exact Nat.add_sub_cancel' h.length_le
  obtain ⟨gone, hgone⟩ : ∃ gone, xs.length = b.reserve + gone := ⟨_, (Nat.add_sub_cancel' (Nat.le_of_lt hxs)).symm⟩
  have hrest : xs.length - b.reserve = gone := by omega
  have hdrop : gone = l.length + xs.length - b.capacity := by omega
  have hback := wrap_cases b.capacity b.frontPtr l.length
  rw [← h.back_eq] at hback
  have hlin := h.isLinearized_iff
  -- the slots of the oldest elements are destroyed before the block is written over them
  have hwritten {slots : List (Option α)} {front n back : Nat} (hroom : front + n ≤ b.slots.length)
      (hslots : WrittenFrom (destroySlots b.slots front n) b.backPtr (xs.map some) slots)
      (hover : ∀ j, front ≤ j → j < front + n →
        b.backPtr ≤ j ∧ j < b.backPtr + xs.length ∨ j + b.capacity < b.backPtr + xs.length)
      (hptr : back = wrap b.capacity b.backPtr xs.length) :
      Repr ⟨slots, back, back, b.capacity⟩ ((l ++ xs).drop (l.length + xs.length - b.capacity)) ∧
        (⟨slots, back, back, b.capacity⟩ : RingBuffer α).capacity = b.capacity := by
    have hagree : WrittenFrom b.slots b.backPtr (xs.map some) slots := by
      refine hslots.of_agree (destroySlots_length hroom) fun j _ hrear hwrapped => ?_
      rw [List.length_map] at hrear hwrapped
      rw [destroySlots_getElem? hroom, if_neg]
      rintro ⟨hfirst, hlast⟩
      rcases hover j hfirst hlast with hin | hin
      · exact hrear hin
      · exact hwrapped hin
    refine ⟨⟨?_, fun hnil => ?_⟩, hagree.length_eq⟩
    · refine h.toHolds.writeBack hagree (Nat.le_of_lt hlt) rfl ?_ hptr (by omega)
      rw [hptr, h.back_eq, ← wrap_zero (wrap_lt hf (by omega : l.length + xs.length - b.capacity ≤ b.capacity))]
      exact wrap_congr hf h.length_le (Nat.le_of_lt hlt) (by omega) (Nat.zero_le _) (.inr (by omega))
    · have hlen := congrArg List.length hnil
      rw [List.length_drop, List.length_append, List.length_nil] at hlen
      omega
  have hblock : (xs.map some).length = xs.length := List.length_map _
  have hdestroyed {front n : Nat} (hroom : front + n ≤ b.capacity) :
      (destroySlots b.slots front n).length = b.capacity := destroySlots_length hroom
  -- where the block ends, behind the back or past the end of the storage
  have hbehind (hin : b.backPtr + xs.length < b.capacity) :
      b.backPtr + xs.length = wrap b.capacity b.backPtr xs.length := by rw [wrap, if_pos hin]
  have hpast {n : Nat} (hn : b.backPtr + n = b.capacity) (hle : n ≤ xs.length) :
      xs.length - n = wrap b.capacity b.backPtr xs.length := by
    rw [wrap, if_neg (by omega)]
    omega
  have hfits {n : Nat} (hroom : b.frontPtr + n ≤ b.capacity) (hn : b.backPtr + xs.length ≤ b.capacity) :
      WrittenFrom (destroySlots b.slots b.frontPtr n) b.backPtr (xs.map some)
        (overwrite (destroySlots b.slots b.frontPtr n) b.backPtr (xs.map some)) :=
    .overwrite (by rw [hdestroyed hroom, hblock]; exact hn)
  have hsplits {n k : Nat} (hroom : b.frontPtr + n ≤ b.capacity) (hk : b.backPtr + k = b.capacity)
      (hle : k ≤ xs.length) :
      WrittenFrom (destroySlots b.slots b.frontPtr n) b.backPtr (xs.map some)
        (overwrite (overwrite (destroySlots b.slots b.frontPtr n) b.backPtr ((xs.map some).take k)) 0
          ((xs.map some).drop k)) :=
    .overwrite_wrapped (by rw [hdestroyed hroom, hk]) (by rw [hblock]; exact hle)
      (by rw [hdestroyed hroom, hblock]; exact Nat.le_of_lt hlt)
  unfold RingBuffer.insertBackOverwrites
  simp only [List.length_map, hrest]
  split
  · -- the elements begin at the start of the storage
    rename_i hfront
    have hroom : b.frontPtr + gone ≤ b.capacity := by omega
    by_cases hfull : b.reserve = 0
    · have hzero : b.backPtr = 0 := by omega
      clear hback
      have hstart (slots : List (Option α)) : overwrite slots 0 (xs.map some) = overwrite slots b.backPtr (xs.map some) := by
        rw [hzero]
      have hptr : gone = wrap b.capacity b.backPtr xs.length := by rw [← hbehind (by omega)]; omega
      rw [hfull, List.take_zero, List.drop_zero, overwrite_nil, hstart]
      exact hwritten hroom (hfits hroom (by omega)) (fun j _ _ => by omega) hptr
    · have hk : b.backPtr + b.reserve = b.capacity := by omega
      clear hback
      exact hwritten hroom (hsplits hroom hk (Nat.le_of_lt hxs)) (fun j _ _ => by omega)
        (hrest ▸ hpast hk (Nat.le_of_lt hxs))
  split
  · -- the elements end at the end of the storage
    rename_i hfront hzero
    have hstart : b.frontPtr = b.reserve := by omega
    clear hback
    have hroom : b.frontPtr + gone ≤ b.capacity := by omega
    exact hwritten hroom (hfits hroom (by omega)) (fun j _ _ => by omega) (hbehind (by omega))
  split
  · -- the elements are in two blocks
    rename_i hfront hzero htwo
    rw [Bool.not_eq_true', Bool.eq_false_iff, ne_eq, hlin] at htwo
    have hstart : b.frontPtr = b.backPtr + b.reserve := by omega
    clear hback
    split
    · rename_i hwraps
      have hmin : min gone (b.capacity - b.frontPtr) = b.capacity - b.frontPtr := by omega
      rw [hmin] at hwraps ⊢
      have hroom : b.frontPtr + (b.capacity - b.frontPtr) ≤ b.capacity := by omega
      have hk : b.backPtr + (b.reserve + (b.capacity - b.frontPtr)) = b.capacity := by omega
      have hle : b.reserve + (b.capacity - b.frontPtr) ≤ xs.length := by omega
      rw [destroySlots, overwrite_overwrite]
      · exact hwritten hroom (hsplits hroom hk hle) (fun j _ _ => by omega) (hpast hk hle)
      · rw [List.length_replicate, List.length_drop, hblock]
        omega
      · rw [List.length_replicate, length_overwrite, hdestroyed hroom]
        · omega
        · rw [hdestroyed hroom, List.length_take, hblock, Nat.min_eq_left hle]
          exact Nat.le_of_eq hk
    · rename_i hwraps
      have hmin : min gone (b.capacity - b.frontPtr) = gone := by omega
      have hroom : b.frontPtr + gone ≤ b.capacity := by omega
      rw [hmin, ← hgone, List.take_of_length_le (Nat.le_of_eq hblock)]
      refine hwritten hroom (hfits hroom (by omega)) (fun j _ _ => by omega) ?_
      unfold endToStart wrap
      split <;> split <;> omega
  · -- the free slots are on both sides of the elements
    rename_i hfront hzero hone
    rw [Bool.not_eq_true', Bool.eq_false_iff, ne_eq, hlin, not_not] at hone
    have hk : b.backPtr + (b.capacity - b.backPtr) = b.capacity := by omega
    have hend : b.backPtr = b.frontPtr + l.length := by omega
    clear hback
    have hroom : b.frontPtr + gone ≤ b.capacity := by omega
    have hle : b.capacity - b.backPtr ≤ xs.length := by omega
    exact hwritten hroom (hsplits hroom hk hle) (fun j _ _ => by omega) (hpast hk hle)

theorem Repr.insertBack (h : Repr b l) (xs : List α) :
    Repr (b.insertBack (xs.map some)) ((l ++ xs).drop (l.length + xs.length - b.capacity)) ∧
      (b.insertBack (xs.map some)).capacity = b.capacity := by
  have hpos := h.cap_pos
  have hle := h.length_le
  have hreserve : b.reserve = b.capacity - l.length := by rw [reserve, size, h.count_eq]
  unfold RingBuffer.insertBack
  rw [List.length_map]
  split
  · rename_i hfits
    rw [show l.length + xs.length - b.capacity = 0 by omega, List.drop_zero]
    exact h.insertBackFits hfits
  split
  · rename_i hmore hless
    exact h.insertBackOverwrites (by omega) hless
  · -- only the end of the range stays
    rename_i hmore hless
    have hclear := h.clear
    have hcap := h.capacity_clear
    have hslots : b.clear.slots.length = b.capacity := hcap
    have hlast : (l ++ xs).drop (l.length + xs.length - b.capacity) = xs.drop (xs.length - b.capacity) := by
      rw [List.drop_append, List.drop_eq_nil_of_le (by omega), List.nil_append]
      congr 1
      omega
    have hlen : (xs.drop (xs.length - b.capacity)).length = b.capacity := by
      rw [List.length_drop]
      omega
    have hfilled := Repr.ofPrefix (l := xs.drop (xs.length - b.capacity)) (by omega) hclear.slots_dead (by omega)
    rw [hslots, hlen, endToStart, if_pos rfl] at hfilled
    dsimp only
    rw [hlast, ← List.map_drop, hclear.empty_start rfl, hclear.back_of_empty rfl]
    refine ⟨hfilled, ?_⟩
    rw [capacity_mk, length_overwrite, hslots]
    rw [List.length_map]
    omega

theorem pushSpec_foldl {cap : Nat} (hcap : 0 < cap) {l : List α} (hle : l.length ≤ cap) (xs : List α) :
    xs.foldl (pushSpec cap) l = (l ++ xs).drop (l.length + xs.length - cap) := by
  induction xs generalizing l with
  | nil => rw [List.append_nil, List.length_nil, Nat.add_zero, Nat.sub_eq_zero_of_le hle]; rfl
  | cons x xs ih =>
      rw [List.foldl_cons, List.length_cons, pushSpec]
      split
      · rename_i hfull
        obtain ⟨y, ys, rfl⟩ := List.exists_cons_of_length_pos (hfull ▸ hcap)
        rw [List.length_cons] at hfull ⊢
        rw [List.tail_cons, ih (by simp; omega), List.append_assoc, List.singleton_append, List.length_append,
          List.length_singleton, show ys.length + 1 + (xs.length + 1) - cap = ys.length + 1 + xs.length - cap + 1 by omega]
        rfl
      · rw [ih (by simp; omega), List.append_assoc, List.singleton_append, List.length_append, List.length_singleton]
        congr 1
        omega

theorem Repr.pushBack_foldl (h : Repr b l) (xs : List α) :
    Repr (xs.foldl RingBuffer.pushBack b) (xs.foldl (pushSpec b.capacity) l) ∧
      (xs.foldl RingBuffer.pushBack b).capacity = b.capacity := by
  induction xs generalizing b l with
  | nil => exact ⟨h, rfl⟩
  | cons x xs ih =>
      have hcap : (b.pushBack x).capacity = b.capacity := capacity_emplaceBack b x
      have hpush : Repr (b.pushBack x) (pushSpec b.capacity l x) := h.emplaceBack x
      have hrest := ih hpush
      rwa [hcap] at hrest

/-! ## Changing the capacity and the size -/

theorem Repr.insertBack_ofCapacity {n : Nat} (hn : 0 < n) (l : List α) :
    Repr ((RingBuffer.ofCapacity n).insertBack (l.map some)) (l.drop (l.length - n)) ∧
      ((RingBuffer.ofCapacity n).insertBack (l.map some)).capacity = n := by
  have hcap : (RingBuffer.ofCapacity n : RingBuffer α).capacity = n := by simp [RingBuffer.ofCapacity, capacity]
  simpa only [List.nil_append, List.length_nil, Nat.zero_add, hcap] using (Repr.ofCapacity (α := α) hn).insertBack l

theorem Repr.setCapacity (h : Repr b l) {n : Nat} (hn : 0 < n) :
    Repr (b.setCapacity n) (l.drop (l.length - n)) ∧ (b.setCapacity n).capacity = n := by
  have hle := h.length_le
  unfold RingBuffer.setCapacity
  by_cases he : n = b.capacity
  · rw [if_pos he, show l.length - n = 0 by omega]; exact ⟨h, he.symm⟩
  · rw [if_neg he, moveAssign, h.range_eq]; exact Repr.insertBack_ofCapacity hn l

theorem Repr.setCapacity_null {n : Nat} (hn : 0 < n) :
    Repr (null.setCapacity n : RingBuffer α) [] ∧ (null.setCapacity n : RingBuffer α).capacity = n := by
  unfold RingBuffer.setCapacity
  have hr : (null : RingBuffer α).range = [] := rfl
  rw [if_neg (by simp [null]; omega), moveAssign, hr]
  simpa using Repr.insertBack_ofCapacity hn ([] : List α)

theorem Contains.uncheckedEmplaceBack (h : Contains b l) (hlt : l.length < b.capacity) (x : α) :
    Contains (b.uncheckedEmplaceBack x) (l ++ [x]) := by
  have hf := h.front_lt
  have hcap : b.slots.length = b.capacity := rfl
  refine ⟨?_, ?_, ?_, ?_, fun i hi => ?_, fun hnil => absurd hnil (by simp)⟩
  · simpa [RingBuffer.uncheckedEmplaceBack, capacity] using hf
  · simp only [RingBuffer.uncheckedEmplaceBack, capacity, List.length_set, List.length_append, List.length_singleton,
      h.back_eq]
    exact increment_wrap hf hlt
  · simp only [RingBuffer.uncheckedEmplaceBack, h.count_eq, List.length_append, List.length_singleton]
  · simp only [RingBuffer.uncheckedEmplaceBack, capacity, List.length_set, List.length_append, List.length_singleton]
    exact hlt
  · simp only [RingBuffer.uncheckedEmplaceBack, capacity, List.length_set, List.length_append,
      List.length_singleton] at hi ⊢
    rw [List.getElem?_set, h.back_eq, hcap]
    by_cases hnew : i = l.length
    · rw [hnew, if_pos rfl, if_pos (wrap_lt hf h.length_le), List.getElem?_concat_length]
    · rw [if_neg fun hw => hnew (wrap_inj hlt (by omega) hw).symm, List.getElem?_append_left (by omega)]
      exact h.slot i (by omega)

/-- The invariant for elements with a trivial destructor and for the others. -/
def ReprFor (trivial : Bool) (b : RingBuffer α) (l : List α) : Prop := Contains b l ∧ (trivial = false → Repr b l)

theorem Repr.reprFor (h : Repr b l) (trivial : Bool) : ReprFor trivial b l := ⟨h.contains, fun _ => h⟩

theorem ReprFor.uncheckedEmplaceBack_iterate {trivial : Bool} (h : ReprFor trivial b l) (x : α) {n : Nat}
    (hn : l.length + n ≤ b.capacity) :
    ReprFor trivial ((RingBuffer.uncheckedEmplaceBack · x)^[n] b) (l ++ List.replicate n x) := by
  suffices hkept : ReprFor trivial ((RingBuffer.uncheckedEmplaceBack · x)^[n] b) (l ++ List.replicate n x) ∧
      ((RingBuffer.uncheckedEmplaceBack · x)^[n] b).capacity = b.capacity from hkept.1
  induction n with
  | zero => exact ⟨by simpa using h, rfl⟩
  | succ n ih =>
      obtain ⟨⟨hcontains, hrepr⟩, hcap⟩ := ih (by omega)
      have hlt : (l ++ List.replicate n x).length < ((RingBuffer.uncheckedEmplaceBack · x)^[n] b).capacity := by
        rw [hcap, List.length_append, List.length_replicate]
        omega
      rw [Function.iterate_succ_apply', List.replicate_succ', ← List.append_assoc]
      exact ⟨⟨hcontains.uncheckedEmplaceBack hlt x, fun htrivial => (hrepr htrivial).uncheckedEmplaceBack hlt x⟩,
        (capacity_uncheckedEmplaceBack _ x).trans hcap⟩

/-- The elements are moved to the start of the new storage, and all of the rest is filled. -/
theorem repr_resizeGrows (harrays : b.arrayOne ++ b.arrayTwo = l.map some) {n : Nat} (hlt : l.length < n) (x : α) :
    Repr (b.resizeGrows n x) (l ++ List.replicate (n - l.length) x) := by
  obtain ⟨hempty, hcap⟩ := Repr.setCapacity_null (α := α) (n := n) (by omega)
  have hslots : (null.setCapacity n : RingBuffer α).slots.length = n := hcap
  unfold RingBuffer.resizeGrows
  simp only [harrays, hempty.empty_start rfl, hcap, List.length_map, Nat.zero_add]
  have hitems : (overwrite (null.setCapacity n).slots 0 (l.map some)).length = n := by
    rw [length_overwrite (by rw [List.length_map]; omega), hslots]
  have hfill : overwrite (overwrite (null.setCapacity n).slots 0 (l.map some)) l.length
      (List.replicate (n - l.length) (some x)) =
        overwrite (null.setCapacity n).slots 0 ((l ++ List.replicate (n - l.length) x).map some) := by
    apply List.ext_getElem?
    intro j
    rw [getElem?_overwrite (by rw [List.length_replicate]; omega), getElem?_overwrite (by rw [List.length_map]; omega),
      getElem?_overwrite (by simp; omega), List.map_append, List.map_replicate]
    simp only [List.length_map, List.length_append, List.length_replicate]
    by_cases hold : j < l.length
    · rw [if_neg (by omega), if_pos (by omega), if_pos (by omega), List.getElem?_append_left (by simpa using hold)]
    · by_cases hnew : j < n
      · rw [if_pos (by omega), if_pos (by omega), List.getElem?_append_right (by simp; omega), List.length_map]
        rfl
      · rw [if_neg (by omega), if_neg (by omega), if_neg (by omega)]
  have hfilled := Repr.ofPrefix (l := l ++ List.replicate (n - l.length) x) (by omega) hempty.slots_dead
    (by simp; omega)
  have hall : (l ++ List.replicate (n - l.length) x).length = n := by simp; omega
  rw [hslots, hall, endToStart, if_pos rfl] at hfilled
  rw [hfill]
  exact hfilled

/-- Only the pointer to the back moves. It leaves an empty buffer with a front that is not at the start. -/
theorem Contains.resizeCuts (h : Contains b l) {n : Nat} (hlt : n < l.length) :
    Contains (b.resizeCuts n) (l.take n) ↔ ¬(n = 0 ∧ b.frontPtr ≠ 0) := by
  have hf := h.front_lt
  have hle := h.length_le
  have hcap : (b.resizeCuts n).capacity = b.capacity := rfl
  have hlen : (l.take n).length = n := by rw [List.length_take]; omega
  constructor
  · rintro hcut ⟨rfl, hfront⟩
    exact hfront (hcut.empty_start (List.take_zero))
  · intro hfront
    refine ⟨hf, ?_, ?_, ?_, fun i hi => ?_, fun hnil => ?_⟩
    · rw [hlen, hcap, RingBuffer.resizeCuts, wrap]
      dsimp only
      split <;> split <;> omega
    · simp only [RingBuffer.resizeCuts, hlen]
    · rw [hlen]
      exact Nat.le_trans (Nat.le_of_lt hlt) hle
    · rw [hlen] at hi
      rw [List.getElem?_take_of_lt hi]
      exact h.slot i (by omega)
    · have hzero : n = 0 := by rw [← hlen, hnil, List.length_nil]
      exact not_not.1 fun hne => hfront ⟨hzero, hne⟩

theorem ReprFor.resize {trivial : Bool} (h : ReprFor trivial b l) (n : Nat) (x : α) :
    ReprFor trivial (b.resize trivial n x) (l.take n ++ List.replicate (n - l.length) x) ↔
      ¬(trivial = true ∧ n = 0 ∧ b.frontPtr ≠ 0) := by
  obtain ⟨hcontains, hrepr⟩ := h
  have hle := hcontains.length_le
  have hc := hcontains.count_eq
  have hmore (hgt : l.length < n) : ¬(trivial = true ∧ n = 0 ∧ b.frontPtr ≠ 0) := by omega
  unfold RingBuffer.resize
  simp only [size, hc]
  split
  · -- the size stays
    rename_i hsame
    rw [hsame, List.take_length, Nat.sub_self, List.replicate_zero, List.append_nil]
    refine iff_of_true ⟨hcontains, hrepr⟩ ?_
    rintro ⟨-, hzero, hfront⟩
    exact hfront (hcontains.empty_start (List.length_eq_zero_iff.1 (hsame ▸ hzero)))
  rename_i hdiff
  split
  · rename_i hgrow
    rw [List.take_of_length_le (by omega)]
    exact iff_of_true ((repr_resizeGrows hcontains.arrays_eq (by omega) x).reprFor trivial) (hmore (by omega))
  split
  · split
    · rename_i hcut
      rw [Nat.sub_eq_zero_of_le (by omega : n ≤ l.length), List.replicate_zero, List.append_nil]
      cases trivial with
      | true =>
          rw [if_pos rfl, ReprFor, and_iff_left (by simp), hcontains.resizeCuts hcut]
          simp
      | false =>
          rw [if_neg Bool.false_ne_true]
          refine iff_of_true (Repr.reprFor ?_ false) (by simp)
          have hpops := ((hrepr rfl).popBack_iterate (n := l.length - n) (by omega)).1
          rwa [show l.length - (l.length - n) = n by omega] at hpops
    · rename_i hless hmany
      rw [List.take_of_length_le (by omega)]
      exact iff_of_true (ReprFor.uncheckedEmplaceBack_iterate ⟨hcontains, hrepr⟩ x (by omega)) (hmore (by omega))
  · have hcap : n = b.capacity := by omega
    rw [List.take_of_length_le (by omega), hcap]
    exact iff_of_true (ReprFor.uncheckedEmplaceBack_iterate ⟨hcontains, hrepr⟩ x (by omega)) (hcap ▸ hmore (by omega))

end Rad.RingBuffer
