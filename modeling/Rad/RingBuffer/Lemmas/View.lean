import Rad.RingBuffer.View

/-!
# The bytes that a ring view stands for

A view represents the list of the bytes that are committed and not consumed: they lie in the storage from `start_ptr` on,
around its end. The pointers are kept right by every call; what can go wrong is how the two ranges are told apart.
-/

namespace Rad.RingConsumerProducer

open Lib

variable {r : RingConsumerProducer} {l : Bytes} {n : Nat}

/-- The view represents the bytes `l`. A view that was constructed full of data has its back pointer at the end of the
storage and not at its begin. -/
structure Represents (r : RingConsumerProducer) (l : Bytes) : Prop where
  start_lt : 0 < r.usedSize → r.startPtr < r.capacity
  used_le : r.usedSize ≤ r.capacity
  length_eq : l.length = r.usedSize
  back_eq : r.backPtr = wrap r.capacity r.startPtr r.usedSize ∨
    r.backPtr = r.capacity ∧ r.startPtr + r.usedSize = r.capacity
  empty_start : r.usedSize = 0 → r.startPtr = 0 ∧ r.backPtr = 0
  bytes : ∀ i < r.usedSize, r.storage[wrap r.capacity r.startPtr i]? = l[i]?

theorem incrementPointer_eq (r : RingConsumerProducer) (p n : Nat) : r.incrementPointer p n = wrap r.capacity p n := by
  unfold incrementPointer wrap
  split <;> split <;> omega

/-- The bytes in the slots behind the back pointer. -/
def committed (r : RingConsumerProducer) (n : Nat) : Bytes :=
  (List.range n).map fun i => r.storage.getD (wrap r.capacity r.backPtr i) 0

namespace Represents

/-- The slots behind the back pointer are those behind the last byte. -/
theorem wrap_back (h : Represents r l) {i : Nat} (hi : r.usedSize + i ≤ r.capacity) :
    wrap r.capacity r.backPtr i = wrap r.capacity r.startPtr (r.usedSize + i) := by
  rcases h.back_eq with hback | ⟨hback, hend⟩
  · by_cases hused : 0 < r.usedSize
    · rw [hback, wrap_wrap (h.start_lt hused) hi]
    · obtain ⟨hstart, hback⟩ := h.empty_start (by omega)
      have hzero : r.usedSize = 0 := by omega
      rw [hstart, hback, hzero, Nat.zero_add]
  · rw [hback]
    unfold wrap
    split <;> split <;> omega

theorem isLinearized_iff (h : Represents r l) :
    r.isLinearized = true ↔ r.startPtr + r.usedSize ≤ r.capacity ∨ r.usedSize = r.capacity := by
  have hle := h.used_le
  unfold isLinearized
  simp only [ge_iff_le, Bool.or_eq_true, decide_eq_true_eq, beq_iff_eq]
  rcases h.back_eq with hback | ⟨hback, hend⟩
  · by_cases hused : 0 < r.usedSize
    · have hstart := h.start_lt hused
      rw [hback]
      unfold wrap
      split <;> omega
    · obtain ⟨hstart, hback⟩ := h.empty_start (by omega)
      omega
  · omega

/-! ## Calls -/

theorem ofBuffer (storage : Bytes) {commitSize : Nat} (hle : commitSize ≤ storage.length) :
    Represents (ofBuffer storage commitSize) (storage.take commitSize) := by
  have hmin : min storage.length commitSize = commitSize := by omega
  refine ⟨fun hused => ?_, ?_, ?_, ?_, fun hused => ⟨rfl, hused⟩, fun i hi => ?_⟩
  · simp only [RingConsumerProducer.ofBuffer, capacity] at hused ⊢
    omega
  · simp only [RingConsumerProducer.ofBuffer, capacity]
    omega
  · simp [RingConsumerProducer.ofBuffer, hle]
  · simp only [RingConsumerProducer.ofBuffer, capacity, hmin]
    unfold wrap
    split <;> omega
  · simp only [RingConsumerProducer.ofBuffer, capacity, hmin] at hi ⊢
    rw [wrap, if_pos (by omega), Nat.zero_add, List.getElem?_take_of_lt hi]

/-- The slots without live bytes may be written at any time. -/
theorem fill (h : Represents r l) {storage : Bytes} (hlen : storage.length = r.capacity)
    (hlive : ∀ i < r.usedSize, storage[wrap r.capacity r.startPtr i]? = r.storage[wrap r.capacity r.startPtr i]?) :
    Represents { r with storage } l := by
  have hcap : capacity { r with storage } = r.capacity := hlen
  refine ⟨?_, ?_, h.length_eq, ?_, h.empty_start, fun i hi => ?_⟩
  · rw [hcap]
    exact h.start_lt
  · rw [hcap]
    exact h.used_le
  · rw [hcap]
    exact h.back_eq
  · rw [hcap]
    exact (hlive i hi).trans (h.bytes i hi)

theorem commit (h : Represents r l) (hn : n ≤ r.space) : Represents (r.commit n) (l ++ r.committed n) := by
  have hle := h.used_le
  have hlen := h.length_eq
  have hcap : (r.commit n).capacity = r.capacity := rfl
  have hspace : r.usedSize + n ≤ r.capacity := by
    unfold space size at hn
    omega
  have hback := h.wrap_back hspace
  have hstart : 0 < r.usedSize + n → r.startPtr < r.capacity := by
    intro hpos
    by_cases hused : 0 < r.usedSize
    · exact h.start_lt hused
    · rw [(h.empty_start (by omega)).1]
      omega
  refine ⟨fun hpos => hstart hpos, hspace, ?_, .inl ?_, fun hzero => ?_, fun i hi => ?_⟩
  · simp [committed, RingConsumerProducer.commit, hlen]
  · rw [hcap]
    exact (incrementPointer_eq _ _ _).trans hback
  · have hzero : r.usedSize + n = 0 := hzero
    obtain ⟨hstart, hback⟩ := h.empty_start (by omega)
    refine ⟨hstart, ?_⟩
    show r.incrementPointer r.backPtr n = 0
    rw [incrementPointer_eq, hback]
    unfold wrap
    split <;> omega
  · have hi : i < r.usedSize + n := hi
    rw [hcap]
    show r.storage[wrap r.capacity r.startPtr i]? = _
    by_cases hold : i < r.usedSize
    · rw [h.bytes i hold, List.getElem?_append_left (by omega)]
    · have hnew := h.wrap_back (i := i - r.usedSize) (by omega)
      rw [show r.usedSize + (i - r.usedSize) = i by omega] at hnew
      have hlt : wrap r.capacity r.startPtr i < r.storage.length := wrap_lt (hstart (by omega)) (by omega)
      rw [List.getElem?_append_right (by omega), hlen, committed, List.getElem?_map, List.getElem?_range (by omega)]
      simp only [Option.map_some, hnew]
      rw [List.getD_eq_getElem?_getD, List.getElem?_eq_getElem hlt, Option.getD_some]

theorem consume (h : Represents r l) (hn : n ≤ r.size) : Represents (r.consume n) (l.drop n) := by
  have hle := h.used_le
  have hlen := h.length_eq
  unfold size at hn
  unfold RingConsumerProducer.consume
  split
  · rename_i hzero
    refine ⟨fun hpos => ?_, ?_, ?_, .inl ?_, fun _ => ⟨rfl, rfl⟩, fun i hi => ?_⟩
    · dsimp only at hpos
      omega
    · exact Nat.le_trans (Nat.sub_le _ _) hle
    · simp [hlen]
    · dsimp only
      rw [hzero]
      unfold wrap
      split <;> omega
    · dsimp only at hi
      omega
  · rename_i hpos
    have hstart := h.start_lt (by omega)
    have hmoved : ∀ i, n + i ≤ r.capacity →
        wrap r.capacity (r.incrementPointer r.startPtr n) i = wrap r.capacity r.startPtr (n + i) := fun i hi => by
      rw [incrementPointer_eq, wrap_wrap hstart hi]
    refine ⟨fun _ => ?_, ?_, ?_, ?_, fun hzero => absurd hzero hpos, fun i hi => ?_⟩
    · show r.incrementPointer r.startPtr n < r.capacity
      rw [incrementPointer_eq]
      exact wrap_lt hstart (by omega)
    · exact Nat.le_trans (Nat.sub_le _ _) hle
    · simp [hlen]
    · show r.backPtr = wrap r.capacity (r.incrementPointer r.startPtr n) (r.usedSize - n) ∨ _
      rw [hmoved _ (by omega), show n + (r.usedSize - n) = r.usedSize by omega]
      refine h.back_eq.imp_right fun ⟨hback, hend⟩ => ⟨hback, ?_⟩
      show r.incrementPointer r.startPtr n + (r.usedSize - n) = r.capacity
      rw [incrementPointer_eq, wrap, if_pos (by omega)]
      omega
    · dsimp only at hi
      show r.storage[wrap r.capacity (r.incrementPointer r.startPtr n) i]? = _
      rw [hmoved i (by omega), h.bytes _ (by omega), List.getElem?_drop]

theorem clear (r : RingConsumerProducer) : Represents r.clear [] := by
  refine ⟨fun hpos => absurd hpos (Nat.lt_irrefl 0), Nat.zero_le _, rfl, .inl ?_, fun _ => ⟨rfl, rfl⟩, fun i hi => ?_⟩
  · show 0 = wrap r.capacity 0 0
    unfold wrap
    split <;> omega
  · exact absurd hi (Nat.not_lt_zero i)

theorem moveToStart (h : Represents r l) (hlinear : r.startPtr + r.usedSize ≤ r.capacity) :
    Represents r.moveToStart.2 l := by
  have hlen := h.length_eq
  unfold RingConsumerProducer.moveToStart
  split
  · exact h
  · rename_i hmoves
    simp only [empty, size, Bool.or_eq_true, beq_iff_eq, not_or] at hmoves
    generalize hdata : (r.storage.drop r.startPtr).take r.usedSize = data
    have hsize : data.length = r.usedSize := by
      rw [← hdata, List.length_take, List.length_drop]
      unfold capacity at hlinear
      omega
    have hfits : 0 + data.length ≤ r.storage.length := by
      rw [hsize]
      exact Nat.le_trans (by omega) hlinear
    have hstorage : moveRingBufferViewToStart r.storage r.startPtr r.size = overwrite r.storage 0 data := by
      unfold moveRingBufferViewToStart moveOverlap
      have hcond : ¬(decide (r.startPtr ≥ r.startPtr + r.size) || (0 : Nat) == r.startPtr) = true := by
        simp only [size, ge_iff_le, Bool.or_eq_true, decide_eq_true_eq, beq_iff_eq]
        omega
      rw [if_neg hcond, size, Nat.add_sub_cancel_left, hdata]
    have hcap : (r.moved (moveRingBufferViewToStart r.storage r.startPtr r.size)).capacity = r.capacity := by
      rw [hstorage]
      exact length_overwrite hfits
    have hback : (r.moved (moveRingBufferViewToStart r.storage r.startPtr r.size)).backPtr =
        wrap r.capacity 0 r.usedSize := incrementPointer_eq _ _ _
    refine ⟨fun hpos => ?_, ?_, hlen, .inl ?_, fun hzero => absurd hzero hmoves.1, fun i hi => ?_⟩
    · rw [hcap]
      exact Nat.lt_of_lt_of_le hpos h.used_le
    · rw [hcap]
      exact h.used_le
    · rw [hcap]
      exact hback
    · have hi : i < r.usedSize := hi
      rw [hcap]
      show (moveRingBufferViewToStart r.storage r.startPtr r.size)[wrap r.capacity 0 i]? = _
      rw [hstorage, wrap, if_pos (by omega), getElem?_overwrite hfits, if_pos (by omega), ← hdata, Nat.zero_add,
        Nat.sub_zero, List.getElem?_take_of_lt hi, List.getElem?_drop, ← h.bytes i hi, wrap, if_pos (by omega)]

end Represents

end Rad.RingConsumerProducer
