import Mathlib.Data.List.Nodup
import Rad.RingBuffer.Lemmas.View

/-!
# What a ring view exposes

`Run` builds views by calls, next to the bytes that are committed and not consumed. `available_buffers` has to give these
bytes, `available_space` the slots without them.
-/

namespace Rad.RingConsumerProducer

open Lib

variable {r : RingConsumerProducer} {l : Bytes}

/-! ## The specification -/

inductive Call where
  | commit (n : Nat)
  | consume (n : Nat)
  | clear
  | linearize
  | moveToStart

namespace Call

/-- What `commit` and `consume` assert. -/
def InBounds (r : RingConsumerProducer) : Call → Prop
  | commit n => n ≤ r.space
  | consume n => n ≤ r.size
  | clear | linearize | moveToStart => True

instance (r : RingConsumerProducer) : (c : Call) → Decidable (c.InBounds r)
  | commit n => inferInstanceAs (Decidable (n ≤ r.space))
  | consume n => inferInstanceAs (Decidable (n ≤ r.size))
  | clear | linearize | moveToStart => .isTrue trivial

def perform (r : RingConsumerProducer) : Call → RingConsumerProducer
  | commit n => r.commit n
  | consume n => r.consume n
  | clear => r.clear
  | linearize => r.linearize.2
  | moveToStart => r.moveToStart.2

/-- The bytes that are committed and not consumed, behind the call. -/
def live (r : RingConsumerProducer) (l : Bytes) : Call → Bytes
  | commit n => l ++ r.committed n
  | consume n => l.drop n
  | clear => []
  | linearize | moveToStart => l

end Call

/-- A sequence of calls on a view, next to its live bytes. Between the calls the slots without live bytes are written
freely. -/
inductive Run (allowed : RingConsumerProducer → Call → Prop) : RingConsumerProducer → Bytes → Prop
  | start (storage : Bytes) (commitSize : Nat) : Run allowed (ofBuffer storage commitSize) (storage.take commitSize)
  | fill {r : RingConsumerProducer} {l storage : Bytes} (hlen : storage.length = r.capacity)
      (hlive : ∀ i < r.usedSize, storage[wrap r.capacity r.startPtr i]? = r.storage[wrap r.capacity r.startPtr i]?) :
      Run allowed r l → Run allowed { r with storage } l
  | call {r : RingConsumerProducer} {l : Bytes} (c : Call) (hbounds : c.InBounds r) (hallowed : allowed r c) :
      Run allowed r l → Run allowed (c.perform r) (c.live r l)

/-- `available_buffers` gives the bytes `l`. -/
structure Exposes (r : RingConsumerProducer) (l : Bytes) : Prop where
  inside_one : r.availableBuffers.1.Inside r.capacity
  inside_two : r.availableBuffers.2.Inside r.capacity
  disjoint : r.availableBuffers.1.positions.Disjoint r.availableBuffers.2.positions
  bytes : r.availableBuffers.1.bytes r.storage ++ r.availableBuffers.2.bytes r.storage = l
  size_eq : r.availableBuffers.1.size + r.availableBuffers.2.size = r.size

/-- The slots of the live bytes, the oldest one first. -/
def liveSlots (r : RingConsumerProducer) : List Nat := (List.range r.usedSize).map (wrap r.capacity r.startPtr)

def liveBytes (r : RingConsumerProducer) : Bytes := r.liveSlots.map fun p => r.storage.getD p 0

/-- The slots of `available_space`. -/
def spaceSlots (r : RingConsumerProducer) : List Nat := r.availableSpace.1.positions ++ r.availableSpace.2.positions

/-- `available_space` gives the free slots of a view with the live bytes `l`. -/
structure FreeSpace (r : RingConsumerProducer) (l : Bytes) : Prop where
  inside_one : r.availableSpace.1.Inside r.capacity
  inside_two : r.availableSpace.2.Inside r.capacity
  disjoint : r.availableSpace.1.positions.Disjoint r.availableSpace.2.positions
  not_live : r.spaceSlots.Disjoint (r.availableBuffers.1.positions ++ r.availableBuffers.2.positions)
  size_eq : r.availableSpace.1.size + r.availableSpace.2.size = r.space
  slots : ∀ n ≤ r.space, (r.commit n).liveSlots = r.liveSlots ++ r.spaceSlots.take n
  written : ∀ data : Bytes, data.length ≤ r.space → ((r.writeSpace data).commit data.length).liveBytes = l ++ data
  readFrom : ∀ data : Bytes, data.length ≤ r.space →
    (r.readFrom data).1 = data.length ∧ (r.readFrom data).2.liveBytes = l ++ data

/-! ## What `available_buffers` gives -/

theorem Represents.bytes_eq {a : Nat} {b : BufferRange} (h : Represents r l) (hsize : a + b.size ≤ r.usedSize)
    (hslots : ∀ i < b.size, wrap r.capacity r.startPtr (a + i) = b.ptr + i) :
    b.bytes r.storage = (l.drop a).take b.size := by
  have hlen := h.length_eq
  refine List.ext_getElem? fun i => ?_
  unfold BufferRange.bytes
  by_cases hi : i < b.size
  · rw [List.getElem?_take_of_lt hi, List.getElem?_take_of_lt hi, List.getElem?_drop, List.getElem?_drop,
      ← h.bytes _ (by omega), hslots i hi]
  · rw [List.getElem?_eq_none (by rw [List.length_take]; omega), List.getElem?_eq_none (by rw [List.length_take]; omega)]

/-- The data are in one piece or in two; a full view is taken for one piece. -/
theorem Represents.availableBuffers_cases (h : Represents r l) (hstart : r.usedSize = r.capacity → r.startPtr = 0) :
    r.startPtr + r.usedSize ≤ r.capacity ∧ r.availableBuffers = (⟨r.startPtr, r.usedSize⟩, {}) ∨
    r.startPtr < r.capacity ∧ r.usedSize < r.capacity ∧ r.startPtr + r.usedSize = r.capacity + r.backPtr ∧
      r.availableBuffers = (⟨r.startPtr, r.capacity - r.startPtr⟩, ⟨0, r.backPtr⟩) := by
  have hle := h.used_le
  have hlinear := h.isLinearized_iff
  by_cases hlin : r.startPtr + r.usedSize ≤ r.capacity
  · exact .inl ⟨hlin, by rw [availableBuffers, if_pos (hlinear.2 (.inl hlin)), size]⟩
  · have hused : r.usedSize < r.capacity := Nat.lt_of_le_of_ne hle fun hfull => hlin (by rw [hstart hfull]; omega)
    have hpos : 0 < r.usedSize := Nat.pos_of_ne_zero fun hzero => hlin (by rw [(h.empty_start hzero).1]; omega)
    refine .inr ⟨h.start_lt hpos, hused, ?_, by rw [availableBuffers, if_neg (by rw [hlinear]; omega)]⟩
    rcases h.back_eq with hback | hback
    · rw [hback, wrap, if_neg (by omega)]
      omega
    · omega

theorem Represents.exposes_iff (h : Represents r l) : Exposes r l ↔ (r.usedSize = r.capacity → r.startPtr = 0) := by
  have hlen := h.length_eq
  constructor
  · intro hexp hfull
    have hinside := hexp.inside_one
    rw [availableBuffers, if_pos (h.isLinearized_iff.2 (.inr hfull))] at hinside
    have hinside : r.startPtr + r.usedSize ≤ r.capacity := hinside
    omega
  · intro hstart
    rcases h.availableBuffers_cases hstart with ⟨hlin, hbuffs⟩ | ⟨hlt, hused, hback, hbuffs⟩
    · refine ⟨?_, ?_, ?_, ?_, ?_⟩ <;> rw [hbuffs]
      · exact hlin
      · exact Nat.zero_le _
      · simp [BufferRange.positions]
      · rw [h.bytes_eq (a := 0) (by simp) fun i hi => ?_]
        · simp [BufferRange.bytes, ← hlen]
        · have hi : i < r.usedSize := hi
          show wrap r.capacity r.startPtr (0 + i) = r.startPtr + i
          rw [wrap, if_pos (by omega), Nat.zero_add]
      · rfl
    · refine ⟨?_, ?_, ?_, ?_, ?_⟩ <;> rw [hbuffs]
      · show r.startPtr + (r.capacity - r.startPtr) ≤ r.capacity
        omega
      · show 0 + r.backPtr ≤ r.capacity
        omega
      · intro p hp hp'
        simp only [BufferRange.positions, List.mem_map, List.mem_range] at hp hp'
        omega
      · rw [h.bytes_eq (a := 0) (by dsimp only; omega) fun i hi => ?_,
          h.bytes_eq (a := r.capacity - r.startPtr) (by dsimp only; omega) fun i hi => ?_]
        · rw [List.drop_zero, List.take_of_length_le (l := l.drop _) (by simp [hlen]; omega), List.take_append_drop]
        · dsimp only at hi ⊢
          rw [wrap, if_neg (by omega)]
          omega
        · dsimp only at hi ⊢
          rw [wrap, if_pos (by omega)]
          omega
      · dsimp only [size]
        omega

/-! ## Every run -/

/-- One call keeps the representation, where the data are moved only while they do not wrap. -/
theorem Represents.call (h : Represents r l) (c : Call) (hbounds : c.InBounds r)
    (hlinear : c = .linearize ∨ c = .moveToStart → r.startPtr + r.usedSize ≤ r.capacity) :
    Represents (c.perform r) (c.live r l) := by
  cases c with
  | commit n => exact h.commit hbounds
  | consume n => exact h.consume hbounds
  | clear => exact Represents.clear r
  | linearize =>
      have hsame : r.linearize.2 = r := by
        rw [RingConsumerProducer.linearize, if_pos (h.isLinearized_iff.2 (.inl (hlinear (.inl rfl))))]
      simpa only [Call.perform, Call.live, hsame] using h
  | moveToStart => exact h.moveToStart (hlinear (.inr rfl))

theorem Represents.ofBuffer_any (storage : Bytes) (commitSize : Nat) :
    Represents (.ofBuffer storage commitSize) (storage.take commitSize) := by
  have hsame : RingConsumerProducer.ofBuffer storage commitSize =
      .ofBuffer storage (min storage.length commitSize) := by
    simp [RingConsumerProducer.ofBuffer]
  have htake : storage.take commitSize = storage.take (min storage.length commitSize) := by
    rw [List.take_eq_take_iff]
    omega
  rw [hsame, htake]
  exact Represents.ofBuffer storage (Nat.min_le_left _ _)

/-- A commit does not fill a view whose data begin in the middle, and the data are moved only while they are linear. -/
def Keeps (r : RingConsumerProducer) : Call → Prop
  | .commit n => n < r.space ∨ r.startPtr = 0
  | .linearize | .moveToStart => r.isLinearized = true
  | .consume _ | .clear => True

/-- A full view stays one that begins at the begin of its storage. -/
theorem Represents.full_call (h : Represents r l) {c : Call} (hkeeps : Keeps r c)
    (hstart : r.usedSize = r.capacity → r.startPtr = 0) :
    (c.perform r).usedSize = (c.perform r).capacity → (c.perform r).startPtr = 0 := by
  have hle := h.used_le
  intro hfull
  cases c with
  | commit n =>
      have hfull : r.usedSize + n = r.capacity := hfull
      simp only [Keeps, space, size] at hkeeps
      show r.startPtr = 0
      omega
  | consume n =>
      simp only [Call.perform, RingConsumerProducer.consume] at hfull ⊢
      split
      · rfl
      · rename_i hpos
        rw [if_neg hpos] at hfull
        have hfull : r.usedSize - n = r.capacity := hfull
        have hzero := hstart (by omega)
        show r.incrementPointer r.startPtr n = 0
        rw [incrementPointer_eq, hzero, wrap, if_pos (by omega)]
        omega
  | clear => rfl
  | linearize =>
      have hsame : r.linearize.2 = r := by
        rw [RingConsumerProducer.linearize, if_pos (show _ = true from hkeeps)]
      simp only [Call.perform, hsame] at hfull ⊢
      exact hstart hfull
  | moveToStart =>
      simp only [Call.perform, RingConsumerProducer.moveToStart] at hfull ⊢
      split
      · rename_i hstays
        rw [if_pos hstays] at hfull
        exact hstart hfull
      · rfl

theorem Run.represents (h : Run Keeps r l) : Represents r l ∧ (r.usedSize = r.capacity → r.startPtr = 0) := by
  induction h with
  | start storage commitSize => exact ⟨Represents.ofBuffer_any storage commitSize, fun _ => rfl⟩
  | fill hlen hlive _ ih => exact ⟨ih.1.fill hlen hlive, fun hfull => ih.2 (hfull.trans hlen)⟩
  | @call r l c hbounds hkeeps _ ih =>
      obtain ⟨hrep, hstart⟩ := ih
      refine ⟨hrep.call c hbounds fun hmoves => ?_, hrep.full_call hkeeps hstart⟩
      have hlin : r.isLinearized = true := by
        rcases hmoves with rfl | rfl
        · exact hkeeps
        · exact hkeeps
      have := hrep.isLinearized_iff.1 hlin
      omega

/-- In every run that meets the condition at each call, `available_buffers` gives the live bytes. For a commit the
condition is exact: a commit that does not meet it exposes bytes behind the storage. -/
theorem available_buffers_live (h : Run Keeps r l) :
    Exposes r l ∧ ∀ n ≤ r.space, (Exposes (r.commit n) (l ++ r.committed n) ↔ n < r.space ∨ r.startPtr = 0) := by
  obtain ⟨hrep, hstart⟩ := h.represents
  refine ⟨hrep.exposes_iff.2 hstart, fun n hn => ?_⟩
  rw [(hrep.commit hn).exposes_iff]
  show (r.usedSize + n = r.capacity → r.startPtr = 0) ↔ _
  unfold space size at hn ⊢
  have hle := hrep.used_le
  omega

theorem available_buffers_live_wrapped :
    Exposes ((((ofBuffer [1, 2, 3, 4] 0).commit 3).consume 2).commit 2) [3, 4, 1] :=
  (available_buffers_live (.call (.commit 2) (by decide) (.inl (by decide))
    (.call (.consume 2) (by decide) trivial (.call (.commit 3) (by decide) (.inr rfl) (.start [1, 2, 3, 4] 0))))).1

/-- A view of four bytes that is filled, partly consumed and filled up again: the range of its data ends two bytes behind
the storage. -/
theorem full_view_exposes_outside :
    ¬ (∀ r l, Run (fun _ _ => True) r l → Exposes r l) := by
  intro h
  have hrun : Run (fun _ _ => True) ((((ofBuffer [1, 2, 3, 4] 0).commit 3).consume 2).commit 3) [3, 4, 1, 2] :=
    .call (.commit 3) (by decide) trivial
      (.call (.consume 2) (by decide) trivial (.call (.commit 3) (by decide) trivial (.start [1, 2, 3, 4] 0)))
  have hinside := (h _ _ hrun).inside_one
  exact absurd hinside (by unfold BufferRange.Inside; decide)

/-! ## What `available_space` gives -/

theorem mem_positions {b : BufferRange} {p : Nat} : p ∈ b.positions ↔ b.ptr ≤ p ∧ p < b.ptr + b.size := by
  simp only [BufferRange.positions, List.mem_map, List.mem_range]
  constructor
  · rintro ⟨i, hi, rfl⟩
    omega
  · intro hp
    exact ⟨p - b.ptr, by omega, by omega⟩

/-- Two ranges that lie one after the other in the ring. -/
theorem positions_append {one two : BufferRange} {f : Nat → Nat} (hone : ∀ i < one.size, f i = one.ptr + i)
    (htwo : ∀ i < two.size, f (one.size + i) = two.ptr + i) :
    one.positions ++ two.positions = (List.range (one.size + two.size)).map f := by
  rw [List.range_add, List.map_append, List.map_map]
  congr 1
  · exact List.map_congr_left fun i hi => (hone i (List.mem_range.1 hi)).symm
  · exact List.map_congr_left fun i hi => (htwo i (List.mem_range.1 hi)).symm

theorem liveSlots_commit (r : RingConsumerProducer) (n : Nat) :
    (r.commit n).liveSlots =
      r.liveSlots ++ (List.range n).map fun i => wrap r.capacity r.startPtr (r.usedSize + i) := by
  show (List.range (r.usedSize + n)).map (wrap r.capacity r.startPtr) = _
  rw [List.range_add, List.map_append, List.map_map]
  rfl

theorem Represents.liveBytes_eq (h : Represents r l) : r.liveBytes = l := by
  have hlen := h.length_eq
  refine List.ext_getElem? fun i => ?_
  unfold liveBytes liveSlots
  by_cases hi : i < r.usedSize
  · have hsome : l[i]? = some (l.get ⟨i, by omega⟩) := List.getElem?_eq_getElem (by omega)
    rw [List.map_map, List.getElem?_map, List.getElem?_range hi, Option.map_some, Function.comp_apply,
      List.getD_eq_getElem?_getD, h.bytes i hi, hsome, Option.getD_some]
  · rw [List.getElem?_eq_none (by simp; omega), List.getElem?_eq_none (by omega)]

theorem Represents.liveSlots_eq (h : Represents r l) (hstart : r.usedSize = r.capacity → r.startPtr = 0) :
    r.availableBuffers.1.positions ++ r.availableBuffers.2.positions = r.liveSlots := by
  rcases h.availableBuffers_cases hstart with ⟨hlin, hbuffs⟩ | ⟨hlt, hused, hback, hbuffs⟩
  · rw [hbuffs]
    refine positions_append (fun i hi => ?_) fun i hi => absurd hi (Nat.not_lt_zero i)
    have hi : i < r.usedSize := hi
    rw [wrap, if_pos (by omega)]
  · rw [hbuffs, positions_append (f := wrap r.capacity r.startPtr)]
    · unfold liveSlots
      dsimp only
      congr 2
      omega
    · intro i hi
      dsimp only at hi ⊢
      rw [wrap, if_pos (by omega)]
    · intro i hi
      dsimp only at hi ⊢
      rw [wrap, if_neg (by omega)]
      omega

/-- The back pointer is not at the begin of the storage while there are data, and a full view is not taken for a linear
one with free space. -/
def SpaceTold (r : RingConsumerProducer) : Prop :=
  r.usedSize = 0 ∨ r.backPtr ≠ 0 ∧ (r.usedSize < r.capacity ∨ r.backPtr = r.capacity)

theorem Represents.spaceTold_of_size (h : Represents r l)
    (hsize : r.availableSpace.1.size + r.availableSpace.2.size = r.space) : SpaceTold r := by
  have hle := h.used_le
  have hlinear := h.isLinearized_iff
  by_cases hused : r.usedSize = 0
  · exact .inl hused
  have hstart := h.start_lt (by omega)
  by_cases hlin : r.startPtr + r.usedSize ≤ r.capacity ∨ r.usedSize = r.capacity
  · rw [availableSpace, if_pos (hlinear.2 hlin)] at hsize
    have hsize : r.capacity - r.backPtr + r.startPtr = r.capacity - r.usedSize := hsize
    refine .inr ?_
    rcases h.back_eq with hback | hback
    · unfold wrap at hback
      split at hback <;> omega
    · omega
  · refine .inr ?_
    rcases h.back_eq with hback | hback
    · rw [wrap, if_neg (by omega)] at hback
      omega
    · omega

/-- The free slots are in one piece behind the data, in two around them, or in one in front of them. -/
theorem Represents.availableSpace_cases (h : Represents r l) (htold : SpaceTold r) :
    r.backPtr = r.startPtr + r.usedSize ∧ r.startPtr + r.usedSize ≤ r.capacity ∧
      r.availableSpace = (⟨r.backPtr, r.capacity - r.backPtr⟩, ⟨0, r.startPtr⟩) ∨
    r.startPtr < r.capacity ∧ r.startPtr + r.usedSize = r.capacity + r.backPtr ∧
      r.availableSpace = (⟨r.backPtr, r.space⟩, {}) := by
  have hle := h.used_le
  have hlinear := h.isLinearized_iff
  have hempty := h.empty_start
  have hlt := h.start_lt
  unfold SpaceTold at htold
  by_cases hlin : r.startPtr + r.usedSize ≤ r.capacity ∨ r.usedSize = r.capacity
  · have hback : r.backPtr = r.startPtr + r.usedSize := by
      rcases h.back_eq with hback | hback
      · unfold wrap at hback
        split at hback <;> omega
      · omega
    refine .inl ⟨hback, ?_, by rw [availableSpace, if_pos (hlinear.2 hlin)]⟩
    rcases h.back_eq with hback' | hback'
    · unfold wrap at hback'
      split at hback' <;> omega
    · omega
  · have hstart := h.start_lt (by omega)
    refine .inr ⟨hstart, ?_, by rw [availableSpace, if_neg (by rw [hlinear]; exact hlin)]⟩
    rcases h.back_eq with hback | hback
    · rw [wrap, if_neg (by omega)] at hback
      omega
    · omega

theorem Represents.spaceSlots_eq (h : Represents r l) (htold : SpaceTold r) :
    r.spaceSlots = (List.range r.space).map fun i => wrap r.capacity r.startPtr (r.usedSize + i) := by
  have hle := h.used_le
  unfold spaceSlots
  rcases h.availableSpace_cases htold with ⟨hback, hlin, hspace⟩ | ⟨hstart, hback, hspace⟩
  · rw [hspace, positions_append (f := fun i => wrap r.capacity r.startPtr (r.usedSize + i))]
    · unfold space size
      dsimp only
      congr 2
      omega
    · intro i hi
      dsimp only at hi ⊢
      rw [wrap, if_pos (by omega)]
      omega
    · intro i hi
      dsimp only at hi ⊢
      rw [wrap, if_neg (by omega)]
      omega
  · rw [hspace]
    refine positions_append (fun i hi => ?_) fun i hi => absurd hi (Nat.not_lt_zero i)
    unfold space size at hi
    dsimp only at hi ⊢
    rw [wrap, if_neg (by omega)]
    omega

theorem Represents.availableSpace_inside (h : Represents r l) (htold : SpaceTold r) :
    r.availableSpace.1.Inside r.capacity ∧ r.availableSpace.2.Inside r.capacity ∧
      r.availableSpace.1.size + r.availableSpace.2.size = r.space := by
  have hle := h.used_le
  rcases h.availableSpace_cases htold with ⟨hback, hlin, hspace⟩ | ⟨hstart, hback, hspace⟩
  · rw [hspace]
    unfold BufferRange.Inside space size
    dsimp only
    omega
  · rw [hspace]
    unfold BufferRange.Inside space size
    dsimp only
    omega

/-- The live slots and those behind them are different slots of the ring. -/
theorem Represents.nodup_slots (h : Represents r l) (htold : SpaceTold r) : (r.liveSlots ++ r.spaceSlots).Nodup := by
  have hle := h.used_le
  rw [h.spaceSlots_eq htold, ← liveSlots_commit]
  unfold liveSlots
  refine List.Nodup.map_on (fun i hi j hj heq => ?_) List.nodup_range
  have hcap : r.usedSize + r.space = r.capacity := by
    unfold space size
    omega
  have hi : i < r.usedSize + r.space := List.mem_range.1 hi
  have hj : j < r.usedSize + r.space := List.mem_range.1 hj
  exact wrap_inj (n := r.capacity) (by omega) (by omega) heq

theorem Represents.disjoint_space (h : Represents r l) (htold : SpaceTold r) :
    r.availableSpace.1.positions.Disjoint r.availableSpace.2.positions :=
  List.disjoint_of_nodup_append (List.Nodup.of_append_right (h.nodup_slots htold))

theorem Represents.disjoint_live (h : Represents r l) (htold : SpaceTold r) : r.liveSlots.Disjoint r.spaceSlots :=
  List.disjoint_of_nodup_append (h.nodup_slots htold)

/-! ## Writing through `available_space` -/

section Writing

variable {data : Bytes} {one two : BufferRange}

theorem storage_writeSpace (hspace : r.availableSpace = (one, two)) (hdata : data.length ≤ one.size + two.size) :
    (r.writeSpace data).storage =
      overwrite (overwrite r.storage one.ptr (data.take one.size)) two.ptr (data.drop one.size) := by
  simp only [writeSpace, write, hspace]
  have htake : data.take (min one.size data.length) = data.take one.size := by
    rw [List.take_eq_take_iff]
    omega
  have hdrop : (data.drop (min one.size data.length)).take (min two.size (data.length - min one.size data.length)) =
      data.drop one.size := by
    by_cases hle : data.length ≤ one.size
    · simp [Nat.min_eq_right hle, List.drop_eq_nil_of_le hle]
    · rw [Nat.min_eq_left (Nat.le_of_not_le hle), List.take_of_length_le (by rw [List.length_drop]; omega)]
  rw [htake, hdrop]

theorem length_storage_writeSpace (hspace : r.availableSpace = (one, two)) (hone : one.Inside r.capacity)
    (htwo : two.Inside r.capacity) (hdata : data.length ≤ one.size + two.size) :
    (r.writeSpace data).storage.length = r.capacity := by
  unfold BufferRange.Inside capacity at hone htwo
  have hfirst : (overwrite r.storage one.ptr (data.take one.size)).length = r.storage.length :=
    length_overwrite (by rw [List.length_take]; omega)
  rw [storage_writeSpace hspace hdata, length_overwrite (by rw [hfirst, List.length_drop]; omega), hfirst]
  rfl

/-- The slots of the ranges hold what was written, and the other slots are left alone. -/
theorem getElem?_writeSpace (hspace : r.availableSpace = (one, two)) (hone : one.Inside r.capacity)
    (htwo : two.Inside r.capacity) (hdata : data.length ≤ one.size + two.size)
    (hdisjoint : one.positions.Disjoint two.positions) (p : Nat) :
    (∀ i, r.spaceSlots[i]? = some p → i < data.length → (r.writeSpace data).storage[p]? = data[i]?) ∧
      (p ∉ r.spaceSlots → (r.writeSpace data).storage[p]? = r.storage[p]?) := by
  unfold BufferRange.Inside capacity at hone htwo
  have hlen : (data.take one.size).length = min one.size data.length := List.length_take
  have hlen' : (data.drop one.size).length = data.length - one.size := List.length_drop
  have hfirst : (overwrite r.storage one.ptr (data.take one.size)).length = r.storage.length :=
    length_overwrite (by omega)
  have hread : (r.writeSpace data).storage[p]? =
      if two.ptr ≤ p ∧ p < two.ptr + (data.length - one.size) then data[one.size + (p - two.ptr)]?
      else if one.ptr ≤ p ∧ p < one.ptr + min one.size data.length then data[p - one.ptr]? else r.storage[p]? := by
    rw [storage_writeSpace hspace hdata, getElem?_overwrite (by omega), getElem?_overwrite (by omega), hlen,
      hlen', List.getElem?_drop]
    refine if_congr Iff.rfl rfl ?_
    split
    · rw [List.getElem?_take_of_lt (by omega)]
    · rfl
  have hslots : r.spaceSlots = one.positions ++ two.positions := by
    unfold spaceSlots
    rw [hspace]
  have hsizes : one.positions.length = one.size ∧ two.positions.length = two.size := by
    simp [BufferRange.positions]
  rw [hread, hslots]
  constructor
  · intro i hi hlt
    by_cases hcut : i < one.size
    · rw [List.getElem?_append_left (by omega)] at hi
      have hmem : p ∈ one.positions := List.mem_of_getElem? hi
      have hnot : p ∉ two.positions := fun htwo => hdisjoint hmem htwo
      rw [BufferRange.positions, List.getElem?_map, List.getElem?_range hcut, Option.map_some, Option.some_inj] at hi
      rw [mem_positions] at hnot
      rw [if_neg (by omega), if_pos (by omega)]
      congr 1
      omega
    · rw [List.getElem?_append_right (by omega), hsizes.1, BufferRange.positions, List.getElem?_map,
        List.getElem?_range (by omega), Option.map_some, Option.some_inj] at hi
      rw [if_pos (by omega)]
      congr 1
      omega
  · intro hp
    rw [List.mem_append, not_or, mem_positions, mem_positions] at hp
    rw [if_neg (by omega), if_neg (by omega)]

end Writing

/-- What is written behind the live bytes and committed. -/
theorem Represents.overwritten (h : Represents r l) {storage data : Bytes} (hdata : data.length ≤ r.space)
    (hlen : storage.length = r.capacity)
    (hlive : ∀ i < r.usedSize, storage[wrap r.capacity r.startPtr i]? = r.storage[wrap r.capacity r.startPtr i]?)
    (hslots : ∀ i < data.length, storage[wrap r.capacity r.backPtr i]? = data[i]?) :
    Represents (({ r with storage } : RingConsumerProducer).commit data.length) (l ++ data) := by
  have hfill := h.fill hlen hlive
  have hroom : data.length ≤ space { r with storage } := by
    unfold space at hdata ⊢
    rw [show capacity { r with storage } = r.capacity from hlen]
    exact hdata
  have hcommitted : committed { r with storage } data.length = data := by
    refine List.ext_getElem? fun i => ?_
    by_cases hi : i < data.length
    · rw [committed, List.getElem?_map, List.getElem?_range hi, Option.map_some, List.getD_eq_getElem?_getD,
        show capacity { r with storage } = r.capacity from hlen, hslots i hi, List.getElem?_eq_getElem hi, Option.getD_some]
    · rw [List.getElem?_eq_none (by simp [committed]; omega), List.getElem?_eq_none (by omega)]
  have hdone := hfill.commit hroom
  rwa [hcommitted] at hdone

/-- What is written through the ranges and committed is behind the live bytes, which are left alone. -/
theorem Represents.writeSpace (h : Represents r l) (htold : SpaceTold r) {data : Bytes}
    (hdata : data.length ≤ r.space) : Represents ((r.writeSpace data).commit data.length) (l ++ data) := by
  obtain ⟨hone, htwo, hsize⟩ := h.availableSpace_inside htold
  have hdisjoint := h.disjoint_space htold
  have hlive := h.disjoint_live htold
  rcases hspace : r.availableSpace with ⟨one, two⟩
  rw [hspace] at hone htwo hsize hdisjoint
  have hfits : data.length ≤ one.size + two.size := Nat.le_trans hdata (Nat.le_of_eq hsize.symm)
  have hread := getElem?_writeSpace hspace hone htwo hfits hdisjoint
  refine h.overwritten hdata (length_storage_writeSpace hspace hone htwo hfits) (fun i hi => ?_) fun i hi => ?_
  · exact (hread _).2 (hlive (List.mem_map.2 ⟨i, List.mem_range.2 hi, rfl⟩))
  · refine (hread _).1 i ?_ hi
    have hroom : r.usedSize + i ≤ r.capacity := by
      unfold space size at hdata
      omega
    rw [h.wrap_back hroom, h.spaceSlots_eq htold, List.getElem?_map, List.getElem?_range (by omega), Option.map_some]

/-- `read_from` writes through the ranges and commits what it wrote. -/
theorem readFrom_eq {data : Bytes} (hsize : r.availableSpace.1.size + r.availableSpace.2.size = r.space)
    (hdata : data.length ≤ r.space) (hne : data ≠ []) :
    r.readFrom data = (data.length, (r.writeSpace data).commit data.length) := by
  have hpos : 0 < data.length := List.length_pos_iff.2 hne
  have hfull : ¬(data.isEmpty || r.full) = true := by
    unfold space at hdata
    simp only [full, Bool.or_eq_true, List.isEmpty_iff, beq_iff_eq, not_or]
    exact ⟨hne, by omega⟩
  rcases hspace : r.availableSpace with ⟨one, two⟩
  rw [hspace] at hsize
  dsimp only at hsize
  unfold readFrom writeSpace
  rw [if_neg hfull, hspace]
  dsimp only
  split
  · rename_i hone
    simp only [Bool.or_eq_true, List.isEmpty_iff, List.drop_eq_nil_iff, beq_iff_eq] at hone
    have hall : min one.size data.length = data.length := by omega
    have hsame : ∀ (q : RingConsumerProducer) (p : Nat), q.write p [] = q := by
      intro q p
      simp [write, overwrite]
    rw [hall, List.drop_length, List.take_nil, hsame]
  · rw [List.length_drop, show min one.size data.length + min two.size (data.length - min one.size data.length) =
      data.length by omega]

/-- `read_from` appends what there is room for, also where the ranges of `available_space` are mistaken. -/
theorem Represents.readFrom (h : Represents r l) {data : Bytes} (hdata : data.length ≤ r.space) :
    Represents (r.readFrom data).2 (l ++ data) ∧ (r.readFrom data).2.capacity = r.capacity ∧
      (r.readFrom data).2.startPtr = r.startPtr := by
  by_cases hne : data = []
  · subst hne
    simpa [RingConsumerProducer.readFrom] using h
  by_cases htold : SpaceTold r
  · obtain ⟨hone, htwo, hsize⟩ := h.availableSpace_inside htold
    rw [readFrom_eq hsize hdata hne]
    rcases hspace : r.availableSpace with ⟨one, two⟩
    rw [hspace] at hone htwo hsize
    exact ⟨h.writeSpace htold hdata,
      length_storage_writeSpace hspace hone htwo (Nat.le_trans hdata (Nat.le_of_eq hsize.symm)), rfl⟩
  have hpos : 0 < data.length := List.length_pos_iff.2 hne
  unfold SpaceTold at htold
  unfold space size at hdata
  have hused : 0 < r.usedSize := by omega
  have hback : r.backPtr = 0 := by omega
  have hend : r.startPtr + r.usedSize = r.capacity := by
    have hstart := h.start_lt hused
    rcases h.back_eq with hwrap | ⟨_, hend⟩
    · unfold wrap at hwrap
      split at hwrap <;> omega
    · exact hend
  -- the first of the ranges is the whole storage, and the data end before the live bytes
  have hspace : r.availableSpace = (⟨0, r.capacity⟩, ⟨0, r.startPtr⟩) := by
    rw [availableSpace, if_pos (h.isLinearized_iff.2 (.inl (Nat.le_of_eq hend))), hback, Nat.sub_zero]
  have hread : (r.readFrom data).2 =
      ({ r with storage := overwrite r.storage 0 data } : RingConsumerProducer).commit data.length := by
    have hfull : ¬(data.isEmpty || r.full) = true := by
      simp only [full, size, Bool.or_eq_true, List.isEmpty_iff, beq_iff_eq, not_or]
      exact ⟨hne, by omega⟩
    rw [RingConsumerProducer.readFrom, if_neg hfull, hspace]
    simp only [Nat.min_eq_right (show data.length ≤ r.capacity by omega), List.drop_length, List.take_length, write]
    rfl
  have hfits : 0 + data.length ≤ r.storage.length := by
    unfold capacity at hdata
    omega
  rw [hread]
  refine ⟨h.overwritten hdata (length_overwrite hfits) (fun i hi => ?_) fun i hi => ?_, length_overwrite hfits, rfl⟩
  · have hslot : wrap r.capacity r.startPtr i = r.startPtr + i := if_pos (by omega)
    rw [hslot, getElem?_overwrite hfits, if_neg (by omega)]
  · have hslot : wrap r.capacity r.backPtr i = i := by rw [hback, wrap, Nat.zero_add, if_pos (by omega)]
    rw [hslot, getElem?_overwrite hfits, if_pos (by omega), Nat.sub_zero]

theorem Represents.freeSpace_iff (h : Represents r l) : FreeSpace r l ↔ SpaceTold r := by
  refine ⟨fun hfree => h.spaceTold_of_size hfree.size_eq, fun htold => ?_⟩
  obtain ⟨hone, htwo, hsize⟩ := h.availableSpace_inside htold
  have hfullStart : r.usedSize = r.capacity → r.startPtr = 0 := by
    intro hfull
    rcases h.availableSpace_cases htold with ⟨_, hlin, _⟩ | ⟨hstart, hback, _⟩
    · omega
    · unfold SpaceTold at htold
      have hempty := h.empty_start
      omega
  refine ⟨hone, htwo, h.disjoint_space htold, ?_, hsize, fun n hn => ?_, fun data hdata => ?_, fun data hdata => ?_⟩
  · rw [h.liveSlots_eq hfullStart]
    exact fun _ hspace hlive => h.disjoint_live htold hlive hspace
  · rw [liveSlots_commit, h.spaceSlots_eq htold, ← List.map_take, List.take_range, Nat.min_eq_left hn]
  · exact (h.writeSpace htold hdata).liveBytes_eq
  · by_cases hne : data = []
    · subst hne
      simp [RingConsumerProducer.readFrom, h.liveBytes_eq]
    · rw [readFrom_eq hsize hdata hne]
      exact ⟨rfl, (h.writeSpace htold hdata).liveBytes_eq⟩

/-- The calls that move bytes through the view. -/
def Transfers (_ : RingConsumerProducer) : Call → Prop
  | .commit _ | .consume _ => True
  | .clear | .linearize | .moveToStart => False

theorem Run.represents_of_transfers (h : Run Transfers r l) : Represents r l := by
  induction h with
  | start storage commitSize => exact Represents.ofBuffer_any storage commitSize
  | fill hlen hlive _ ih => exact ih.fill hlen hlive
  | call c hbounds htransfers _ ih =>
      refine ih.call c hbounds ?_
      rintro (rfl | rfl)
      · exact htransfers.elim
      · exact htransfers.elim

/-- In every state that commits and consumes reach, `available_space` gives the free slots just when the view is empty
or its back pointer is not at the begin of the storage and it is not full; a view that was constructed full keeps its
back pointer at the end, where nothing is mistaken. -/
theorem available_space_free (h : Run Transfers r l) :
    FreeSpace r l ↔ r.usedSize = 0 ∨ r.backPtr ≠ 0 ∧ (r.usedSize < r.capacity ∨ r.backPtr = r.capacity) :=
  h.represents_of_transfers.freeSpace_iff

theorem available_space_free_wrapped :
    FreeSpace ((((ofBuffer [1, 2, 3, 4] 0).commit 3).consume 2).commit 2) [3, 4, 1] :=
  (available_space_free (.call (.commit 2) (by decide) trivial (.call (.consume 2) (by decide) trivial
    (.call (.commit 3) (by decide) trivial (.start [1, 2, 3, 4] 0))))).2 (by decide)

/-- A read that ends at the end of the storage and a partial consume: the ranges of the free space take in the whole
storage, the unread byte with it. -/
theorem wrapped_view_space_live :
    ¬ (∀ r l, Run Transfers r l → FreeSpace r l) := by
  intro h
  have hrun : Run Transfers (((ofBuffer [1, 2, 3, 4] 0).commit 4).consume 3) [4] :=
    .call (.consume 3) (by decide) trivial (.call (.commit 4) (by decide) trivial (.start [1, 2, 3, 4] 0))
  have hsize := (h _ _ hrun).size_eq
  exact absurd hsize (by decide)

end Rad.RingConsumerProducer
