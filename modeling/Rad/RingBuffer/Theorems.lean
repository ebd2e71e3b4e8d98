import Rad.RingBuffer.Lemmas.Bulk

/-!
# The ring buffer as a bounded deque

`Run` relates the buffers that a sequence of operations can build with the plain list model: a capacity and the list
of elements, oldest first. The model says what each operation is for; that the buffer agrees with it is the theorem.
-/

namespace Rad.RingBuffer

open Lib

section

variable {α : Type*}

/-! ## The specification -/

/-- The representation invariant. -/
structure WellFormed (b : RingBuffer α) : Prop where
  front_lt : b.frontPtr < b.capacity
  back_lt : b.backPtr < b.capacity
  count_le : b.count ≤ b.capacity
  back_eq : b.backPtr = (b.frontPtr + b.count) % b.capacity
  empty_start : b.count = 0 → b.frontPtr = 0 ∧ b.backPtr = 0

/-- `operator[]`, iteration and the two arrays all read the elements `l`. -/
structure Reads (b : RingBuffer α) (l : List α) : Prop where
  size_eq : b.size = l.length
  get_eq : ∀ i, i < l.length → b.get i = l[i]?
  iterate_eq : b.iterate b.size b.begin = some (l.map some)
  arrays_eq : b.arrayOne ++ b.arrayTwo = l.map some

/-- The buffer is a well formed deque of capacity `cap` with the elements `l`. -/
structure Models (b : RingBuffer α) (cap : Nat) (l : List α) : Prop where
  wellFormed : WellFormed b
  capacity_eq : b.capacity = cap
  reads : Reads b l

/-- A sequence of operations on buffers of capacity at least 1, next to the list model. The elements of every buffer
that a copy is constructed from satisfy `copied`. The single-element removals assert that the buffer is not empty. -/
inductive Run (copied : List α → Prop) : RingBuffer α → Nat → List α → Prop
  | ofCapacity {n : Nat} (hn : 1 ≤ n) : Run copied (ofCapacity n) n []
  | pushBack {b cap l} (x : α) : Run copied b cap l → Run copied (b.pushBack x) cap (pushSpec cap l x)
  | tryPushBack {b cap l} (x : α) : Run copied b cap l →
      Run copied (b.tryPushBack x).2 cap (if l.length = cap then l else l ++ [x])
  | popFront {b cap l} (hne : l ≠ []) : Run copied b cap l → Run copied b.popFront cap l.tail
  | popBack {b cap l} (hne : l ≠ []) : Run copied b cap l → Run copied b.popBack cap l.dropLast
  | popFrontRange {b cap l} (num : Nat) : Run copied b cap l → Run copied (b.popFrontRange num).2 cap (l.drop num)
  | clear {b cap l} : Run copied b cap l → Run copied b.clear cap []
  | setCapacity {b cap l} {n : Nat} (hn : 1 ≤ n) : Run copied b cap l →
      Run copied (b.setCapacity n) n (l.drop (l.length - n))
  | copyConstruct {b cap l} (hc : copied l) : Run copied b cap l → Run copied b.copyConstruct cap l
  | copyAssign {b cap l other cap' m} : Run copied b cap l → Run copied other cap' m →
      Run copied (b.copyAssign other) (if m = [] then cap else max cap cap') m
  | moveAssign {b cap l other cap' m} : Run copied b cap l → Run copied other cap' m →
      Run copied (b.moveAssign other).1 cap' m

/-! ## Every run -/

/-- One operation keeps the representation, so every run does. -/
theorem Run.repr {b : RingBuffer α} {cap : Nat} {l : List α} (h : Run (· ≠ []) b cap l) :
    Repr b l ∧ b.capacity = cap := by
  induction h with
  | ofCapacity hn => exact ⟨Repr.ofCapacity hn, by simp [RingBuffer.ofCapacity]⟩
  | pushBack x _ ih => obtain ⟨hr, rfl⟩ := ih; exact ⟨hr.emplaceBack x, capacity_emplaceBack _ x⟩
  | tryPushBack x _ ih =>
      obtain ⟨hr, rfl⟩ := ih
      exact ⟨(hr.tryEmplaceBack x).2, capacity_tryEmplaceBack _ x⟩
  | popFront hne _ ih => exact ⟨ih.1.popFront hne, capacity_popFront.trans ih.2⟩
  | popBack hne _ ih => exact ⟨ih.1.popBack hne, (capacity_popBack _).trans ih.2⟩
  | popFrontRange num _ ih => exact ⟨(ih.1.popFrontRange num).2, (ih.1.capacity_popFrontRange num).trans ih.2⟩
  | clear _ ih => exact ⟨ih.1.clear, ih.1.capacity_clear.trans ih.2⟩
  | setCapacity hn _ ih => exact ih.1.setCapacity hn
  | copyConstruct hc _ ih => exact ⟨ih.1.copyConstruct hc, (ih.1.capacity_copyConstruct hc).trans ih.2⟩
  | copyAssign _ _ ih ih' =>
      obtain ⟨hr, rfl⟩ := ih
      obtain ⟨hr', rfl⟩ := ih'
      exact ⟨hr.copyAssign hr', hr.capacity_copyAssign hr'⟩
  | moveAssign _ _ _ ih' => exact ih'

theorem Repr.models {b : RingBuffer α} {l : List α} (h : Repr b l) : Models b b.capacity l where
  wellFormed :=
    { front_lt := h.front_lt
      back_lt := h.back_lt
      count_le := by rw [h.count_eq]; exact h.length_le
      back_eq := by rw [h.back_eq, h.count_eq, wrap_eq_mod h.front_lt h.length_le]
      empty_start := fun h0 => by
        have he : l = [] := by rw [h.count_eq] at h0; exact List.length_eq_zero_iff.mp h0
        exact ⟨h.empty_start he, h.back_of_empty he⟩ }
  capacity_eq := rfl
  reads :=
    { size_eq := h.count_eq
      get_eq := fun _ hi => h.get_eq hi
      iterate_eq := h.iterate_begin
      arrays_eq := h.arrays_eq }

/-- In every run that constructs no copy of an empty buffer, the buffer is the bounded deque of the list model. The
condition is exact: a copy constructed from a buffer of the run is the same deque just when that buffer has elements. -/
theorem run_models_deque {b : RingBuffer α} {cap : Nat} {l : List α} (h : Run (· ≠ []) b cap l) :
    Models b cap l ∧ (Models b.copyConstruct cap l ↔ l ≠ []) := by
  obtain ⟨hr, rfl⟩ := h.repr
  refine ⟨hr.models, ?_, ?_⟩
  · rintro hm rfl
    rw [hr.copyConstruct_of_empty] at hm
    exact absurd hm.wellFormed.front_lt (by simp [null])
  · intro hne
    rw [← hr.capacity_copyConstruct hne]
    exact (hr.copyConstruct hne).models

theorem run_models_deque_copied :
    Models ((ofCapacity 2).pushBack 7).copyConstruct 2 [7] :=
  (run_models_deque (.copyConstruct (by decide) (.pushBack 7 (.ofCapacity (by decide))))).1

/-- A copy of an empty buffer of capacity 1 has no capacity; what is then pushed is lost. -/
theorem copy_of_empty_not_deque :
    ¬ (∀ (b : RingBuffer Nat) (cap : Nat) (l : List Nat), Run (fun _ => True) b cap l → Models b cap l) := by
  intro h
  have hrun : Run (fun _ => True) ((ofCapacity 1 : RingBuffer Nat).copyConstruct.pushBack 7) 1 [7] :=
    .pushBack 7 (.copyConstruct trivial (.ofCapacity (by decide)))
  have hget := (h _ _ _ hrun).reads.get_eq 0 (by decide)
  exact absurd hget (by decide)

end

/-! ## Bulk operations, `resize` and the constructors against the invariant

`insert_back` is `push_back` of each element. The bulk `pop_back`, `resize` and the constructors each keep the invariant
up to one case.
-/

variable {α : Type*} {b : RingBuffer α} {l : List α}

/-- The invariant of any buffer: one without storage has no elements. -/
def Invariant (b : RingBuffer α) (l : List α) : Prop := b = null ∧ l = [] ∨ Repr b l

/-! ## `insert_back` -/

/-- `insert_back` of a range and `push_back` of each element of it leave the last `capacity()` elements. -/
theorem insertBack_eq_pushBack (h : Repr b l) (xs : List α) :
    Repr (b.insertBack (xs.map some)) ((l ++ xs).drop (l.length + xs.length - b.capacity)) ∧
      Repr (xs.foldl pushBack b) ((l ++ xs).drop (l.length + xs.length - b.capacity)) ∧
      (b.insertBack (xs.map some)).capacity = b.capacity := by
  obtain ⟨hinsert, hcap⟩ := h.insertBack xs
  have hpush := (h.pushBack_foldl xs).1
  rw [pushSpec_foldl h.cap_pos h.length_le] at hpush
  exact ⟨hinsert, hpush, hcap⟩

theorem insertBack_eq_pushBack_full :
    Repr (((ofCapacity 2).pushBack 7).insertBack ([8, 9].map some)) [8, 9] :=
  (insertBack_eq_pushBack ((Repr.ofCapacity (by decide)).emplaceBack 7) [8, 9]).1

/-! ## The bulk `pop_back` -/

/-- The last elements are copied and removed, and the buffer is the one that single `pop_back` calls leave. -/
structure PopsLast (b : RingBuffer α) (l : List α) (num : Nat) : Prop where
  copied : (b.popBackRange num).1 = (l.drop (l.length - num)).map some
  invariant : Invariant (b.popBackRange num).2 (l.take (l.length - num))
  single : (b.popBackRange num).2 = popBack^[min num b.size] b

theorem Repr.popBackRange_single (h : Repr b l) {num : Nat} (hnum : ¬ReachesFirstArray b num) :
    (b.popBackRange num).2 = RingBuffer.popBack^[min num b.size] b := by
  have hmany := h.popBackRange hnum
  have htake : l.length - min num l.length = l.length - num := by omega
  rw [size, h.count_eq]
  obtain ⟨hsingle, hcap, hfront⟩ := h.popBack_iterate (n := min num l.length) (by omega)
  rw [htake] at hsingle
  refine hmany.eq_of_front hsingle ((h.capacity_popBackRange num).trans hcap.symm) ?_
  by_cases hall : l.length ≤ num
  · have hnil : l.take (l.length - num) = [] := by rw [Nat.sub_eq_zero_of_le hall, List.take_zero]
    rw [hmany.empty_start hnil, hsingle.empty_start hnil]
  · rw [h.frontPtr_popBackRange (by omega), hfront (by omega)]

theorem popBackRange_exact (h : Invariant b l) (num : Nat) : PopsLast b l num ↔ ¬ReachesFirstArray b num := by
  rcases h with ⟨rfl, rfl⟩ | h
  · have hnone : (null : RingBuffer α).popBackRange num = ([], null) := by simp [popBackRange, size, null]
    refine iff_of_true ⟨?_, ?_, ?_⟩ ?_
    · rw [hnone, List.drop_nil, List.map_nil]
    · rw [hnone, List.take_nil]
      exact .inl ⟨rfl, rfl⟩
    · rw [hnone, size, null, Nat.min_zero]
      rfl
    · rintro ⟨hlin, -⟩
      exact absurd hlin (by simp [isLinearized, null])
  · constructor
    · rintro ⟨-, hinvariant, -⟩ hnum
      rcases hinvariant with ⟨hnull, -⟩ | hrepr
      · have hcap := h.capacity_popBackRange num
        rw [hnull] at hcap
        exact absurd h.cap_pos (by rw [← hcap]; simp [null, capacity])
      · exact h.popBackRange_broken hnum hrepr
    · intro hnum
      exact ⟨h.popBackRange_copied num, .inr (h.popBackRange hnum), h.popBackRange_single hnum⟩

/-- Capacity 4 with the elements 3, 4, 5, 6 around the end of the storage. -/
def wrappedFour : RingBuffer Nat := ⟨[some 5, some 6, some 3, some 4], 2, 2, 4⟩

theorem repr_wrappedFour : Repr wrappedFour [3, 4, 5, 6] :=
  ⟨⟨by decide, by decide, rfl, by decide, by decide⟩, by decide⟩

theorem popBackRange_exact_wrapped : PopsLast wrappedFour [3, 4, 5, 6] 2 :=
  (popBackRange_exact (.inr repr_wrappedFour) 2).2 fun h => absurd h.2.1 (by decide)

/-- Of the last three elements two are at the start; the back is set to the start instead of the slot of the first of
the three. -/
theorem popBackRange_wrong_back :
    ¬∀ (b : RingBuffer Nat) (l : List Nat) (num : Nat), Invariant b l → PopsLast b l num := by
  intro h
  have hsingle := (h _ _ 3 (.inr repr_wrappedFour)).single
  exact absurd (congrArg backPtr hsingle) (by decide)

/-! ## `resize` -/

/-- The invariant of any buffer whose elements have a trivial destructor, or have not. -/
def InvariantFor (trivial : Bool) (b : RingBuffer α) (l : List α) : Prop := b = null ∧ l = [] ∨ ReprFor trivial b l

theorem resize_null (trivial : Bool) {n : Nat} (hn : 0 < n) (x : α) :
    (null : RingBuffer α).resize trivial n x = null.resizeGrows n x := by
  rw [resize, if_neg, if_pos]
  · exact hn
  · exact Nat.ne_of_gt hn

theorem slots_resize_zero (b : RingBuffer α) (x : α) : (b.resize true 0 x).slots = b.slots := by
  unfold resize
  split
  · rfl
  rename_i hsize
  rw [if_neg (Nat.not_lt_zero _)]
  split
  · rw [if_pos (Nat.pos_of_ne_zero (Ne.symm hsize)), if_pos rfl]
    rfl
  · rename_i hcap
    rw [Nat.eq_zero_of_not_pos hcap, Nat.zero_sub]
    rfl

/-- `resize` leaves the first elements, followed by copies of the value, in a buffer that satisfies the invariant. -/
theorem resize_exact {trivial : Bool} (h : InvariantFor trivial b l) (n : Nat) (x : α) :
    InvariantFor trivial (b.resize trivial n x) (l.take n ++ List.replicate (n - l.length) x) ↔
      ¬(trivial = true ∧ n = 0 ∧ b.frontPtr ≠ 0) := by
  rcases h with ⟨rfl, rfl⟩ | h
  · refine iff_of_true ?_ fun hbad => hbad.2.2 rfl
    rw [List.take_nil, List.nil_append, List.length_nil, Nat.sub_zero]
    by_cases hn : n = 0
    · rw [hn]
      exact .inl ⟨rfl, rfl⟩
    · rw [resize_null trivial (by omega)]
      have hgrown := repr_resizeGrows (b := null) (l := ([] : List α)) rfl (n := n) (by simp; omega) x
      exact .inr (hgrown.reprFor trivial)
  · rw [← h.resize n x, InvariantFor, or_iff_right_iff_imp]
    rintro ⟨hnull, hnil⟩
    rw [List.append_eq_nil_iff, List.take_eq_nil_iff, List.replicate_eq_nil_iff] at hnil
    cases trivial with
    | false => exact (h.resize n x).2 (by simp)
    | true =>
        -- the storage stays, so the buffer had none
        have hzero : n = 0 := by
          rcases hnil.1 with hzero | hnil'
          · exact hzero
          · simpa [hnil'] using hnil.2
        have hslots := slots_resize_zero b x
        rw [hzero] at hnull
        rw [hnull] at hslots
        exact absurd h.1.front_lt (by simp [capacity, ← hslots, null])

theorem resize_exact_cut : InvariantFor true (wrappedFour.resize true 1 9) [3] :=
  (resize_exact (.inr (repr_wrappedFour.reprFor true)) 1 9).2 (by simp)

/-- Cut to no elements, the buffer keeps a front that is not at the start. -/
theorem resize_displaced_front :
    ¬∀ (trivial : Bool) (b : RingBuffer Nat) (l : List Nat) (n x : Nat), InvariantFor trivial b l →
      InvariantFor trivial (b.resize trivial n x) (l.take n ++ List.replicate (n - l.length) x) := by
  intro h
  rcases h true wrappedFour _ 0 9 (.inr (repr_wrappedFour.reprFor true)) with ⟨hnull, -⟩ | ⟨hcontains, -⟩
  · exact absurd (congrArg slots hnull) (by decide)
  · exact absurd (hcontains.empty_start rfl) (by decide)

/-! ## The constructors -/

/-- The constructors that make storage, each without and with an allocator. -/
inductive Constructor (α : Type*) where
  | ofCapacity (capacitySize : Nat) (alloc : Bool)
  | ofCount (capacitySizeAndCount : Nat) (value : α) (alloc : Bool)
  | ofSize (capacitySize bufferSize : Nat) (value : α) (alloc : Bool)
  | ofRange (xs : List α) (alloc : Bool)

namespace Constructor

def build : Constructor α → Option (RingBuffer α)
  | ofCapacity n alloc => some (if alloc then RingBuffer.ofCapacityAlloc n else RingBuffer.ofCapacity n)
  | ofCount n value alloc => some (if alloc then RingBuffer.ofCountAlloc n value else RingBuffer.ofCount n value)
  | ofSize n size value _ => RingBuffer.ofSize n size value
  | ofRange xs _ => some (RingBuffer.ofRange (xs.map some))

/-- The capacity that is asked for. -/
def capacity : Constructor α → Nat
  | ofCapacity n _ => n
  | ofCount n _ _ => n
  | ofSize n _ _ _ => n
  | ofRange xs _ => xs.length

/-- The elements that are asked for. -/
def elements : Constructor α → List α
  | ofCapacity _ _ => []
  | ofCount n value _ => List.replicate n value
  | ofSize _ size value _ => List.replicate size value
  | ofRange xs _ => xs

/-- The constructed buffer satisfies the invariant, and a `push_back` overwrites the oldest element of a full one. -/
def Establishes (c : Constructor α) : Prop :=
  ∃ b, c.build = some b ∧ b.capacity = c.capacity ∧ Repr b c.elements ∧
    ∀ x, Repr (b.pushBack x) (pushSpec c.capacity c.elements x)

/-- The constructor of a full buffer with an allocator leaves the back at the end of the storage. -/
def leavesBackAtEnd : Constructor α → Bool
  | ofCount _ _ alloc => alloc
  | _ => false

theorem establishes_of_repr {c : Constructor α} (hbuild : c.build = some b) (hcap : b.capacity = c.capacity)
    (h : Repr b c.elements) : c.Establishes :=
  ⟨b, hbuild, hcap, h, fun x => hcap ▸ h.emplaceBack x⟩

/-- Storage filled from its start, with the back behind the elements or, when there is no room, at the start. -/
theorem repr_filled {n : Nat} (hn : 0 < n) (hle : l.length ≤ n) :
    Repr ⟨overwrite (List.replicate n none) 0 (l.map some), 0, endToStart n l.length, l.length⟩ l := by
  have hfilled : Repr ⟨overwrite (List.replicate n none) 0 (l.map some), 0,
      endToStart (List.replicate n (none : Option α)).length l.length, l.length⟩ l :=
    Repr.ofPrefix (by simpa using hn) (replicate_dead n) (by simpa using hle)
  rwa [List.length_replicate] at hfilled

theorem constructor_exact (c : Constructor α) (hcap : 1 ≤ c.capacity) (hle : c.elements.length ≤ c.capacity) :
    c.Establishes ↔ c.leavesBackAtEnd = false := by
  cases c with
  | ofCapacity n alloc =>
      refine iff_of_true (establishes_of_repr (b := RingBuffer.ofCapacity n) ?_ ?_ (Repr.ofCapacity hcap)) rfl
      · cases alloc <;> rfl
      · exact List.length_replicate
  | ofCount n value alloc =>
      dsimp only [capacity] at hcap hle
      have hfill : overwrite (List.replicate n none) 0 ((List.replicate n value).map some) =
          List.replicate n (some value) := by
        simp [overwrite]
      cases alloc with
      | false =>
          have hrepr := repr_filled (l := List.replicate n value) hcap hle
          rw [hfill, List.length_replicate, endToStart, if_pos rfl] at hrepr
          exact iff_of_true (establishes_of_repr (b := RingBuffer.ofCount n value) rfl List.length_replicate hrepr) rfl
      | true =>
          refine iff_of_false ?_ (by simp [leavesBackAtEnd])
          rintro ⟨b, hbuild, -, hrepr, -⟩
          cases hbuild
          have hback := hrepr.back_lt
          simp [RingBuffer.ofCountAlloc, RingBuffer.capacity] at hback
  | ofSize n size value alloc =>
      dsimp only [capacity] at hcap hle
      rw [elements, List.length_replicate] at hle
      have hrepr := repr_filled (l := List.replicate size value) hcap (by simpa using hle)
      rw [List.map_replicate, List.length_replicate] at hrepr
      have hbuild : (Constructor.ofSize n size value alloc).build = some _ := if_neg (Nat.not_lt.2 hle)
      refine iff_of_true (establishes_of_repr hbuild ?_ hrepr) rfl
      rw [RingBuffer.capacity, length_overwrite (by simpa using hle), List.length_replicate]
      rfl
  | ofRange xs alloc =>
      dsimp only [capacity] at hcap
      have hrepr := repr_filled (l := xs) hcap (Nat.le_refl _)
      rw [endToStart, if_pos rfl] at hrepr
      have hbuild : (Constructor.ofRange xs alloc).build = some _ := rfl
      refine iff_of_true (establishes_of_repr hbuild ?_ ?_) rfl
      · simp [RingBuffer.ofRange, RingBuffer.ofCapacity, RingBuffer.capacity, overwrite, capacity]
      · simpa [RingBuffer.ofRange, RingBuffer.ofCapacity, RingBuffer.capacity, elements] using hrepr

theorem constructor_exact_range : (ofRange [7, 8] true).Establishes :=
  (constructor_exact (ofRange [7, 8] true) (by decide) (by decide)).2 rfl

theorem constructor_back_at_end :
    ¬∀ c : Constructor Nat, 1 ≤ c.capacity → c.elements.length ≤ c.capacity → c.Establishes := by
  intro h
  obtain ⟨b, hbuild, -, hrepr, -⟩ := h (ofCount 1 7 true) (by decide) (by decide)
  cases hbuild
  exact absurd hrepr.back_lt (by decide)

end Constructor

end Rad.RingBuffer
