import Rad.RingBuffer.Theorems

/-!
# Iterators against indices

The iterator at index `i` is the one that `i` single steps lead to from `begin()`. It is null at the end and else the
pointer `i` slots after the front, so comparing and jumping can be decided on indices.
-/

namespace Rad.RingBuffer

open Lib

variable {α : Type*} {b : RingBuffer α} {l : List α}

/-- `++` on an iterator; there is no step from the end. -/
def stepForward (b : RingBuffer α) (it : Option Nat) : Option Nat := it.bind b.next

/-- The iterator at index `i`. -/
def iteratorAt (b : RingBuffer α) (i : Nat) : Option Nat := b.stepForward^[i] b.begin

/-- `n` single steps, back for a negative number. -/
def steps (b : RingBuffer α) (it : Option Nat) (n : Int) : Option Nat :=
  if n < 0 then b.prev^[(-n).toNat] it else b.stepForward^[n.toNat] it

theorem Repr.iteratorAt_eq (h : Repr b l) {i : Nat} (hi : i ≤ l.length) :
    b.iteratorAt i = if i = l.length then none else some (wrap b.capacity b.frontPtr i) := by
  induction i with
  | zero =>
      have hempty := h.empty_iff
      rw [iteratorAt, Function.iterate_zero_apply, begin, wrap_zero h.front_lt]
      by_cases hnil : l = []
      · rw [if_pos (hempty.2 hnil), if_pos (by rw [hnil]; rfl)]
      · rw [if_neg (mt hempty.1 hnil), if_neg fun hzero => hnil (List.length_eq_zero_iff.1 hzero.symm)]
  | succ i ih =>
      rw [iteratorAt, Function.iterate_succ_apply', ← iteratorAt, ih (by omega), if_neg (by omega)]
      exact h.next_wrap (by omega)

/-! ## Comparing -/

/-- The four comparisons and the difference of the iterators at the indices `i` and `j` are those of the indices. -/
structure OrdersLikeIndices (b : RingBuffer α) (i j : Nat) : Prop where
  lt_iff : iterLt (b.iteratorAt i) (b.iteratorAt j) = true ↔ i < j
  le_iff : iterLe (b.iteratorAt i) (b.iteratorAt j) = true ↔ i ≤ j
  gt_iff : iterGt (b.iteratorAt i) (b.iteratorAt j) = true ↔ i > j
  ge_iff : iterGe (b.iteratorAt i) (b.iteratorAt j) = true ↔ i ≥ j
  difference_eq : b.difference (b.iteratorAt i) (b.iteratorAt j) = (i : Int) - j

/-- Both indices are before the end, and both elements are in the same array. -/
def SameArray (b : RingBuffer α) (i j : Nat) : Prop :=
  i < b.size ∧ j < b.size ∧ (b.frontPtr + i < b.capacity ↔ b.frontPtr + j < b.capacity)

theorem Repr.pointerToIndex_iteratorAt (h : Repr b l) {i : Nat} (hi : i ≤ l.length) :
    b.pointerToIndex (b.iteratorAt i) = i := by
  rw [h.iteratorAt_eq hi]
  split
  · rename_i hend
    rw [pointerToIndex, size, h.count_eq, hend]
  · exact h.pointerToIndex_wrap (by omega)

theorem Repr.address_iteratorAt (h : Repr b l) {i : Nat} (hi : i ≤ l.length) :
    address (b.iteratorAt i) = if i = l.length then 0 else wrap b.capacity b.frontPtr i + 1 := by
  rw [h.iteratorAt_eq hi]
  split <;> rfl

theorem iterators_order (h : Invariant b l) {i j : Nat} (hi : i ≤ b.size) (hj : j ≤ b.size) :
    OrdersLikeIndices b i j ↔ i = j ∨ SameArray b i j := by
  rcases h with ⟨rfl, rfl⟩ | h
  · obtain ⟨rfl, rfl⟩ : i = 0 ∧ j = 0 := ⟨Nat.le_zero.1 hi, Nat.le_zero.1 hj⟩
    refine iff_of_true ⟨?_, ?_, ?_, ?_, ?_⟩ (.inl rfl) <;> simp [iterLt, iterLe, iterGt, iterGe, difference]
  · have hf := h.front_lt
    have hle := h.length_le
    rw [size, h.count_eq] at hi hj
    have hlt : address (b.iteratorAt i) < address (b.iteratorAt j) ↔ iterLt (b.iteratorAt i) (b.iteratorAt j) = true := by
      simp [iterLt]
    have haddress := h.address_iteratorAt hi
    have haddress' := h.address_iteratorAt hj
    rw [SameArray, size, h.count_eq]
    unfold wrap at haddress haddress'
    constructor
    · intro horders
      have hlt' := hlt.trans horders.lt_iff
      have hgt' : address (b.iteratorAt j) < address (b.iteratorAt i) ↔ i > j := by
        simpa [iterGt] using horders.gt_iff
      split at haddress <;> split at haddress' <;> (try split at haddress) <;> (try split at haddress') <;> omega
    · intro hsame
      have hdifference : b.difference (b.iteratorAt i) (b.iteratorAt j) = (i : Int) - j := by
        rw [difference, h.pointerToIndex_iteratorAt hi, h.pointerToIndex_iteratorAt hj]
      refine ⟨?_, ?_, ?_, ?_, hdifference⟩ <;>
        simp only [iterLt, iterLe, iterGt, iterGe, decide_eq_true_eq] <;>
        split at haddress <;> split at haddress' <;> (try split at haddress) <;> (try split at haddress') <;> omega

theorem iterators_order_wrapped : OrdersLikeIndices wrappedFour 2 3 :=
  (iterators_order (.inr repr_wrappedFour) (by decide) (by decide)).2 (.inr ⟨by decide, by decide, by decide⟩)

/-- The element at index 2 is at the start of the storage, below the one at index 1. -/
theorem iterators_order_fails :
    ¬∀ (b : RingBuffer Nat) (l : List Nat) (i j : Nat), Invariant b l → i ≤ b.size → j ≤ b.size →
      OrdersLikeIndices b i j := by
  intro h
  have hlt := (h wrappedFour _ 1 2 (.inr repr_wrappedFour) (by decide) (by decide)).lt_iff
  exact absurd (hlt.2 (by decide)) (by decide)

/-! ## Jumping -/

/-- `it += n`, `it -= -n` and `n` single steps all lead from index `i` to index `i + n`. -/
structure JumpsLikeSteps (b : RingBuffer α) (i : Nat) (n : Int) : Prop where
  steps_eq : b.steps (b.iteratorAt i) n = b.iteratorAt (i + n).toNat
  advance_eq : b.advance (b.iteratorAt i) n = b.iteratorAt (i + n).toNat
  retreat_eq : b.retreat (b.iteratorAt i) (-n) = b.iteratorAt (i + n).toNat

/-- A jump back from the end is counted from the end of the storage and not from the back. -/
def JumpsFromEnd (b : RingBuffer α) (i : Nat) (n : Int) : Prop := i = b.size ∧ n < 0 ∧ b.backPtr ≠ 0

theorem iteratorAt_add (b : RingBuffer α) (i n : Nat) : b.stepForward^[n] (b.iteratorAt i) = b.iteratorAt (i + n) := by
  rw [iteratorAt, iteratorAt, ← Function.iterate_add_apply, Nat.add_comm]

theorem Repr.prev_iteratorAt (h : Repr b l) {i : Nat} (hi : i < l.length) :
    b.prev (b.iteratorAt (i + 1)) = b.iteratorAt i := by
  have hf := h.front_lt
  have hle := h.length_le
  have hptr : (b.iteratorAt (i + 1)).getD b.backPtr = wrap b.capacity b.frontPtr (i + 1) := by
    rw [h.iteratorAt_eq hi]
    split
    · rename_i hend
      rw [Option.getD_none, h.back_eq, ← hend]
    · rfl
  rw [prev, hptr, h.iteratorAt_eq (Nat.le_of_lt hi), if_neg (by omega)]
  congr 1
  unfold decrement wrap
  split <;> split <;> split <;> omega

theorem Repr.prev_iterate (h : Repr b l) {i n : Nat} (hn : i + n ≤ l.length) :
    b.prev^[n] (b.iteratorAt (i + n)) = b.iteratorAt i := by
  induction n with
  | zero => rfl
  | succ n ih => rw [Function.iterate_succ_apply, ← Nat.add_assoc, h.prev_iteratorAt (by omega), ih (by omega)]

theorem Repr.forward_iteratorAt (h : Repr b l) {i n : Nat} (hpos : 0 < n) (hn : i + n ≤ l.length) :
    b.forward (b.iteratorAt i) n = b.iteratorAt (i + n) := by
  have hf := h.front_lt
  have hle := h.length_le
  have hjump : b.incrementBy (wrap b.capacity b.frontPtr i) n = wrap b.capacity b.frontPtr (i + n) := by
    unfold incrementBy wrap
    split <;> split <;> split <;> omega
  have hend : wrap b.capacity b.frontPtr (i + n) = b.backPtr ↔ i + n = l.length := by
    rw [h.back_eq]
    unfold wrap
    split <;> split <;> omega
  rw [h.iteratorAt_eq (by omega), if_neg (by omega), h.iteratorAt_eq hn, forward, Option.bind_some]
  simp only [hjump, hend]

/-- A jump back leads to the right iterator from an element, and from the end when the elements end where the storage
does. -/
theorem Repr.backward_iteratorAt (h : Repr b l) {i n : Nat} (hpos : 0 < n) (hn : i + n ≤ l.length) :
    b.backward (b.iteratorAt (i + n)) n = b.iteratorAt i ↔ ¬(i + n = l.length ∧ b.backPtr ≠ 0) := by
  have hf := h.front_lt
  have hle := h.length_le
  have hback := h.back_eq
  rw [h.iteratorAt_eq hn, h.iteratorAt_eq (by omega : i ≤ l.length), if_neg (by omega : i ≠ l.length), backward,
    Option.some_inj]
  unfold wrap at hback ⊢
  by_cases hend : i + n = l.length
  · rw [if_pos hend, decrementBy]
    split at hback <;> split <;> omega
  · rw [if_neg hend, decrementBy]
    split <;> split <;> split <;> omega

theorem iterator_jumps (h : Invariant b l) {i : Nat} {n : Int} (hi : i ≤ b.size) (hlow : 0 ≤ i + n)
    (hhigh : i + n ≤ b.size) : JumpsLikeSteps b i n ↔ ¬JumpsFromEnd b i n := by
  rcases h with ⟨rfl, rfl⟩ | h
  · obtain rfl : i = 0 := Nat.le_zero.1 hi
    obtain rfl : n = 0 := by
      simp only [size, null] at hhigh
      omega
    exact iff_of_true ⟨rfl, rfl, rfl⟩ fun hbad => absurd hbad.2.1 (Int.lt_irrefl 0)
  · have hsize : b.size = l.length := h.count_eq
    rw [JumpsFromEnd, hsize]
    rw [hsize] at hi hhigh
    rcases Int.lt_trichotomy n 0 with hneg | rfl | hpos
    · -- back, to the index `i + n`
      obtain ⟨k, rfl⟩ : ∃ k : Nat, n = -k := ⟨n.natAbs, by omega⟩
      obtain ⟨m, rfl⟩ : ∃ m : Nat, i = m + k := ⟨i - k, by omega⟩
      have hm : ((m + k : Nat) + -(k : Int)).toNat = m := by omega
      have hjump := h.backward_iteratorAt (i := m) (n := k) (by omega) hi
      constructor
      · rintro ⟨-, hadvance, -⟩ ⟨hend, -, hback⟩
        rw [advance, if_neg (by omega), if_pos hneg, hm, Int.neg_neg, Int.toNat_natCast] at hadvance
        exact hjump.1 hadvance ⟨hend, hback⟩
      · intro hcond
        have hbackward := hjump.2 fun hbad => hcond ⟨hbad.1, hneg, hbad.2⟩
        refine ⟨?_, ?_, ?_⟩
        · rw [steps, if_pos hneg, hm, Int.neg_neg, Int.toNat_natCast]
          exact h.prev_iterate hi
        · rw [advance, if_neg (by omega), if_pos hneg, hm, Int.neg_neg, Int.toNat_natCast]
          exact hbackward
        · rw [retreat, if_neg (by omega), if_neg (by omega), hm, Int.neg_neg, Int.toNat_natCast]
          exact hbackward
    · refine iff_of_true ⟨?_, ?_, ?_⟩ fun hbad => absurd hbad.2.1 (Int.lt_irrefl 0)
      · simp [steps]
      · simp [advance]
      · simp [retreat]
    · obtain ⟨k, rfl⟩ : ∃ k : Nat, n = k := ⟨n.natAbs, by omega⟩
      have hk : ((i : Int) + k).toNat = i + k := by omega
      have hforward := h.forward_iteratorAt (i := i) (n := k) (by omega) (by omega)
      refine iff_of_true ⟨?_, ?_, ?_⟩ fun hbad => absurd hbad.2.1 (by omega)
      · rw [steps, if_neg (by omega), hk, Int.toNat_natCast]
        exact iteratorAt_add b i k
      · rw [advance, if_neg (by omega), if_neg (by omega), hk, Int.toNat_natCast]
        exact hforward
      · rw [retreat, if_neg (by omega), if_pos (by omega), hk, Int.neg_neg, Int.toNat_natCast]
        exact hforward

theorem iterator_jumps_wrapped : JumpsLikeSteps wrappedFour 3 (-2) :=
  (iterator_jumps (.inr repr_wrappedFour) (by decide) (by decide) (by decide)).2 fun h => absurd h.1 (by decide)

/-- `end() - 1` is the last slot of the storage and not the last element. -/
theorem iterator_jumps_fails :
    ¬∀ (b : RingBuffer Nat) (l : List Nat) (i : Nat) (n : Int), Invariant b l → i ≤ b.size → 0 ≤ i + n →
      i + n ≤ b.size → JumpsLikeSteps b i n := by
  intro h
  have hadvance := (h wrappedFour _ 4 (-1) (.inr repr_wrappedFour) (by decide) (by decide) (by decide)).advance_eq
  exact absurd hadvance (by decide)

end Rad.RingBuffer
