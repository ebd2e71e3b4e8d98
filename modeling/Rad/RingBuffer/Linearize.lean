import Mathlib.Data.List.Induction
import Rad.Lib.Loop
import Rad.RingBuffer.Basic
import Rad.RingBuffer.Theorems

/-!
# `linearize` (include/rad/ring_buffer.h)

Its steps construct elements in free slots from elements that live, and destroy elements that live; a step that does
something else has no result. `movedFrom` is what a move leaves in an element.

The free slots are always between the second array and what is left of the first one, and there are as many as in the
beginning: each turn shifts the second array over them, and moves a slice of the first array into the slots that are free
then.
-/

namespace Rad.RingBuffer

open Lib

section

variable {α : Type*} (movedFrom : α → α)

/-- `construct(dest, std::move(*src))`. -/
def constructMoved (slots : List (Option α)) (dest src : Nat) : Option (List (Option α)) :=
  match slots[src]?, slots[dest]? with
  | some (some x), some none => some ((slots.set dest (some x)).set src (some (movedFrom x)))
  | _, _ => none

/-- `destroy(p)`. -/
def destroyAt (slots : List (Option α)) (p : Nat) : Option (List (Option α)) :=
  match slots[p]? with
  | some (some _) => some (slots.set p none)
  | _ => none

/-- `destroy(first, first + n)`. -/
def destroyEach (slots : List (Option α)) (first : Nat) : Nat → Option (List (Option α))
  | 0 => some slots
  | n + 1 => do
    let slots ← destroyAt slots first
    destroyEach slots (first + 1) n

/-- `std::uninitialized_move(first, first + n, dest)`. -/
def uninitializedMove (slots : List (Option α)) (first dest : Nat) : Nat → Option (Nat × List (Option α))
  | 0 => some (dest, slots)
  | n + 1 => do
    let slots ← constructMoved movedFrom slots dest first
    uninitializedMove slots (first + 1) (dest + 1) n

/-- `std::rotate(start_ptr, middle, end_ptr)`. -/
def rotate (slots : List (Option α)) (middle : Nat) : Option (List (Option α)) :=
  if slots.all Option.isSome then some (slots.drop middle ++ slots.take middle) else none

/-! ## `detail::uninitialized_move_overlap` -/

/-- The first loop, for `n` elements. -/
def moveForward (slots : List (Option α)) (first current : Nat) : Nat → Option (Nat × List (Option α))
  | 0 => some (current, slots)
  | n + 1 => do
    let slots ← constructMoved movedFrom slots current first
    let slots ← destroyAt slots first
    moveForward slots (first + 1) (current + 1) n

/-- The second loop, for `n` elements. -/
def moveBackward (slots : List (Option α)) (last dLast : Nat) : Nat → Option (List (Option α))
  | 0 => some slots
  | n + 1 => do
    let slots ← constructMoved movedFrom slots (dLast - 1) (last - 1)
    let slots ← destroyAt slots (last - 1)
    moveBackward slots (last - 1) (dLast - 1) n

def uninitializedMoveOverlap (slots : List (Option α)) (first last dFirst : Nat) : Option (Nat × List (Option α)) :=
  if first ≥ last ∨ dFirst = first then some (dFirst, slots)
  else if dFirst ≥ last ∨ dFirst < first then moveForward movedFrom slots first dFirst (last - first)
  else
    (moveBackward movedFrom slots last (dFirst + (last - first)) (last - first)).map fun slots =>
      (dFirst + (last - first), slots)

/-! ## `linearize` -/

/-- The slots and the variables of the loop. -/
structure Linearizing (α : Type*) where
  slots : List (Option α)
  array1 : Nat
  array1Size : Nat
  movingArray2 : Nat
  newArray1 : Nat

/-- The loop of `linearize`; `array2Size` is the size of `moving_array2`. -/
def linearizePass (reserveSize array2Size : Nat) (s : Linearizing α) : Pass (Linearizing α) (Option (List (Option α))) :=
  if s.array1Size = 0 then .done (some s.slots)
  else
    let shiftDistance := min reserveSize s.array1Size
    let moved := do
      let (_, slots) ← uninitializedMoveOverlap movedFrom s.slots s.movingArray2 (s.movingArray2 + array2Size)
        (s.movingArray2 + shiftDistance)
      let (newArray1, slots) ← uninitializedMove movedFrom slots s.array1 s.newArray1 shiftDistance
      let slots ← destroyEach slots s.array1 shiftDistance
      pure (newArray1, slots)
    match moved with
    | none => .done none
    | some (newArray1, slots) =>
      .next ⟨slots, s.array1 + shiftDistance, s.array1Size - shiftDistance, s.movingArray2 + shiftDistance, newArray1⟩

/-- What `linearize` returns and what it makes of the buffer. -/
def Linearize (b : RingBuffer α) (p : Option Nat) (b' : RingBuffer α) : Prop :=
  if b.empty then p = none ∧ b' = b
  else if b.isLinearized then p = some b.frontPtr ∧ b' = b
  else if b.reserve = 0 then
    ∃ slots, rotate b.slots b.frontPtr = some slots ∧ p = some 0 ∧ b' = { b with slots, frontPtr := 0, backPtr := 0 }
  else
    ∃ slots, Returns (linearizePass movedFrom b.reserve (b.getArray2 false).length)
        ⟨b.slots, b.frontPtr, (b.getArray1 false).length, 0, 0⟩ (some slots) ∧
      p = some 0 ∧ b' = { b with slots, frontPtr := 0, backPtr := b.size }

end

variable {α : Type*} (movedFrom : α → α) {pre mid post : List (Option α)} {x : α} {b : RingBuffer α} {l : List α}

/-! ## Single slots -/

omit movedFrom in
theorem getElem?_slot (pre post : List (Option α)) (slot : Option α) {p : Nat} (hp : p = pre.length) :
    (pre ++ slot :: post)[p]? = some slot := by
  rw [hp, List.getElem?_append_right (Nat.le_refl _), Nat.sub_self]
  rfl

omit movedFrom in
theorem set_slot (pre post : List (Option α)) (slot slot' : Option α) {p : Nat} (hp : p = pre.length) :
    (pre ++ slot :: post).set p slot' = pre ++ slot' :: post := by
  rw [hp, List.set_append_right _ _ (Nat.le_refl _), Nat.sub_self]
  rfl

omit movedFrom in
theorem destroyAt_slot (pre post : List (Option α)) (x : α) {p : Nat} (hp : p = pre.length) :
    destroyAt (pre ++ some x :: post) p = some (pre ++ none :: post) := by
  rw [destroyAt, getElem?_slot pre post _ hp, set_slot pre post _ _ hp]

omit movedFrom in
theorem append_slots (pre mid post : List (Option α)) (slot slot' : Option α) :
    pre ++ slot :: (mid ++ slot' :: post) = (pre ++ slot :: mid) ++ slot' :: post := by
  rw [List.append_assoc, List.cons_append]

/-- An element is moved into a free slot behind it. -/
theorem constructMoved_right (pre mid post : List (Option α)) (x : α) {dest src : Nat} (hsrc : src = pre.length)
    (hdest : dest = pre.length + 1 + mid.length) :
    constructMoved movedFrom (pre ++ some x :: (mid ++ none :: post)) dest src =
      some (pre ++ some (movedFrom x) :: (mid ++ some x :: post)) := by
  have hat : dest = (pre ++ some x :: mid).length := by
    rw [hdest, List.length_append, List.length_cons]
    omega
  rw [constructMoved, getElem?_slot pre _ _ hsrc, append_slots, getElem?_slot _ post _ hat]
  dsimp only
  rw [set_slot _ _ _ _ hat, ← append_slots, set_slot _ _ _ _ hsrc]

/-- An element is moved into a free slot in front of it. -/
theorem constructMoved_left (pre mid post : List (Option α)) (x : α) {dest src : Nat} (hdest : dest = pre.length)
    (hsrc : src = pre.length + 1 + mid.length) :
    constructMoved movedFrom (pre ++ none :: (mid ++ some x :: post)) dest src =
      some (pre ++ some x :: (mid ++ some (movedFrom x) :: post)) := by
  have hat (slot : Option α) : src = (pre ++ slot :: mid).length := by
    rw [hsrc, List.length_append, List.length_cons]
    omega
  rw [constructMoved, append_slots, getElem?_slot _ post _ (hat none), ← append_slots, getElem?_slot pre _ _ hdest]
  dsimp only
  rw [set_slot pre _ _ _ hdest, append_slots, set_slot _ post _ _ (hat _), ← append_slots]

/-! ## Ranges -/

omit movedFrom in
theorem destroyEach_slots (ys : List α) (pre post : List (Option α)) :
    destroyEach (pre ++ (ys.map some ++ post)) pre.length ys.length =
      some (pre ++ (List.replicate ys.length none ++ post)) := by
  induction ys generalizing pre with
  | nil => rfl
  | cons y ys ih =>
      have hdestroy := destroyAt_slot pre (ys.map some ++ post) y rfl
      have hrest := ih (pre ++ [none])
      rw [List.length_append, List.append_assoc, List.append_assoc] at hrest
      rw [List.length_cons, destroyEach, List.map_cons, List.cons_append, hdestroy]
      exact hrest

/-- The elements are constructed in the free slots in front of them, which are as many. -/
theorem uninitializedMove_slots (xs : List α) (pre mid post : List (Option α)) :
    uninitializedMove movedFrom (pre ++ (List.replicate xs.length none ++ (mid ++ (xs.map some ++ post))))
        (pre.length + xs.length + mid.length) pre.length xs.length =
      some (pre.length + xs.length, pre ++ (xs.map some ++ (mid ++ (xs.map (some ∘ movedFrom) ++ post)))) := by
  induction xs generalizing pre mid with
  | nil => rfl
  | cons x xs ih =>
      have hconstruct := constructMoved_left movedFrom pre (List.replicate xs.length none ++ mid) (xs.map some ++ post) x rfl
        rfl
      rw [List.length_append, List.length_replicate, List.append_assoc, List.append_assoc] at hconstruct
      have hrest := ih (pre ++ [some x]) (mid ++ [some (movedFrom x)])
      simp only [List.length_append, List.append_assoc, List.length_singleton, List.singleton_append] at hrest
      rw [List.length_cons, uninitializedMove, List.replicate_succ, List.map_cons, List.cons_append, List.cons_append,
        show pre.length + (xs.length + 1) + mid.length = pre.length + 1 + (xs.length + mid.length) by omega, hconstruct]
      simp only [Option.bind_eq_bind, Option.bind_some]
      rw [show pre.length + 1 + (xs.length + mid.length) + 1 = pre.length + 1 + xs.length + (mid.length + 1) by omega, hrest]
      simp [Nat.add_right_comm, Nat.add_assoc]

/-- A shift over free slots that are at least as many. -/
theorem moveForward_slots (xs : List α) (pre mid post : List (Option α)) :
    moveForward movedFrom (pre ++ (xs.map some ++ (mid ++ (List.replicate xs.length none ++ post)))) pre.length
        (pre.length + xs.length + mid.length) xs.length =
      some (pre.length + xs.length + mid.length + xs.length,
        pre ++ (List.replicate xs.length none ++ (mid ++ (xs.map some ++ post)))) := by
  induction xs generalizing pre mid with
  | nil => rfl
  | cons x xs ih =>
      have hconstruct := constructMoved_right movedFrom pre (xs.map some ++ mid) (List.replicate xs.length none ++ post) x rfl
        rfl
      have hdestroy := destroyAt_slot pre (xs.map some ++ (mid ++ some x :: (List.replicate xs.length none ++ post)))
        (movedFrom x) rfl
      rw [List.length_append, List.length_map, List.append_assoc, List.append_assoc] at hconstruct
      have hrest := ih (pre ++ [none]) (mid ++ [some x])
      simp only [List.length_append, List.append_assoc, List.length_singleton, List.singleton_append] at hrest
      rw [List.length_cons, moveForward, List.replicate_succ, List.map_cons, List.cons_append, List.cons_append,
        show pre.length + (xs.length + 1) + mid.length = pre.length + 1 + (xs.length + mid.length) by omega, hconstruct]
      simp only [Option.bind_eq_bind, Option.bind_some, hdestroy]
      rw [show pre.length + 1 + (xs.length + mid.length) + 1 = pre.length + 1 + xs.length + (mid.length + 1) by omega, hrest]
      simp [Nat.add_right_comm, Nat.add_assoc]
      omega

/-- A shift over fewer free slots, from the last element on. -/
theorem moveBackward_slots (xs : List α) {n : Nat} (hn : 0 < n) (pre post : List (Option α)) :
    moveBackward movedFrom (pre ++ (xs.map some ++ (List.replicate n none ++ post))) (pre.length + xs.length)
        (pre.length + xs.length + n) xs.length =
      some (pre ++ (List.replicate n none ++ (xs.map some ++ post))) := by
  induction xs using List.reverseRecOn generalizing post with
  | nil => rfl
  | append_singleton xs x ih =>
      obtain ⟨k, rfl⟩ := Nat.exists_eq_add_of_lt hn
      rw [Nat.zero_add] at ih ⊢
      have hat : (pre ++ xs.map some).length = pre.length + xs.length := by rw [List.length_append, List.length_map]
      have hdest : pre.length + xs.length + (k + 1) =
          (pre ++ xs.map some).length + 1 + (List.replicate k (none : Option α)).length := by
        rw [hat, List.length_replicate]
        omega
      have hconstruct := constructMoved_right movedFrom _ (List.replicate k none) post x hat.symm hdest
      have hdestroy := destroyAt_slot _ (List.replicate k none ++ some x :: post) (movedFrom x) hat.symm
      rw [List.append_assoc] at hconstruct hdestroy
      have hslots : pre ++ ((xs ++ [x]).map some ++ (List.replicate (k + 1) none ++ post)) =
          pre ++ (xs.map some ++ some x :: (List.replicate k none ++ none :: post)) := by
        rw [List.map_append, List.append_assoc, List.replicate_succ', List.append_assoc]
        rfl
      rw [List.length_append, List.length_singleton, moveBackward, hslots,
        show pre.length + (xs.length + 1) + (k + 1) - 1 = pre.length + xs.length + (k + 1) by omega,
        show pre.length + (xs.length + 1) - 1 = pre.length + xs.length by omega, hconstruct]
      simp only [Option.bind_eq_bind, Option.bind_some, List.append_assoc, hdestroy]
      rw [show (none : Option α) :: (List.replicate k none ++ some x :: post) = List.replicate (k + 1) none ++ some x :: post
        from rfl, ih (some x :: post), List.map_append, List.append_assoc]
      rfl

/-- The second array is shifted over free slots, however many they are. -/
theorem uninitializedMoveOverlap_slots {xs : List α} (hne : xs ≠ []) {n : Nat} (hn : 0 < n) (pre post : List (Option α)) :
    uninitializedMoveOverlap movedFrom (pre ++ (xs.map some ++ (List.replicate n none ++ post))) pre.length
        (pre.length + xs.length) (pre.length + n) =
      some (pre.length + n + xs.length, pre ++ (List.replicate n none ++ (xs.map some ++ post))) := by
  have hpos := List.length_pos_of_ne_nil hne
  rw [uninitializedMoveOverlap, if_neg (by omega), Nat.add_sub_cancel_left]
  split
  · rename_i hfar
    -- the slots that are free between the array and its new place
    obtain ⟨k, rfl⟩ : ∃ k, n = xs.length + k := ⟨n - xs.length, by omega⟩
    have hmove := moveForward_slots movedFrom xs pre (List.replicate k none) post
    have hfree : List.replicate (xs.length + k) (none : Option α) = List.replicate k none ++ List.replicate xs.length none := by
      rw [Nat.add_comm, List.replicate_add]
    rw [List.length_replicate] at hmove
    rw [hfree, List.append_assoc, ← Nat.add_assoc, hmove]
    rw [← List.append_assoc (List.replicate xs.length none), List.replicate_append_replicate, List.replicate_append_replicate,
      Nat.add_comm k]
  · rw [Nat.add_right_comm, moveBackward_slots movedFrom xs hn pre post]
    rfl

/-! ## The loop -/

/-- The slots in a turn: what is in place, the second array, the free slots, and what is left of the first array. -/
structure Shifting (l1 l2 : List α) (reserveSize : Nat) (s : Linearizing α) (done rest : List α) : Prop where
  split : done ++ rest = l1
  slots : s.slots = done.map some ++ (l2.map some ++ (List.replicate reserveSize none ++ rest.map some))
  array1 : s.array1 = done.length + l2.length + reserveSize
  array1Size : s.array1Size = rest.length
  movingArray2 : s.movingArray2 = done.length
  newArray1 : s.newArray1 = done.length

variable {l1 l2 done rest : List α} {reserveSize : Nat} {s : Linearizing α}

theorem Shifting.next (h : Shifting l1 l2 reserveSize s done rest) (hl2 : l2 ≠ []) (hreserve : 0 < reserveSize)
    (hrest : rest ≠ []) :
    ∃ s', linearizePass movedFrom reserveSize l2.length s = .next s' ∧
      Shifting l1 l2 reserveSize s' (done ++ rest.take reserveSize) (rest.drop reserveSize) := by
  have hpos := List.length_pos_of_ne_nil hrest
  obtain ⟨n, hn⟩ : ∃ n, n = min reserveSize rest.length := ⟨_, rfl⟩
  obtain ⟨k, hk⟩ : ∃ k, reserveSize = n + k := ⟨reserveSize - n, by omega⟩
  have htake : (rest.take reserveSize).length = n := by rw [List.length_take, hn]
  have hdone : (done.map (some : α → Option α)).length = done.length := List.length_map _
  -- the shift of the second array
  have hshift := uninitializedMoveOverlap_slots movedFrom hl2 (by omega : 0 < n) (done.map some)
    (List.replicate k none ++ rest.map some)
  have hslots : s.slots =
      done.map some ++ (l2.map some ++ (List.replicate n none ++ (List.replicate k none ++ rest.map some))) := by
    rw [h.slots, hk, List.replicate_add, List.append_assoc]
  have hone : uninitializedMoveOverlap movedFrom s.slots s.movingArray2 (s.movingArray2 + l2.length) (s.movingArray2 + n) =
      some (done.length + n + l2.length, done.map some ++ (List.replicate (rest.take reserveSize).length none ++
        ((l2.map some ++ List.replicate k none) ++
          ((rest.take reserveSize).map some ++ (rest.drop reserveSize).map some)))) := by
    rw [hslots, h.movingArray2, ← hdone, hshift, htake, ← List.map_append, List.take_append_drop, List.append_assoc]
  -- the slice of the first array
  have htwo := uninitializedMove_slots movedFrom (rest.take reserveSize) (done.map some)
    (l2.map some ++ List.replicate k none) ((rest.drop reserveSize).map some)
  have hsource : (done.map (some : α → Option α)).length + (rest.take reserveSize).length +
      (l2.map some ++ List.replicate k (none : Option α)).length = s.array1 := by
    rw [List.length_append, List.length_map, List.length_map, List.length_replicate, htake, h.array1]
    omega
  rw [hsource, hdone, ← h.newArray1, htake] at htwo
  have hthree := destroyEach_slots ((rest.take reserveSize).map movedFrom)
    (done.map some ++ ((rest.take reserveSize).map some ++ (l2.map some ++ List.replicate k none)))
    ((rest.drop reserveSize).map some)
  have hat : (done.map some ++ ((rest.take reserveSize).map some ++ (l2.map some ++
      List.replicate k (none : Option α)))).length = s.array1 := by
    rw [← hsource, List.length_append, List.length_append, List.length_map, List.length_map, Nat.add_assoc]
  rw [hat, List.length_map, List.map_map, htake] at hthree
  rw [htake] at hone
  simp only [List.append_assoc] at hone htwo hthree
  have hfree (post : List (Option α)) :
      List.replicate k none ++ (List.replicate n none ++ post) = List.replicate reserveSize none ++ post := by
    rw [hk, Nat.add_comm, List.replicate_add, List.append_assoc]
  rw [hfree] at hthree
  refine ⟨⟨done.map some ++ ((rest.take reserveSize).map some ++ (l2.map some ++ (List.replicate reserveSize none ++
    (rest.drop reserveSize).map some))), s.array1 + n, s.array1Size - n, s.movingArray2 + n, s.newArray1 + n⟩, ?_, ?_⟩
  · rw [linearizePass, if_neg (by rw [h.array1Size]; omega)]
    simp only [h.array1Size, ← hn, hone, htwo, hthree, Option.bind_eq_bind, Option.bind_some, Option.pure_def]
  · constructor
    case split => rw [List.append_assoc, List.take_append_drop, h.split]
    case slots => rw [List.map_append, List.append_assoc]
    case array1 =>
      rw [List.length_append, htake]
      dsimp only
      rw [h.array1]
      omega
    case array1Size =>
      rw [List.length_drop]
      dsimp only
      rw [h.array1Size]
      omega
    case movingArray2 => rw [h.movingArray2, List.length_append, htake]
    case newArray1 => rw [h.newArray1, List.length_append, htake]

/-- The loop ends with the first array in front of the second one. -/
theorem Shifting.returns (h : Shifting l1 l2 reserveSize s done rest) (hl2 : l2 ≠ []) (hreserve : 0 < reserveSize) :
    Returns (linearizePass movedFrom reserveSize l2.length) s
      (some ((l1 ++ l2).map some ++ List.replicate reserveSize none)) := by
  -- on what is left of the first array
  induction hlength : rest.length using Nat.strongRecOn generalizing s done rest with
  | ind n ih =>
      by_cases hrest : rest = []
      · subst hrest
        refine .done ?_
        have hsize : s.array1Size = 0 := h.array1Size
        rw [linearizePass, if_pos hsize, h.slots, ← h.split]
        simp only [List.map_nil, List.append_nil, List.map_append, List.append_assoc]
      · have hpos := List.length_pos_of_ne_nil hrest
        obtain ⟨s', hnext, hs'⟩ := h.next movedFrom hl2 hreserve hrest
        exact .next hnext (ih _ (by rw [List.length_drop]; omega) hs' rfl)

/-! ## The buffer -/

omit movedFrom in
theorem rotate_slots (l1 l2 : List α) {middle : Nat} (hmiddle : middle = l2.length) :
    rotate (l2.map some ++ l1.map some) middle = some ((l1 ++ l2).map some) := by
  have hall : (l2.map some ++ l1.map some).all Option.isSome = true := by
    rw [← List.map_append, List.all_map]
    exact List.all_eq_true.2 fun _ _ => rfl
  have hat : middle = (l2.map (some : α → Option α)).length := by rw [hmiddle, List.length_map]
  rw [rotate, if_pos hall, hat, List.drop_left, List.take_left, ← List.map_append]

/-- A buffer whose elements begin at the first slot. -/
theorem Repr.of_start {n : Nat} (hn : 0 < l.length + n) (hback : b.backPtr = endToStart (l.length + n) l.length)
    (hfront : b.frontPtr = 0) (hcount : b.count = l.length) (hslots : b.slots = l.map some ++ List.replicate n none) :
    Repr b l := by
  have hcap : b.capacity = l.length + n := by
    rw [capacity, hslots, List.length_append, List.length_map, List.length_replicate]
  constructor
  case toHolds =>
    constructor
    case front_lt => rw [hfront, hcap]; exact hn
    case back_eq =>
      rw [hback, hfront, hcap, endToStart, wrap]
      split <;> split <;> omega
    case count_eq => exact hcount
    case length_le => rw [hcap]; exact Nat.le_add_right _ _
    case slot =>
      intro i hi
      rw [wrap, hfront, Nat.zero_add, if_pos hi, hslots]
      rw [hcap] at hi
      by_cases hlt : i < l.length
      · rw [List.getElem?_append_left (by rw [List.length_map]; exact hlt), List.getElem?_map, List.getElem?_eq_getElem hlt]
        rfl
      · rw [List.getElem?_append_right (by rw [List.length_map]; omega), List.getElem?_replicate, List.length_map,
          if_pos (by omega), List.getElem?_eq_none (by omega)]
  case empty_start => exact fun _ => hfront

/-- The slots of a buffer with two arrays. -/
theorem Repr.slots_eq (h : Repr b l) (hlinear : b.isLinearized = false) :
    b.slots = (l.drop (b.capacity - b.frontPtr)).map some ++ (List.replicate b.reserve none ++
      (l.take (b.capacity - b.frontPtr)).map some) := by
  have hf := h.front_lt
  have hle := h.length_le
  have hlong : ¬b.frontPtr + l.length ≤ b.capacity := fun hle => by
    rw [← h.isLinearized_iff, hlinear] at hle
    cases hle
  have hback : b.backPtr = b.frontPtr + l.length - b.capacity := by rw [h.back_eq, wrap, if_neg (by omega)]
  have hfirst := h.getArray1_eq
  have hsecond := h.getArray2_eq
  rw [hlinear] at hfirst hsecond
  rw [← hfirst, ← hsecond]
  -- the slots between the two arrays
  have hfree : (b.slots.take b.frontPtr).drop b.backPtr = List.replicate b.reserve none := by
    rw [List.eq_replicate_iff]
    refine ⟨?_, fun slot hslot => ?_⟩
    · have hcap : b.slots.length = b.capacity := rfl
      have hcount : b.size = l.length := h.count_eq
      rw [List.length_drop, List.length_take, reserve]
      omega
    · obtain ⟨i, hi⟩ := List.mem_iff_getElem?.1 hslot
      rw [List.getElem?_drop, List.getElem?_take] at hi
      split at hi
      · rename_i hlt
        have hdead := h.slot_dead (j := b.backPtr + i) (by omega) fun k hk => by unfold wrap; split <;> omega
        rw [hdead] at hi
        exact (Option.some.inj hi).symm
      · cases hi
  have htake : b.slots.take b.backPtr = (b.slots.take b.frontPtr).take b.backPtr := by
    rw [List.take_take, Nat.min_eq_left (by omega)]
  rw [getArray1, getArray2, if_neg Bool.false_ne_true, if_neg Bool.false_ne_true, ← hfree, htake, ← List.append_assoc,
    List.take_append_drop, List.take_append_drop]

/-- `linearize` returns, each of its steps is one that the slots allow, and the elements are in one array then. -/
theorem linearize_preserves (h : Invariant b l) : ∃ p b', Linearize movedFrom b p b' ∧ Invariant b' l ∧
    b'.capacity = b.capacity ∧ p = b'.begin ∧ b'.arrayOne = l.map some ∧ b'.arrayTwo = [] := by
  have hbegin {b' : RingBuffer α} {p : Nat} (hp : b'.frontPtr = p) (hempty : ¬b'.empty = true) : some p = b'.begin := by
    rw [begin, if_neg hempty, hp]
  have hsame {b' : RingBuffer α} (hrepr : Repr b' l) (hlinear : b'.isLinearized = true) :
      b'.arrayOne = l.map some ∧ b'.arrayTwo = [] := by
    have htwo : b'.arrayTwo = [] := by rw [arrayTwo, getArray2, if_pos hlinear]
    have harrays := hrepr.arrays_eq
    rw [htwo, List.append_nil] at harrays
    exact ⟨harrays, htwo⟩
  rcases h with ⟨rfl, rfl⟩ | h
  · exact ⟨none, null, ⟨rfl, rfl⟩, .inl ⟨rfl, rfl⟩, rfl, rfl, rfl, rfl⟩
  by_cases hempty : b.empty = true
  · refine ⟨none, b, ?_, .inr h, rfl, by rw [begin, if_pos hempty], hsame h (h.isLinearized_iff.2 ?_)⟩
    · rw [Linearize, if_pos hempty]
      exact ⟨rfl, rfl⟩
    · rw [h.empty_iff.1 hempty]
      exact h.front_lt.le
  by_cases hlinear : b.isLinearized = true
  · refine ⟨some b.frontPtr, b, ?_, .inr h, rfl, hbegin rfl hempty, hsame h hlinear⟩
    rw [Linearize, if_neg hempty, if_pos hlinear]
    exact ⟨rfl, rfl⟩
  have hslots := h.slots_eq (Bool.eq_false_iff.2 hlinear)
  have hlong := mt h.isLinearized_iff.2 hlinear
  have hf := h.front_lt
  have hle := h.length_le
  have hcount : b.size = l.length := h.count_eq
  have hreserve : b.reserve = b.capacity - l.length := by rw [reserve, hcount]
  by_cases hfull : b.reserve = 0
  · -- the arrays change places
    rw [hfull, List.replicate_zero, List.nil_append] at hslots
    have hfront : b.frontPtr = (l.drop (b.capacity - b.frontPtr)).length := by
      rw [List.length_drop]
      omega
    have hrotate := rotate_slots (l.take (b.capacity - b.frontPtr)) _ hfront
    rw [← hslots, List.take_append_drop] at hrotate
    have hrepr : Repr { b with slots := l.map some, frontPtr := 0, backPtr := 0 } l :=
      .of_start (n := 0) (by omega) (by rw [endToStart, if_pos (Nat.add_zero _).symm]) rfl h.count_eq (by simp)
    refine ⟨some 0, _, ?_, .inr hrepr, ?_, hbegin rfl hempty, hsame hrepr (by simp [isLinearized])⟩
    · rw [Linearize, if_neg hempty, if_neg hlinear, if_pos hfull]
      exact ⟨_, hrotate, rfl, rfl⟩
    · rw [capacity, List.length_map]
      omega
  · have hfirst := h.getArray1_eq
    have hsecond := h.getArray2_eq
    rw [Bool.eq_false_iff.2 hlinear] at hfirst hsecond
    have hshifting : Shifting (l.take (b.capacity - b.frontPtr)) (l.drop (b.capacity - b.frontPtr)) b.reserve
        ⟨b.slots, b.frontPtr, (b.getArray1 false).length, 0, 0⟩ [] (l.take (b.capacity - b.frontPtr)) := by
      constructor
      case split => exact List.nil_append _
      case slots => exact hslots
      case array1 =>
        rw [List.length_drop, List.length_nil]
        dsimp only
        omega
      case array1Size => rw [hfirst, List.length_map]
      case movingArray2 => rfl
      case newArray1 => rfl
    have hne : l.drop (b.capacity - b.frontPtr) ≠ [] := List.length_pos_iff.1 (by rw [List.length_drop]; omega)
    have hreturns := hshifting.returns movedFrom hne (Nat.pos_of_ne_zero hfull)
    rw [List.take_append_drop] at hreturns
    have hrepr : Repr { b with slots := l.map some ++ List.replicate b.reserve none, frontPtr := 0, backPtr := b.size } l :=
      .of_start (n := b.reserve) (by omega) (by rw [endToStart, if_neg (by omega), hcount]) rfl h.count_eq rfl
    refine ⟨some 0, _, ?_, .inr hrepr, ?_, hbegin rfl hempty, hsame hrepr ?_⟩
    · rw [Linearize, if_neg hempty, if_neg hlinear, if_neg hfull, hsecond, List.length_map]
      exact ⟨_, hreturns, rfl, rfl⟩
    · rw [capacity, List.length_append, List.length_map, List.length_replicate]
      omega
    · rw [hrepr.isLinearized_iff]
      exact (Nat.zero_add l.length).le.trans hrepr.length_le

theorem linearize_preserves_wrapped :
    ∃ p b', Linearize (fun _ => 0) ⟨[some 4, none, some 1, some 2, some 3], 2, 1, 4⟩ p b' ∧ Invariant b' [1, 2, 3, 4] ∧
      b'.capacity = 5 ∧ p = b'.begin ∧ b'.arrayOne = [1, 2, 3, 4].map some ∧ b'.arrayTwo = [] :=
  linearize_preserves _ (.inr ⟨⟨by decide, by decide, rfl, by decide, by decide⟩, by decide⟩)

end Rad.RingBuffer
