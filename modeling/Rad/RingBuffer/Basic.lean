import Mathlib.Logic.Function.Iterate
import Rad.Lib.Cyclic

/-!
# `ring_buffer` (include/rad/ring_buffer.h)

The storage `[start_ptr_, end_ptr_)` is a list of slots; a slot is `none` when no element lives in it, so that
`construct` and `destroy` are visible. Pointers are offsets from `start_ptr_`. A buffer without storage has no slots
and all its null pointers are `0`.
-/

namespace Rad

open Lib

structure RingBuffer (α : Type*) where
  slots : List (Option α)
  frontPtr : Nat
  backPtr : Nat
  count : Nat
  deriving DecidableEq

namespace RingBuffer

variable {α : Type*}

/-- `ring_buffer() = default`: no storage at all. -/
def null : RingBuffer α := ⟨[], 0, 0, 0⟩

/-- `ring_buffer(size_type capacity_size)`. -/
def ofCapacity (capacitySize : Nat) : RingBuffer α := ⟨List.replicate capacitySize none, 0, 0, 0⟩

/-- `ring_buffer(size_type capacity_size, const allocator_type& alloc)`. -/
def ofCapacityAlloc (capacitySize : Nat) : RingBuffer α := ⟨List.replicate capacitySize none, 0, 0, 0⟩

/-- `ring_buffer(size_type capacity_size_and_count, const value_type& value)`. -/
def ofCount (capacitySizeAndCount : Nat) (value : α) : RingBuffer α :=
  ⟨List.replicate capacitySizeAndCount (some value), 0, 0, capacitySizeAndCount⟩

/-- `ring_buffer(size_type capacity_size_and_count, const value_type& value, const allocator_type& alloc)`: the back is
at `end_ptr_`. -/
def ofCountAlloc (capacitySizeAndCount : Nat) (value : α) : RingBuffer α :=
  ⟨List.replicate capacitySizeAndCount (some value), 0, capacitySizeAndCount, capacitySizeAndCount⟩

/-! ## Information -/

def size (b : RingBuffer α) : Nat := b.count

def capacity (b : RingBuffer α) : Nat := b.slots.length

def reserve (b : RingBuffer α) : Nat := b.capacity - b.size

def empty (b : RingBuffer α) : Bool := b.size == 0

def full (b : RingBuffer α) : Bool := b.size == b.capacity

def isLinearized (b : RingBuffer α) : Bool := b.backPtr > b.frontPtr || b.backPtr == 0

/-! ## Pointers and slots -/

def increment (b : RingBuffer α) (p : Nat) : Nat := if p + 1 = b.capacity then 0 else p + 1

def decrement (b : RingBuffer α) (p : Nat) : Nat := if p = 0 then b.capacity - 1 else p - 1

/-- `*p`; `none` when no element lives there. -/
def deref (b : RingBuffer α) (p : Nat) : Option α := (b.slots[p]?).join

/-- `destroy(first, last)` on the `n` slots from `first` on. -/
def destroySlots (slots : List (Option α)) (first n : Nat) : List (Option α) :=
  overwrite slots first (List.replicate n none)

/-- A pointer that has run into `end_ptr_` is set back to `start_ptr_`. -/
def endToStart (cap p : Nat) : Nat := if p = cap then 0 else p

/-- `if (count_ == 0) front_ptr_ = back_ptr_ = start_ptr()`. -/
def resetIfEmpty (b : RingBuffer α) : RingBuffer α :=
  if b.count = 0 then { b with frontPtr := 0, backPtr := 0 } else b

def indexToPointer (b : RingBuffer α) (i : Nat) : Nat :=
  if b.isLinearized then b.frontPtr + i
  else
    let array1Size := b.capacity - b.frontPtr
    if i < array1Size then b.frontPtr + i else i - array1Size

/-- A null iterator is the end of the range. -/
def pointerToIndex (b : RingBuffer α) : Option Nat → Nat
  | none => b.size
  | some p => if p ≥ b.frontPtr then p - b.frontPtr else p + (b.capacity - b.frontPtr)

/-- `ring_buffer(size_type capacity_size, size_type buffer_size, const value_type& value)`, which throws for a size above
the capacity; with an allocator it does the same. -/
def ofSize (capacitySize bufferSize : Nat) (value : α) : Option (RingBuffer α) :=
  if bufferSize > capacitySize then none
  else
    some ⟨overwrite (List.replicate capacitySize none) 0 (List.replicate bufferSize (some value)), 0,
      endToStart capacitySize bufferSize, bufferSize⟩

/-- `ring_buffer(InputIterator first, InputIterator last)`; with an allocator it does the same. -/
def ofRange (xs : List (Option α)) : RingBuffer α :=
  let b : RingBuffer α := ofCapacity xs.length
  { b with slots := overwrite b.slots b.frontPtr xs, count := b.capacity }

/-! ## Reading: `operator[]`, the two arrays, iteration -/

def get (b : RingBuffer α) (i : Nat) : Option α := b.deref (b.indexToPointer i)

def getArray1 (b : RingBuffer α) (linearized : Bool) : List (Option α) :=
  if linearized then (b.slots.drop b.frontPtr).take b.size else b.slots.drop b.frontPtr

def getArray2 (b : RingBuffer α) (linearized : Bool) : List (Option α) :=
  if linearized then [] else b.slots.take b.backPtr

def arrayOne (b : RingBuffer α) : List (Option α) := b.getArray1 b.isLinearized

def arrayTwo (b : RingBuffer α) : List (Option α) := b.getArray2 b.isLinearized

def begin (b : RingBuffer α) : Option Nat := if b.empty then none else some b.frontPtr

/-- `operator++` of an iterator. -/
def next (b : RingBuffer α) (p : Nat) : Option Nat :=
  let q := b.increment p
  if q = b.backPtr then none else some q

/-- `operator--` of an iterator, also of the end. -/
def prev (b : RingBuffer α) (it : Option Nat) : Option Nat := some (b.decrement (it.getD b.backPtr))

def incrementBy (b : RingBuffer α) (p n : Nat) : Nat := if p + n ≥ b.capacity then p + n - b.capacity else p + n

def decrementBy (b : RingBuffer α) (it : Option Nat) (n : Nat) : Nat :=
  match it with
  | none => b.capacity - n
  | some p => if p < n then p + b.capacity - n else p - n

/-- `operator+=` for a positive number. There are no steps forward from the end. -/
def forward (b : RingBuffer α) (it : Option Nat) (n : Nat) : Option Nat :=
  it.bind fun p =>
    let q := b.incrementBy p n
    if q = b.backPtr then none else some q

/-- `operator-=` for a positive number. -/
def backward (b : RingBuffer α) (it : Option Nat) (n : Nat) : Option Nat := some (b.decrementBy it n)

/-- `operator+=` of an iterator. -/
def advance (b : RingBuffer α) (it : Option Nat) (n : Int) : Option Nat :=
  if n = 0 then it else if n < 0 then b.backward it (-n).toNat else b.forward it n.toNat

/-- `operator-=` of an iterator. -/
def retreat (b : RingBuffer α) (it : Option Nat) (n : Int) : Option Nat :=
  if n = 0 then it else if n < 0 then b.forward it (-n).toNat else b.backward it n.toNat

/-- `operator-` of two iterators. -/
def difference (b : RingBuffer α) (it it' : Option Nat) : Int := b.pointerToIndex it - b.pointerToIndex it'

/-- The pointer of an iterator as a number: the null pointer is below all the others. -/
def address (it : Option Nat) : Nat := it.elim 0 (· + 1)

/-- `operator<` of two iterators. -/
def iterLt (it it' : Option Nat) : Bool := address it < address it'

/-- `operator<=` of two iterators. -/
def iterLe (it it' : Option Nat) : Bool := address it ≤ address it'

/-- `operator>` of two iterators. -/
def iterGt (it it' : Option Nat) : Bool := address it > address it'

/-- `operator>=` of two iterators. -/
def iterGe (it it' : Option Nat) : Bool := address it ≥ address it'

/-- `for (it = first; it != end(); ++it)` reading `*it`; `none` if the end is not met in `fuel` steps. -/
def iterate (b : RingBuffer α) : Nat → Option Nat → Option (List (Option α))
  | _, none => some []
  | 0, some _ => none
  | fuel + 1, some p => (iterate b fuel (b.next p)).map (b.deref p :: ·)

/-- The slots from `begin()` to `end()`, as a range to copy from. -/
def range (b : RingBuffer α) : List (Option α) := (b.iterate b.size b.begin).getD []

def findInSlots (pred : α → Bool) (slots : List (Option α)) : Option Nat :=
  slots.findIdx? fun s => s.any pred

/-- `find_if`: a pointer into the first array, then into the second. -/
def findIf (b : RingBuffer α) (pred : α → Bool) : Option Nat :=
  let linearized := b.isLinearized
  match findInSlots pred (b.getArray1 linearized) with
  | some i => some (b.frontPtr + i)
  | none => if linearized then none else findInSlots pred (b.getArray2 linearized)

/-! ## Appending -/

def uncheckedEmplaceBack (b : RingBuffer α) (x : α) : RingBuffer α :=
  { b with slots := b.slots.set b.backPtr (some x), backPtr := b.increment b.backPtr, count := b.count + 1 }

/-! ## Removing -/

def popFront (b : RingBuffer α) : RingBuffer α :=
  resetIfEmpty { b with
    slots := b.slots.set b.frontPtr none, frontPtr := b.increment b.frontPtr, count := b.count - 1 }

/-- `pop_front(value_type& value)`. -/
def popFrontValue (b : RingBuffer α) : Option α × RingBuffer α := (b.deref b.frontPtr, b.popFront)

/-- `pop_front(dest_first, num)`: what is copied to the destination, and the rest. -/
def popFrontRange (b : RingBuffer α) (num : Nat) : List (Option α) × RingBuffer α :=
  let num := min num b.size
  if num = 0 then ([], b)
  else if b.isLinearized then
    ((b.slots.drop b.frontPtr).take num,
      resetIfEmpty { b with
        slots := destroySlots b.slots b.frontPtr num
        frontPtr := endToStart b.capacity (b.frontPtr + num)
        count := b.count - num })
  else
    let array1 := b.getArray1 false
    let num1 := min num array1.length
    let slots1 := destroySlots b.slots b.frontPtr num1
    let front1 := endToStart b.capacity (b.frontPtr + num1)
    let rem := num - num1
    if rem > 0 then
      (array1.take num1 ++ (slots1.take b.backPtr).take rem,
        resetIfEmpty { b with
          slots := destroySlots slots1 0 rem, frontPtr := front1 + rem, count := b.count - num })
    else
      (array1.take num1, resetIfEmpty { b with slots := slots1, frontPtr := front1, count := b.count - num })

def popBack (b : RingBuffer α) : RingBuffer α :=
  let back := b.decrement b.backPtr
  resetIfEmpty { b with slots := b.slots.set back none, backPtr := back, count := b.count - 1 }

/-- `pop_back(value_type& value)`. -/
def popBackValue (b : RingBuffer α) : Option α × RingBuffer α :=
  (b.deref (b.decrement b.backPtr), b.popBack)

/-- `pop_back(dest_first, num)`: what is copied to the destination, and the rest. -/
def popBackRange (b : RingBuffer α) (num : Nat) : List (Option α) × RingBuffer α :=
  let num := min num b.size
  if num = 0 then ([], b)
  else if b.isLinearized then
    let endCopy := if b.backPtr = 0 then b.capacity else b.backPtr
    let back := endCopy - num
    ((b.slots.drop back).take num,
      resetIfEmpty { b with
        slots := destroySlots b.slots back num, backPtr := back, count := b.count - num })
  else
    let array2 := b.getArray2 false
    let num1 := min num array2.length
    let rem := num - num1
    let startCopy := array2.length - num1
    let slots2 := destroySlots b.slots startCopy num1
    if rem > 0 then
      let array1 := b.getArray1 false
      (array1.drop (array1.length - rem) ++ array2.drop startCopy,
        resetIfEmpty { b with
          slots := destroySlots slots2 (b.capacity - rem) rem, backPtr := startCopy, count := b.count - num })
    else (array2.drop startCopy, resetIfEmpty { b with slots := slots2, backPtr := startCopy, count := b.count - num })

/-- `destroy_all`: the elements of both arrays. -/
def destroyAll (b : RingBuffer α) : List (Option α) :=
  if b.empty then b.slots
  else if b.isLinearized then destroySlots b.slots b.frontPtr b.size
  else destroySlots (destroySlots b.slots b.frontPtr (b.capacity - b.frontPtr)) 0 b.backPtr

def clear (b : RingBuffer α) : RingBuffer α :=
  if b.capacity = 0 then b else ⟨b.destroyAll, 0, 0, 0⟩

def emplaceBack (b : RingBuffer α) (x : α) : RingBuffer α :=
  (if b.full then b.popFront else b).uncheckedEmplaceBack x

def tryEmplaceBack (b : RingBuffer α) (x : α) : Bool × RingBuffer α :=
  if b.full then (false, b) else (true, b.uncheckedEmplaceBack x)

def pushBack (b : RingBuffer α) (x : α) : RingBuffer α := b.emplaceBack x

def tryPushBack (b : RingBuffer α) (x : α) : Bool × RingBuffer α := b.tryEmplaceBack x

/-! ## Appending a range -/

/-- `insert_back` when the free slots hold the whole range. -/
def insertBackFits (b : RingBuffer α) (xs : List (Option α)) : RingBuffer α :=
  if b.frontPtr = 0 then
    { b with
      slots := overwrite b.slots b.backPtr xs
      backPtr := endToStart b.capacity (b.backPtr + xs.length)
      count := b.count + xs.length }
  else if b.backPtr = 0 || !b.isLinearized then
    { b with
      slots := overwrite b.slots b.backPtr xs
      backPtr := b.backPtr + xs.length
      count := b.count + xs.length }
  else
    let n1 := min xs.length (b.capacity - b.backPtr)
    let slots1 := overwrite b.slots b.backPtr (xs.take n1)
    if n1 ≠ xs.length then
      { b with
        slots := overwrite slots1 0 (xs.drop n1), backPtr := xs.length - n1, count := b.count + xs.length }
    else
      { b with
        slots := slots1, backPtr := endToStart b.capacity (b.backPtr + n1), count := b.count + xs.length }

/-- `insert_back` when the range is shorter than the capacity but the free slots do not hold it. -/
def insertBackOverwrites (b : RingBuffer α) (xs : List (Option α)) : RingBuffer α :=
  let available := b.reserve
  let cap := b.capacity
  if b.frontPtr = 0 then
    let slots1 := destroySlots b.slots b.frontPtr (xs.length - available)
    let slots2 := overwrite slots1 b.backPtr (xs.take available)
    let back := xs.length - available
    ⟨overwrite slots2 0 (xs.drop available), back, back, cap⟩
  else if b.backPtr = 0 then
    let slots1 := destroySlots b.slots b.frontPtr (xs.length - available)
    let back := b.backPtr + xs.length
    ⟨overwrite slots1 b.backPtr xs, back, back, cap⟩
  else if !b.isLinearized then
    let rangeSize := xs.length - available
    let toCopy := min rangeSize (cap - b.frontPtr)
    let slots1 := destroySlots b.slots b.frontPtr toCopy
    let slots2 := overwrite slots1 b.backPtr (xs.take (available + toCopy))
    if rangeSize - toCopy > 0 then
      let slots3 := destroySlots slots2 0 (rangeSize - toCopy)
      let back := xs.length - (available + toCopy)
      ⟨overwrite slots3 0 (xs.drop (available + toCopy)), back, back, cap⟩
    else
      let back := endToStart cap (b.backPtr + (available + toCopy))
      ⟨slots2, back, back, cap⟩
  else
    let slots1 := destroySlots b.slots b.frontPtr (xs.length - available)
    let n1 := cap - b.backPtr
    let slots2 := overwrite slots1 b.backPtr (xs.take n1)
    let back := xs.length - n1
    ⟨overwrite slots2 0 (xs.drop n1), back, back, cap⟩

def insertBack (b : RingBuffer α) (xs : List (Option α)) : RingBuffer α :=
  if b.reserve ≥ xs.length then b.insertBackFits xs
  else if xs.length < b.capacity then b.insertBackOverwrites xs
  else
    let c := b.clear
    { c with slots := overwrite c.slots 0 (xs.drop (xs.length - b.capacity)), count := b.capacity }

/-! ## Copying, moving, changing the capacity -/

/-- `copy_other_items`: the elements of `other` from `start_ptr_` on. -/
def copyOtherItems (b other : RingBuffer α) : RingBuffer α :=
  let slots := if b.capacity < other.capacity then List.replicate other.capacity none else b.slots
  let items := other.arrayOne ++ other.arrayTwo
  ⟨overwrite slots 0 items, 0, endToStart slots.length items.length, other.count⟩

/-- `ring_buffer(const ring_buffer& other)`: the copied storage object starts without slots. -/
def copyConstruct (other : RingBuffer α) : RingBuffer α :=
  if other.empty then null else null.copyOtherItems other

/-- `operator=(const ring_buffer& other)` for another object than `*this`. -/
def copyAssign (b other : RingBuffer α) : RingBuffer α :=
  let b := b.clear
  if other.empty then b else b.copyOtherItems other

/-- `operator=(ring_buffer&& other)` for another object than `*this`: the new value of `*this` and of `other`. The
allocator is `std::allocator`, all of whose objects are equal, so the storage of `other` is taken over. -/
def moveAssign (_b other : RingBuffer α) : RingBuffer α × RingBuffer α := (other, null)

def setCapacity (b : RingBuffer α) (capacitySize : Nat) : RingBuffer α :=
  if capacitySize = b.capacity then b
  else (b.moveAssign ((ofCapacity capacitySize).insertBack b.range)).1

/-- `resize` above the capacity. The elements are moved to another buffer, and the rest of the storage is filled. -/
def resizeGrows (b : RingBuffer α) (newSize : Nat) (value : α) : RingBuffer α :=
  let c := null.setCapacity newSize
  let items := b.arrayOne ++ b.arrayTwo
  let slots := overwrite c.slots c.frontPtr items
  let back := c.frontPtr + items.length
  { c with slots := overwrite slots back (List.replicate (c.capacity - back) (some value)), backPtr := 0, count := newSize }

/-- `resize` below the size, for elements with a trivial destructor. -/
def resizeCuts (b : RingBuffer α) (newSize : Nat) : RingBuffer α :=
  let back := b.frontPtr + newSize
  { b with backPtr := if back ≥ b.capacity then back - b.capacity else back, count := newSize }

/-- `resize`; `trivial` is whether the elements have a trivial destructor. Each turn of a loop removes or appends one
element. -/
def resize (b : RingBuffer α) (trivial : Bool) (newSize : Nat) (value : α) : RingBuffer α :=
  if newSize = b.size then b
  else if newSize > b.capacity then b.resizeGrows newSize value
  else if newSize < b.capacity then
    if b.size > newSize then if trivial then b.resizeCuts newSize else popBack^[b.size - newSize] b
    else (uncheckedEmplaceBack · value)^[newSize - b.size] b
  else (uncheckedEmplaceBack · value)^[b.capacity - b.size] b

end RingBuffer

end Rad
