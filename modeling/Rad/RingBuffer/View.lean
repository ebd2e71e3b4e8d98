import Rad.Lib.Cyclic
import Rad.Text.Ascii

/-!
# `ring_consumer_producer` (include/rad/ring_buffer_consumer.h, src/ring_buffer_consumer_producer.cpp)

A ring view over a linear buffer. The buffer is the list of its bytes, and pointers are offsets from `begin_ptr`; a
`buffer(p, n)` is the range of `n` bytes from the offset `p` on. The members of `ring_consumer` and of its derived class
stand together.
-/

namespace Rad

open Lib

/-- `const_buffer` and `mutable_buffer`. -/
structure BufferRange where
  ptr : Nat := 0
  size : Nat := 0
  deriving DecidableEq, Repr

namespace BufferRange

/-- The range lies inside of the storage. -/
def Inside (b : BufferRange) (capacity : Nat) : Prop := b.ptr + b.size ≤ capacity

def positions (b : BufferRange) : List Nat := (List.range b.size).map (b.ptr + ·)

/-- What is read from the range. -/
def bytes (b : BufferRange) (storage : Bytes) : Bytes := (storage.drop b.ptr).take b.size

end BufferRange

/-! ## Moves inside of the storage -/

/-- `move_overlap(first, last, d_first)`. -/
def moveOverlap (storage : Bytes) (first last dFirst : Nat) : Bytes :=
  if first ≥ last || dFirst == first then storage
  else overwrite storage dFirst ((storage.drop first).take (last - first))

/-- `while (!array1.empty())`: `array1` goes up to the end of the storage, `moving2` is the array of `size2` bytes that
is shifted. A round takes at least one byte from `array1`. -/
def linearizeLoop (reserveSize size2 : Nat) : Nat → Bytes → Nat → Nat → Nat → Bytes
  | 0, storage, _, _, _ => storage
  | fuel + 1, storage, array1, moving2, newArray1 =>
    if storage.length - array1 = 0 then storage
    else
      let shiftDistance := min reserveSize (storage.length - array1)
      let storage := moveOverlap storage moving2 (moving2 + size2) (moving2 + shiftDistance)
      let storage := overwrite storage newArray1 ((storage.drop array1).take shiftDistance)
      linearizeLoop reserveSize size2 fuel storage (array1 + shiftDistance) (moving2 + shiftDistance)
        (newArray1 + shiftDistance)

def linearizeRingBufferView (storage : Bytes) (startPtr backPtr : Nat) : Bytes :=
  let reserveSize := startPtr - backPtr
  if reserveSize = 0 then storage.drop startPtr ++ storage.take startPtr
  else linearizeLoop reserveSize backPtr (storage.length - startPtr) storage startPtr 0 startPtr

def moveRingBufferViewToStart (storage : Bytes) (startPtr size : Nat) : Bytes :=
  moveOverlap storage startPtr (startPtr + size) 0

/-! ## The view -/

structure RingConsumerProducer where
  storage : Bytes
  usedSize : Nat
  startPtr : Nat
  backPtr : Nat
  deriving DecidableEq

namespace RingConsumerProducer

/-- `ring_consumer_producer(space_buffer, commit_size)`. -/
def ofBuffer (storage : Bytes) (commitSize : Nat) : RingConsumerProducer where
  storage
  usedSize := min storage.length commitSize
  startPtr := 0
  backPtr := min storage.length commitSize

def capacity (r : RingConsumerProducer) : Nat := r.storage.length

def size (r : RingConsumerProducer) : Nat := r.usedSize

def space (r : RingConsumerProducer) : Nat := r.capacity - r.size

def empty (r : RingConsumerProducer) : Bool := r.size == 0

def full (r : RingConsumerProducer) : Bool := r.size == r.capacity

def isLinearized (r : RingConsumerProducer) : Bool := r.backPtr ≥ r.startPtr || r.backPtr == 0

def incrementPointer (r : RingConsumerProducer) (p n : Nat) : Nat :=
  if p + n ≥ r.capacity then p + n - r.capacity else p + n

def consume (r : RingConsumerProducer) (n : Nat) : RingConsumerProducer :=
  if r.usedSize - n = 0 then { r with usedSize := r.usedSize - n, startPtr := 0, backPtr := 0 }
  else { r with usedSize := r.usedSize - n, startPtr := r.incrementPointer r.startPtr n }

def clear (r : RingConsumerProducer) : RingConsumerProducer := { r with usedSize := 0, startPtr := 0, backPtr := 0 }

def commit (r : RingConsumerProducer) (n : Nat) : RingConsumerProducer :=
  { r with backPtr := r.incrementPointer r.backPtr n, usedSize := r.usedSize + n }

def availableBuffers (r : RingConsumerProducer) : BufferRange × BufferRange :=
  if r.isLinearized then (⟨r.startPtr, r.size⟩, {})
  else (⟨r.startPtr, r.capacity - r.startPtr⟩, ⟨0, r.backPtr⟩)

def availableSpace (r : RingConsumerProducer) : BufferRange × BufferRange :=
  if r.isLinearized then (⟨r.backPtr, r.capacity - r.backPtr⟩, ⟨0, r.startPtr⟩)
  else (⟨r.backPtr, r.space⟩, {})

/-- `memcpy` into a range. -/
def write (r : RingConsumerProducer) (ptr : Nat) (bytes : Bytes) : RingConsumerProducer :=
  { r with storage := overwrite r.storage ptr bytes }

/-- What is written through the two ranges of `available_space`, the first one first. -/
def writeSpace (r : RingConsumerProducer) (data : Bytes) : RingConsumerProducer :=
  let (buff1, buff2) := r.availableSpace
  let n1 := min buff1.size data.length
  let r := r.write buff1.ptr (data.take n1)
  r.write buff2.ptr ((data.drop n1).take (min buff2.size (data.length - n1)))

/-- `read_from`: the number of bytes and the view. -/
def readFrom (r : RingConsumerProducer) (buff : Bytes) : Nat × RingConsumerProducer :=
  if buff.isEmpty || r.full then (0, r)
  else
    let (buff1, buff2) := r.availableSpace
    let n1 := min buff1.size buff.length
    let r := r.write buff1.ptr (buff.take n1)
    let buff := buff.drop n1
    if buff.isEmpty || buff2.size == 0 then (n1, r.commit n1)
    else
      let n2 := min buff2.size buff.length
      (n1 + n2, (r.write buff2.ptr (buff.take n2)).commit (n1 + n2))

/-- The view behind a move of its data to the start. -/
def moved (r : RingConsumerProducer) (storage : Bytes) : RingConsumerProducer :=
  { r with storage, startPtr := 0, backPtr := r.incrementPointer 0 r.size }

def linearize (r : RingConsumerProducer) : BufferRange × RingConsumerProducer :=
  if r.isLinearized then (⟨r.startPtr, r.size⟩, r)
  else if r.empty then (⟨r.startPtr, r.size⟩, r)
  else (⟨0, r.size⟩, r.moved (linearizeRingBufferView r.storage r.startPtr r.backPtr))

def moveToStart (r : RingConsumerProducer) : BufferRange × RingConsumerProducer :=
  if r.empty || r.startPtr == 0 then (⟨r.startPtr, r.size⟩, r)
  else (⟨0, r.size⟩, r.moved (moveRingBufferViewToStart r.storage r.startPtr r.size))

end RingConsumerProducer

end Rad
