import Rad.Idna.Basic
import Rad.Lib.Loop

/-!
# Domain names in messages (src/net/dns/dns_parser.cpp)

A buffer is a part of a message: the position where it begins, and its bytes. `parse_domain_name` calls itself for each
compression pointer, so it is run with a bound on the depth of the calls and has no result where the bound is too small.
-/

namespace Rad.Dns

def maxDomainLabel : Nat := 63

def maxFormattedDomain : Nat := 255

/-- The errors of a parser: the format error of the DNS category, and `std::errc::interrupted`. -/
inductive Error where
  | formatError
  | interrupted
  deriving DecidableEq

structure Buffer where
  pos : Nat
  data : Bytes
  deriving DecidableEq

/-- The buffer without its first bytes. -/
def Buffer.advance (b : Buffer) (n : Nat) : Buffer := ⟨b.pos + n, b.data.drop n⟩

/-- `const_buffer::sub_buffer` from the beginning. -/
def Buffer.subBuffer (b : Buffer) (n : Nat) : Buffer := ⟨b.pos, b.data.take n⟩

/-- The buffer is a part of the message. -/
def Buffer.In (b : Buffer) (whole : Bytes) : Prop := b.data <+: whole.drop b.pos ∧ b.pos ≤ whole.length

def extractOffset (byte1 byte2 : UInt8) : Nat := (byte1 &&& 0x3f).toNat * 256 + byte2.toNat

/-- The trailing dot of a name is removed. -/
def popDot (out : Bytes) : Bytes := if out.getLast? = some '.'.toUInt8 then out.dropLast else out

/-- How the loop of `parse_domain_name` ends: at a root label, at a pointer or with an error. -/
inductive Part where
  | root (consumed : Nat) (out : Bytes)
  | pointer (consumed offset : Nat) (out : Bytes)
  | broken (out : Bytes)
  deriving DecidableEq

/-- The branch for a pointer, whose first byte is `len`. -/
def readPointer (wholeSize pos consumed : Nat) (len : UInt8) (t : Bytes) (out : Bytes) : Part :=
  match t with
  | [] => .broken out
  | next :: _ =>
    let offset := extractOffset len next
    if offset ≥ wholeSize then .broken out
    else if offset > (pos + (consumed + 2)) % 2 ^ 16 then .broken out
    else .pointer (consumed + 2) offset out

/-- The loop of `parse_domain_name` up to the call for a pointer. The reader has consumed `consumed` bytes of a buffer
at `pos`, and `t` is what it has left. -/
def readPart (wholeSize pos consumed : Nat) (t : Bytes) (out : Bytes) : Part :=
  match t with
  | [] => .broken out
  | len :: t =>
    if len = 0 then .root (consumed + 1) (popDot out)
    else if len &&& 0xc0 = 0xc0 then readPointer wholeSize pos consumed len t out
    else if len.toNat > maxDomainLabel ∨ consumed + 1 > maxFormattedDomain then .broken out
    else if t.length ≤ len.toNat then .broken out
    else
      readPart wholeSize pos (consumed + 1 + len.toNat) (t.drop len.toNat)
        (out ++ t.take len.toNat ++ ['.'.toUInt8])
  termination_by t.length
  decreasing_by
    rw [List.length_drop]
    exact Nat.lt_succ_of_le (Nat.sub_le _ _)

structure NameResult where
  count : Nat
  out : Bytes
  ec : Option Error
  deriving DecidableEq

/-- `dns::parse_domain_name`. -/
def parseDomainName (whole : Bytes) (depth : Nat) (input : Buffer) (out : Bytes) : Option NameResult :=
  match depth with
  | 0 => none
  | depth + 1 =>
    match readPart whole.length input.pos 0 input.data out with
    | .root n out => some ⟨n, out, none⟩
    | .broken out => some ⟨0, out, some .formatError⟩
    | .pointer n offset out =>
      (parseDomainName whole depth ⟨offset, whole.drop offset⟩ out).map fun r =>
        if r.count = 0 ∨ r.ec.isSome then ⟨0, r.out, some .formatError⟩ else ⟨n, r.out, none⟩

/-! ## Labels -/

/-- Labels as they stand in a message. -/
def labelsWire (ls : List Bytes) : Bytes := ls.flatMap fun l => UInt8.ofNat l.length :: l

/-- Labels as they are appended to a name. -/
def labelsText (ls : List Bytes) : Bytes := ls.flatMap fun l => l ++ ['.'.toUInt8]

/-- The labels that can be read behind `consumed` bytes of a part: no length byte stands behind the first 255 bytes. -/
def LabelsFrom (consumed : Nat) : List Bytes → Prop
  | [] => True
  | l :: ls => (1 ≤ l.length ∧ l.length ≤ 63) ∧ consumed + 1 ≤ 255 ∧ LabelsFrom (consumed + 1 + l.length) ls

/-- What no label can be read from. -/
def NoLabel (consumed : Nat) (t : Bytes) : Prop :=
  ∀ len t', t = len :: t' → len = 0 ∨ len &&& 0xc0 = 0xc0 ∨ len.toNat > 63 ∨ consumed + 1 > 255 ∨ t'.length ≤ len.toNat

@[simp] theorem labelsWire_nil : labelsWire [] = [] := rfl

@[simp] theorem labelsWire_cons (l : Bytes) (ls : List Bytes) :
    labelsWire (l :: ls) = UInt8.ofNat l.length :: (l ++ labelsWire ls) := rfl

@[simp] theorem labelsText_nil : labelsText [] = [] := rfl

@[simp] theorem labelsText_cons (l : Bytes) (ls : List Bytes) :
    labelsText (l :: ls) = l ++ '.'.toUInt8 :: labelsText ls := by
  rw [labelsText, List.flatMap_cons, List.append_assoc, List.singleton_append]
  rfl

theorem labelsText_append (ls ls' : List Bytes) : labelsText (ls ++ ls') = labelsText ls ++ labelsText ls' :=
  List.flatMap_append

theorem LabelsFrom.length_le {consumed : Nat} {ls : List Bytes} (h : LabelsFrom consumed ls) :
    ∀ l ∈ ls, 1 ≤ l.length ∧ l.length ≤ 63 := by
  induction ls generalizing consumed with
  | nil => nofun
  | cons l ls ih => exact List.forall_mem_cons.2 ⟨h.1, ih h.2.2⟩

theorem label_and_eq {len : UInt8} (h : len.toNat ≤ 63) : len &&& 0xc0 ≠ 0xc0 := by
  have hall : ∀ n ≤ 63, UInt8.ofNat n &&& 0xc0 ≠ 0xc0 := by decide
  have := hall len.toNat h
  rwa [UInt8.ofNat_toNat] at this

/-- Every text begins with labels that can be read, and goes on with something else. -/
theorem exists_labels (consumed : Nat) (t : Bytes) :
    ∃ ls tail, t = labelsWire ls ++ tail ∧ LabelsFrom consumed ls ∧ (tail = [] → t = []) ∧
      NoLabel (consumed + (labelsWire ls).length) tail := by
  induction hn : t.length using Nat.strongRecOn generalizing consumed t with
  | ind n ih =>
      by_cases hno : NoLabel consumed t
      · exact ⟨[], t, rfl, trivial, id, hno⟩
      rw [NoLabel] at hno
      push Not at hno
      obtain ⟨len, t', rfl, hzero, -, hlen, hconsumed, hshort⟩ := hno
      have hpos : 1 ≤ len.toNat := by
        rcases Nat.eq_zero_or_pos len.toNat with h | h
        · exact absurd (UInt8.toNat_inj.1 h) hzero
        · exact h
      have htake : (t'.take len.toNat).length = len.toNat := by
        rw [List.length_take]
        omega
      rw [List.length_cons] at hn
      obtain ⟨ls, tail, hrest, hls, hnil, htail⟩ := ih (t'.drop len.toNat).length (by rw [List.length_drop]; omega)
        (consumed + 1 + len.toNat) (t'.drop len.toNat) rfl
      refine ⟨t'.take len.toNat :: ls, tail, ?_, ⟨by omega, by omega, by rwa [htake]⟩, ?_, ?_⟩
      · rw [labelsWire_cons, htake, UInt8.ofNat_toNat, List.cons_append, List.append_assoc, ← hrest,
          List.take_append_drop]
      · intro h
        have := congrArg List.length (hnil h)
        rw [List.length_drop, List.length_nil] at this
        omega
      · have hsum : consumed + (labelsWire (t'.take len.toNat :: ls)).length =
            consumed + 1 + len.toNat + (labelsWire ls).length := by
          rw [labelsWire_cons, List.length_cons, List.length_append, htake]
          omega
        rwa [hsum]

/-- The reader takes labels that can be read. -/
theorem readPart_labels {ls : List Bytes} {tail : Bytes} {wholeSize pos consumed : Nat} (h : LabelsFrom consumed ls)
    (htail : tail ≠ []) (out : Bytes) :
    readPart wholeSize pos consumed (labelsWire ls ++ tail) out =
      readPart wholeSize pos (consumed + (labelsWire ls).length) tail (out ++ labelsText ls) := by
  induction ls generalizing consumed out with
  | nil => rw [labelsWire_nil, labelsText_nil, List.append_nil]; rfl
  | cons l ls ih =>
      obtain ⟨hlen, hconsumed, hls⟩ := h
      have htoNat : (UInt8.ofNat l.length).toNat = l.length := UInt8.toNat_ofNat_of_lt' (Nat.lt_of_le_of_lt hlen.2 (by decide))
      have hzero : UInt8.ofNat l.length ≠ 0 := fun h => by
        rw [h, UInt8.toNat_zero] at htoNat
        omega
      have hrest : ¬(l ++ labelsWire ls ++ tail).length ≤ l.length := by
        have := List.length_pos_of_ne_nil htail
        rw [List.length_append, List.length_append]
        omega
      have hlabel : ¬(l.length > maxDomainLabel ∨ consumed + 1 > maxFormattedDomain) := by
        rw [maxDomainLabel, maxFormattedDomain]
        omega
      rw [labelsWire_cons, List.cons_append, readPart, if_neg hzero, if_neg (label_and_eq (by omega)), htoNat,
        if_neg hlabel, if_neg hrest, List.append_assoc, List.drop_left, List.take_left, ih hls, List.length_cons,
        List.length_append, labelsText_cons]
      congr 1
      · omega
      · simp only [List.append_assoc, List.singleton_append]

/-! ## Writing names -/

/-- The errors of `encode_name`: those of `domain_to_ascii`, and `host_not_found_code`. -/
inductive EncodeError where
  | idna (e : Idna.Error)
  | hostNotFound
  deriving DecidableEq

structure EncodeResult where
  count : Nat
  storage : Bytes
  ec : Option EncodeError
  deriving DecidableEq

/-- The loop of `encode_name` over the labels, and what is behind it. -/
def encodeNameLoop (storage : Bytes) (consumed labelsCount : Nat) : List Bytes → EncodeResult
  | [] => if labelsCount < 1 then ⟨0, storage, some .hostNotFound⟩ else ⟨consumed + 1, storage ++ [0], none⟩
  | label :: rest =>
    if label = [] ∨ label.length > maxDomainLabel then ⟨0, storage, some .hostNotFound⟩
    else
      encodeNameLoop (storage ++ UInt8.ofNat label.length :: label) (consumed + (label.length + 1)) (labelsCount + 1) rest

/-- `dns::encode_name`: what it makes of the storage. -/
def encodeName (storage name : Bytes) : EncodeResult :=
  if name = ['.'.toUInt8] then ⟨1, storage ++ [0], none⟩
  else
    match Idna.domainToAscii true name with
    | .error e => ⟨0, storage, some (.idna e)⟩
    | .ok name =>
      if name = [] ∨ name = ['.'.toUInt8] then ⟨1, storage ++ [0], none⟩
      else
        let name := popDot name
        if name.length > maxFormattedDomain then ⟨0, storage, some .hostNotFound⟩
        else encodeNameLoop storage 0 0 (name.splitOn '.'.toUInt8)

end Rad.Dns
