import Rad.Lib.Split
import Rad.Text.Ascii

/-!
# Addresses in text (src/net/types.cpp)

`inet_pton` is a parameter: it is given the bytes in front of the terminating zero.
-/

namespace Rad.Net

/-- `to_uint8`: what `std::from_chars` leaves in the number, and whether there is no error. A number that does not fit is not
stored, and behind the digits there is an error, but the number stays. -/
def toUint8 (base : Nat) (from' : Bytes) : UInt8 × Bool :=
  let digits := from'.takeWhile (isDigitOf base)
  let stored := digits ≠ [] ∧ valueOf base digits < 256
  (if stored then UInt8.ofNat (valueOf base digits) else 0, decide (stored ∧ digits = from'))

/-- The parts of a text: what `split` gives for `"."`. -/
def parts (ipStr : Bytes) : List Bytes := ipStr.splitOn 0x2e

/-! ## IPv4 -/

structure Ipv4 where
  bytesStorage : Bytes
  length_eq : bytesStorage.length = 4
  deriving DecidableEq

/-- `ipv4()`. -/
def Ipv4.any : Ipv4 := ⟨[0, 0, 0, 0], rfl⟩

def Ipv4.set (a : Ipv4) (i : Nat) (b : UInt8) : Ipv4 := ⟨a.bytesStorage.set i b, by rw [List.length_set, a.length_eq]⟩

/-- The base of a part that is not a single zero, and the digits. There is no number when nothing is behind the prefix. -/
def partDigits (part : Bytes) : Option (Nat × Bytes) :=
  match part with
  | 0x30 :: ch :: digits =>
    if ch = 0x78 ∨ ch = 0x58 then if digits = [] then none else some (16, digits) else some (8, part)
  | _ => some (10, part)

/-- The loop of `ipv4::from_string`. -/
def fromStringLoop (counter : Nat) (a : Ipv4) : List Bytes → Bool × Ipv4
  | [] => (decide (counter = 4), a)
  | part :: rest =>
    if counter = 4 ∨ part = [] then (false, a)
    else if part = [0x30] then fromStringLoop (counter + 1) (a.set counter 0) rest
    else
      match partDigits part with
      | none => (false, a)
      | some (base, digits) =>
        let r := toUint8 base digits
        if r.2 then fromStringLoop (counter + 1) (a.set counter r.1) rest else (false, a.set counter r.1)

/-- `ipv4::from_string`: whether it succeeds, and what it makes of the address. -/
def Ipv4.fromString (a : Ipv4) (ipStr : Bytes) : Bool × Ipv4 := fromStringLoop 0 a (parts ipStr)

/-- A part that `is_valid_ipv4` takes. -/
def isValidPart (part : Bytes) : Bool :=
  (toUint8 10 part).2 ||
    if 2 < part.length ∧ part[0]? = some 0x30 ∧ part[1]? = some 0x78 then (toUint8 16 (part.drop 2)).2
    else if part[0]? = some 0x30 then (toUint8 8 part).2
    else false

/-- The loop of `is_valid_ipv4`. -/
def isValidIpv4Loop (counter : Nat) : List Bytes → Bool
  | [] => counter == 1
  | part :: rest =>
    let counter := counter - 1
    if part = [] ∨ counter = 0 then false else if isValidPart part then isValidIpv4Loop counter rest else false

def isValidIpv4 (ipStr : Bytes) : Bool := isValidIpv4Loop 5 (parts ipStr)

/-! ## IPv6 -/

section

variable (inetPton : Bytes → Option Bytes) (ipStr : Bytes)

/-- The string that the bytes of a buffer with a terminating zero are. -/
def zeroTerminated (ipStr : Bytes) : Bytes := ipStr.takeWhile (· ≠ 0)

/-- `ipv6::from_string`; the bytes of the address when it succeeds. -/
def ipv6FromString : Option Bytes := if ipStr.length > 100 then none else inetPton (zeroTerminated ipStr)

def isValidIpv6 : Bool := if ipStr.length > 45 then false else (inetPton (zeroTerminated ipStr)).isSome

/-! ## Endpoints -/

inductive Address where
  | ipv4 (a : Ipv4)
  | ipv6 (bytes : Bytes)
  deriving DecidableEq

structure Endpoint where
  address : Address
  port : UInt16
  deriving DecidableEq

/-- The constructor of `ipv4` with a string; no result where it throws. -/
def Ipv4.ofString (ipStr : Bytes) : Option Ipv4 :=
  let r := Ipv4.any.fromString ipStr
  if r.1 then some r.2 else none

/-- The constructor of `endpoint` with a string; no result where it throws. -/
def endpoint (port : UInt16) : Option Endpoint :=
  if isValidIpv4 ipStr then (Ipv4.ofString ipStr).map fun a => ⟨.ipv4 a, port⟩
  else if isValidIpv6 inetPton ipStr then (ipv6FromString inetPton ipStr).map fun bytes => ⟨.ipv6 bytes, port⟩
  else none

end

end Rad.Net
