import Mathlib.Data.List.TakeWhile
import Rad.Http.Serialization
import Rad.Http.Tokens

/-!
# Writing into prepared space

The space that is prepared for a message is large enough, and what is left of it is cut off.
-/

namespace Rad.Http

/-! ## Decimal numbers

What `std::to_string` writes is read back.
-/

theorem mem_toDigits {n : Nat} {c : Char} (h : c ∈ Nat.toDigits 10 n) : 48 ≤ c.toNat ∧ c.toNat ≤ 57 := by
  have hdigit := Nat.isDigit_of_mem_toDigits (by decide) (by decide) h
  rw [Char.isDigit, Bool.and_eq_true, decide_eq_true_iff, decide_eq_true_iff] at hdigit
  exact ⟨UInt32.le_iff_toNat_le.1 hdigit.1, UInt32.le_iff_toNat_le.1 hdigit.2⟩

theorem toUInt8_toNat {c : Char} (h : c.toNat ≤ 57) : c.toNat.toUInt8.toNat = c.toNat := by
  rw [Nat.toUInt8_eq, UInt8.toNat_ofNat']
  omega

theorem toDecimal_digits (n : Nat) : ∀ b ∈ toDecimal n, isDigit b = true := by
  intro b hb
  obtain ⟨c, hc, rfl⟩ := List.mem_map.1 hb
  obtain ⟨hlow, hhigh⟩ := mem_toDigits hc
  rw [isDigit, Bool.and_eq_true, decide_eq_true_iff, decide_eq_true_iff, UInt8.le_iff_toNat_le, UInt8.le_iff_toNat_le,
    toUInt8_toNat hhigh]
  exact ⟨hlow, hhigh⟩

theorem decimalValue_toDecimal (n : Nat) : decimalValue (toDecimal n) = n := by
  have hfold : ∀ (cs : List Char) (k : Nat), (∀ c ∈ cs, 48 ≤ c.toNat ∧ c.toNat ≤ 57) →
      (cs.map fun c => c.toNat.toUInt8).foldl (fun n ch => 10 * n + (ch.toNat - 0x30)) k = Nat.ofDigitChars 10 cs k := by
    intro cs
    induction cs with
    | nil =>
        intro k _
        rw [Nat.ofDigitChars_nil]
        rfl
    | cons c cs ih =>
        intro k h
        have hc := h c List.mem_cons_self
        have htoNat := toUInt8_toNat hc.2
        rw [List.map_cons, List.foldl_cons, Nat.ofDigitChars_cons, ih _ fun c' hc' => h c' (List.mem_cons_of_mem _ hc'),
          htoNat]
        rfl
  rw [decimalValue, toDecimal, hfold _ _ fun c => mem_toDigits]
  exact Nat.ofDigitChars_toDigits (by decide) (by decide)

theorem toDecimal_length {n k : Nat} (hk : 0 < k) : (toDecimal n).length ≤ k ↔ n < 10 ^ k := by
  rw [toDecimal, List.length_map]
  exact Nat.length_toDigits_le_iff (by decide) hk

theorem toUint32_toDecimal {n : Nat} (h : n < 2 ^ 32) : toUint32 (toDecimal n) = (n, true) := by
  have htake : (toDecimal n).takeWhile isDigit = toDecimal n := List.takeWhile_eq_self_iff.2 (toDecimal_digits n)
  have hne : toDecimal n ≠ [] := by
    rw [toDecimal]
    simp
  rw [toUint32, htake, if_neg hne, decimalValue_toDecimal, if_neg (Nat.not_le.2 h)]
  simp

theorem parseHttpStatus_toDecimal {n : Nat} (hlow : 100 ≤ n) (hhigh : n ≤ 999) (rest : Bytes) :
    parseHttpStatus (toDecimal n ++ rest) = .ok (some (n, rest)) := by
  have hlen : (toDecimal n).length = 3 := by
    have h3 := (toDecimal_length (n := n) (k := 3) (by decide)).2 (by omega)
    have h2 := mt (toDecimal_length (n := n) (k := 2) (by decide)).1 (by omega)
    omega
  have htake : (toDecimal n ++ rest).take 3 = toDecimal n := List.take_left' hlen
  have hdrop : (toDecimal n ++ rest).drop 3 = rest := List.drop_left' hlen
  -- the value of three digits with a zero in front is too small
  have hzero : (toDecimal n).headD 0 ≠ 0x30 := by
    intro h
    have hvalue := decimalValue_toDecimal n
    match hdigits : toDecimal n, hlen with
    | [a, b, c], _ =>
        have hd := toDecimal_digits n
        rw [hdigits] at h hvalue hd
        have hb := hd b (by simp)
        have hc := hd c (by simp)
        obtain rfl : a = 0x30 := h
        simp only [isDigit, Bool.and_eq_true, decide_eq_true_eq, UInt8.le_iff_toNat_le] at hb hc
        simp only [decimalValue, List.foldl_cons, List.foldl_nil] at hvalue
        have h48 : (0x30 : UInt8).toNat = 48 := rfl
        have h57 : (0x39 : UInt8).toNat = 57 := rfl
        omega
  rw [parseHttpStatus, htake, hdrop, if_neg hzero, if_neg (by omega), toUint32_toDecimal (by omega)]
  rfl

/-- A span behind the bytes `w`, with `left` bytes to be written. -/
def written (w : Bytes) (left : Nat) : Span := ⟨w ++ List.replicate left 0, w.length⟩

theorem prepare_eq (out : Bytes) (size : Nat) : prepare out size = written out size := rfl

@[simp] theorem written_size (w : Bytes) (left : Nat) : (written w left).size = left := by simp [written, Span.size]

theorem copyIntoSpan_written {w p : Bytes} {left : Nat} (h : p.length ≤ left) :
    copyIntoSpan (written w left) p = some (written (w ++ p) (left - p.length)) := by
  rw [copyIntoSpan, written_size, if_pos h]
  simp [written, List.drop_append]

/-- What is behind the bytes that are written is cut off. -/
theorem take_written {w : Bytes} {left n : Nat} (h : n = w.length) : (written w left).buffer.take n = w := by
  simp [written, h]

theorem text_cons (header : Bytes × Bytes) (headers : Headers) :
    Headers.text (header :: headers) = header.1 ++ colonSp ++ header.2 ++ crlf ++ headers.text := rfl

theorem serializeHeaders_written {headers : Headers} {w : Bytes} {left : Nat} (h : headers.text.length ≤ left) :
    serializeHeaders (written w left) headers =
      some (written (w ++ headers.text) (left - headers.text.length)) := by
  induction headers generalizing w left with
  | nil =>
      change some (written w left) = some (written (w ++ []) (left - 0))
      rw [List.append_nil, Nat.sub_zero]
  | cons header headers ih =>
      rw [text_cons] at h ⊢
      simp only [List.length_append] at h ⊢
      rw [serializeHeaders, List.foldlM_cons]
      simp only [Option.bind_eq_bind]
      rw [copyIntoSpan_written (by omega), Option.bind_some, copyIntoSpan_written (by omega), Option.bind_some,
        copyIntoSpan_written (by omega), Option.bind_some, copyIntoSpan_written (by omega), Option.bind_some]
      refine (ih (by omega)).trans ?_
      congr 2
      · simp only [List.append_assoc]
      · omega

theorem insertHeadersAndBody_written {headers : Headers} {body w : Bytes} {left : Nat}
    (h : headers.text.length + crlf.length + body.length ≤ left) :
    insertHeadersAndBody (written w left) headers body =
      some (written (w ++ headers.text ++ crlf ++ body)
        (left - (headers.text.length + crlf.length + body.length))) := by
  simp only [insertHeadersAndBody, Option.bind_eq_bind]
  rw [serializeHeaders_written (by omega), Option.bind_some, copyIntoSpan_written (by omega), Option.bind_some,
    copyIntoSpan_written (by omega)]
  congr 2
  omega

theorem serializedSize_eq (headers : Headers) : headers.serializedSize = headers.text.length := by
  have hcolon : colonSp.length = 2 := rfl
  have hcrlf : crlf.length = 2 := rfl
  have hfold : ∀ (headers : Headers) (n : Nat),
      headers.foldl (fun size header => size + (header.1.length + header.2.length)) (n + 4 * headers.length) =
        n + headers.text.length := by
    intro headers
    induction headers with
    | nil => intro n; rfl
    | cons header headers ih =>
        intro n
        have hstart : n + 4 * (header :: headers).length + (header.1.length + header.2.length) =
            (n + 4 + (header.1.length + header.2.length)) + 4 * headers.length := by
          rw [List.length_cons]
          omega
        rw [List.foldl_cons, hstart, ih, text_cons]
        simp only [List.length_append, hcolon, hcrlf]
        omega
  rw [Headers.serializedSize]
  split
  · rename_i h
    rw [h]
    rfl
  · have := hfold headers 0
    rwa [Nat.zero_add, Nat.zero_add] at this

/-- Exactly the message is appended. -/
theorem serializeRequest_eq (req : Request) (body out : Bytes) :
    serializeRequest req.method req.target req.version req.headers req.headers.serializedSize body out =
      some (out ++ (req.head ++ body)) := by
  have hsp : sp.length = 1 := rfl
  have hcrlf : crlf.length = 2 := rfl
  simp only [serializeRequest, serializedSize_eq, prepare_eq, Option.bind_eq_bind]
  rw [copyIntoSpan_written (by omega), Option.bind_some, copyIntoSpan_written (by omega), Option.bind_some,
    copyIntoSpan_written (by omega), Option.bind_some, copyIntoSpan_written (by omega), Option.bind_some,
    copyIntoSpan_written (by omega), Option.bind_some, copyIntoSpan_written (by omega), Option.bind_some,
    copyIntoSpan_written (by omega), Option.bind_some, insertHeadersAndBody_written (by omega), Option.bind_some,
    written_size]
  rw [take_written]
  · simp only [Request.head, Request.line, List.append_assoc]
  · simp only [List.length_append, hsp, hcrlf]
    omega

theorem serializeResponse_eq (res : Response) (body out : Bytes) (hstatus : res.status < 2 ^ 32) :
    serializeResponse res.status res.version res.reason res.headers res.headers.serializedSize body out =
      some (out ++ (res.head ++ body)) := by
  have hsp : sp.length = 1 := rfl
  have hcrlf : crlf.length = 2 := rfl
  have hdigits : ¬10 < (toDecimal res.status).length := Nat.not_lt.2 ((toDecimal_length (by decide)).2 (by omega))
  -- one byte more than needed is prepared when there is a reason
  have hreason : res.reason.length ≤ if res.reason ≠ [] then 1 + res.reason.length else 0 := by
    split
    · omega
    · rename_i h
      rw [not_not.1 h]
      exact Nat.le_refl _
  simp only [serializeResponse, serializedSize_eq, prepare_eq, Option.bind_eq_bind, if_neg hdigits]
  rw [copyIntoSpan_written (by omega), Option.bind_some, copyIntoSpan_written (by omega), Option.bind_some,
    copyIntoSpan_written (by omega), Option.bind_some, copyIntoSpan_written (by omega), Option.bind_some,
    copyIntoSpan_written (by omega), Option.bind_some, copyIntoSpan_written (by omega), Option.bind_some,
    copyIntoSpan_written (by omega), Option.bind_some, insertHeadersAndBody_written (by omega), Option.bind_some,
    written_size]
  rw [take_written]
  · simp only [Response.head, Response.line, List.append_assoc]
  · simp only [List.length_append, hsp, hcrlf]
    omega

end Rad.Http
