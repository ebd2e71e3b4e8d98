import Rad.Http2.Frame
import Rad.Http2.Lemmas.HeadersFrames

/-!
# Theorems: headers

The frames that carry the headers of a request, and the check of the headers of a response.
-/

namespace Rad.Http2

open Hpack Http

/-! ## The frames of requests -/

/-- The frames that the client makes for a request carry its HPACK block, unless the block is exactly as long as the
limit. -/
theorem header_block_framing_iff (hencoder : HpackEncoder) (method : Verb) (path : Bytes) (hdrs : Headers)
    (emptyBody : Bool) (id maxHeadersBlockSize : Nat) (hid : id < 2 ^ 31) (hpos : 1 ≤ maxHeadersBlockSize)
    (hmax : maxHeadersBlockSize ≤ 2 ^ 24 - 1) :
    CarriesBlock id maxHeadersBlockSize emptyBody (hencoder.encodeRequest method path hdrs requestFlags).1
        (makeHeadersContinuationsFrames id method path hdrs emptyBody maxHeadersBlockSize hencoder).1 ↔
      (hencoder.encodeRequest method path hdrs requestFlags).1.length ≠ maxHeadersBlockSize := by
  have hclamp : max maxHeadersBlockSize 1 = maxHeadersBlockSize := by omega
  simp only [makeHeadersContinuationsFrames, hclamp]
  have hlt : maxHeadersBlockSize < 2 ^ 24 := by omega
  constructor
  · exact fun hcarries heq => blockFrames_exact hpos hid hlt emptyBody heq hcarries
  · intro hne
    rcases Nat.lt_or_gt_of_ne hne with hsmall | hlarge
    · exact blockFrames_single hpos hid hlt emptyBody hsmall
    · exact blockFrames_split hpos hid hlt emptyBody hlarge

/-- A client for `https` whose table is still empty. -/
def freshEncoder : HpackEncoder := { scheme := ascii "https" }

theorem header_block_framing_two_frames :
    CarriesBlock 1 2 true (freshEncoder.encodeRequest .get (ascii "/") [] requestFlags).1
      (makeHeadersContinuationsFrames 1 .get (ascii "/") [] true 2 freshEncoder).1 :=
  (header_block_framing_iff freshEncoder .get (ascii "/") [] true 1 2 (by decide) (by decide) (by decide)).2
    (by decide)

/-- The same block with the limit that it just meets: a HEADERS frame without END_HEADERS, and nothing behind it. -/
theorem header_block_exact_limit :
    ¬CarriesBlock 1 3 true (freshEncoder.encodeRequest .get (ascii "/") [] requestFlags).1
      (makeHeadersContinuationsFrames 1 .get (ascii "/") [] true 3 freshEncoder).1 ∧
    (makeHeadersContinuationsFrames 1 .get (ascii "/") [] true 3 freshEncoder).1 =
      [([0, 0, 3, 1, 1, 0, 0, 0, 1], [0x82, 0x87, 0x84])] := by
  have hframes : (makeHeadersContinuationsFrames 1 .get (ascii "/") [] true 3 freshEncoder).1 =
      [([0, 0, 3, 1, 1, 0, 0, 0, 1], [0x82, 0x87, 0x84])] := by decide +kernel
  refine ⟨?_, hframes⟩
  rw [hframes]
  rintro ⟨-, -, ⟨init, last, hsplit, hends, -⟩, -⟩
  have hlast := congrArg List.getLast? hsplit
  simp only [List.getLast?_singleton, List.getLast?_concat, Option.some.injEq] at hlast
  rw [← hlast] at hends
  exact absurd hends (by decide)

/-! ## The rules for fields -/

def isNameOctet (b : UInt8) : Bool := 0x21 ≤ b && b ≤ 0x7e && !(0x41 ≤ b && b ≤ 0x5a) && b != 0x3a

/-- The fields of a connection, with the ones whose names begin with `connection-`. -/
def IsConnectionSpecific (name : Bytes) : Prop :=
  ascii "connection-" <+: name ∨ name ∈ [ascii "connection", ascii "proxy-connection", ascii "keep-alive",
    ascii "transfer-encoding", ascii "upgrade"]

structure NameRules (name : Bytes) : Prop where
  ne_nil : name ≠ []
  octets : ∀ b ∈ name, isNameOctet b = true
  connection : ¬IsConnectionSpecific name

structure ValueRules (value : Bytes) : Prop where
  octets : ∀ b ∈ value, b ≠ 0x00 ∧ b ≠ 0x0a ∧ b ≠ 0x0d
  head : value.head? ≠ some 0x20 ∧ value.head? ≠ some 0x09
  last : value.getLast? ≠ some 0x20 ∧ value.getLast? ≠ some 0x09

/-- The rules of HTTP/2 for the fields of a list. -/
def FieldRules (hdrs : Headers) : Prop := ∀ header ∈ hdrs, NameRules header.1 ∧ ValueRules header.2

/-- The name begins with a colon, or it has an octet that is negative as a `char`. -/
def Overlooked (name : Bytes) : Prop := name.head? = some 0x3a ∨ ∃ b ∈ name, 0x80 ≤ b

/-- The rules for names, but for what is overlooked. -/
structure LooseNameRules (name : Bytes) : Prop where
  ne_nil : name ≠ []
  octets : ∀ b ∈ name, isNameOctet b = true ∨ b = 0x3a ∨ 0x80 ≤ b
  colon : 0x3a ∉ name.drop 1
  connection : ¬IsConnectionSpecific name

/-- Nothing is wrong with the list but what is overlooked. -/
def OnlyOverlooked (hdrs : Headers) : Prop :=
  (∀ header ∈ hdrs, LooseNameRules header.1 ∧ ValueRules header.2) ∧ ∃ header ∈ hdrs, Overlooked header.1

theorem badNameChar_iff (b : UInt8) :
    badNameChar (charValue b) = false ↔ isNameOctet b = true ∨ b = 0x3a ∨ 0x80 ≤ b := by
  have hlt := b.toNat_lt
  simp only [badNameChar, charValue, isNameOctet, Bool.or_eq_false_iff, Bool.and_eq_false_iff, decide_eq_false_iff_not,
    Bool.and_eq_true, decide_eq_true_eq, Bool.not_eq_true', bne_iff_ne, ne_eq, UInt8.le_iff_toNat_le,
    UInt8.lt_iff_toNat_lt, ← UInt8.toNat_inj, UInt8.reduceToNat]
  split <;> omega

theorem isConnectionSpecific_iff (name : Bytes) :
    IsConnectionSpecific name ↔ ((ascii "connection-").isPrefixOf name || name == ascii "connection") = true ∨
      (name == ascii "proxy-connection" || name == ascii "keep-alive" || name == ascii "transfer-encoding" ||
        name == ascii "upgrade") = true := by
  simp only [IsConnectionSpecific, List.mem_cons, List.not_mem_nil, or_false, Bool.or_eq_true, beq_iff_eq,
    List.isPrefixOf_iff_prefix, or_assoc]

theorem validateHeaderField_iff (name : Bytes) : validateHeaderField name = true ↔ LooseNameRules name := by
  have hoctets : (name.map charValue).any badNameChar = false ↔
      ∀ b ∈ name, isNameOctet b = true ∨ b = 0x3a ∨ 0x80 ≤ b := by
    simp only [List.any_eq_false, List.mem_map, forall_exists_index, and_imp, forall_apply_eq_imp_iff₂,
      Bool.not_eq_true, badNameChar_iff]
  have hcolon : (name.drop 1).any (· == 0x3a) = false ↔ 0x3a ∉ name.drop 1 := by
    rw [List.any_beq', Bool.eq_false_iff, ne_eq, List.contains_iff_mem]
  rw [validateHeaderField]
  split
  · rename_i hnil
    exact ⟨fun h => absurd h (by decide), fun h => absurd hnil h.ne_nil⟩
  rename_i hne
  split
  · rename_i hbad
    exact ⟨fun h => absurd h (by decide), fun h => absurd (hoctets.2 h.octets) (by rw [hbad]; decide)⟩
  rename_i hgood
  split
  · rename_i hbad
    exact ⟨fun h => absurd h (by decide), fun h => absurd (hcolon.2 h.colon) (by rw [hbad]; decide)⟩
  rename_i hplain
  rw [Bool.not_eq_true] at hgood hplain
  have hrules : LooseNameRules name ↔ ¬IsConnectionSpecific name :=
    ⟨LooseNameRules.connection, fun h => ⟨hne, hoctets.1 hgood, hcolon.1 hplain, h⟩⟩
  rw [hrules, isConnectionSpecific_iff]
  split
  · rename_i hconnection
    exact ⟨fun h => absurd h (by decide), fun h => absurd (.inl hconnection) h⟩
  · rename_i hconnection
    rw [Bool.not_eq_true', or_iff_right hconnection, Bool.not_eq_true]

theorem validateHeaderValue_iff (value : Bytes) : validateHeaderValue value = true ↔ ValueRules value := by
  have hoctets : (!value.any fun ch => ch == 0 || ch == 0x0a || ch == 0x0d) = true ↔
      ∀ b ∈ value, b ≠ 0x00 ∧ b ≠ 0x0a ∧ b ≠ 0x0d := by
    simp only [Bool.not_eq_true', List.any_eq_false, Bool.or_eq_true, beq_iff_eq, not_or, and_assoc, ne_eq]
  rw [validateHeaderValue]
  split
  · rename_i hnil
    subst hnil
    exact ⟨fun _ => ⟨nofun, by decide, by decide⟩, fun _ => rfl⟩
  split
  · rename_i hspace
    rw [Bool.or_eq_true, beq_iff_eq, beq_iff_eq] at hspace
    refine ⟨fun h => absurd h (by decide), fun h => ?_⟩
    exact (hspace.elim h.head.1 h.last.1).elim
  rename_i hspace
  split
  · rename_i htab
    rw [Bool.or_eq_true, beq_iff_eq, beq_iff_eq] at htab
    refine ⟨fun h => absurd h (by decide), fun h => ?_⟩
    exact (htab.elim h.head.2 h.last.2).elim
  rename_i htab
  rw [Bool.or_eq_true, beq_iff_eq, beq_iff_eq, not_or] at hspace htab
  rw [hoctets]
  exact ⟨fun h => ⟨h, ⟨hspace.1, htab.1⟩, hspace.2, htab.2⟩, ValueRules.octets⟩

theorem validateHeaders_iff (hdrs : Headers) :
    validateHeaders hdrs = true ↔ ∀ header ∈ hdrs, LooseNameRules header.1 ∧ ValueRules header.2 := by
  simp only [validateHeaders, List.all_eq_true, validateHeader, Bool.and_eq_true, validateHeaderField_iff,
    validateHeaderValue_iff]

theorem isNameOctet_facts {b : UInt8} (h : isNameOctet b = true) : b ≠ 0x3a ∧ ¬0x80 ≤ b := by
  simp only [isNameOctet, Bool.and_eq_true, decide_eq_true_eq, bne_iff_ne] at h
  refine ⟨h.2, fun hhigh => ?_⟩
  have hlow := h.1.1.2
  rw [UInt8.le_iff_toNat_le] at hlow hhigh
  exact absurd (Nat.le_trans hhigh hlow) (by decide)

theorem nameRules_iff (name : Bytes) : NameRules name ↔ LooseNameRules name ∧ ¬Overlooked name := by
  constructor
  · intro h
    refine ⟨⟨h.ne_nil, fun b hb => .inl (h.octets b hb), fun hcolon => ?_, h.connection⟩, ?_⟩
    · exact (isNameOctet_facts (h.octets _ (List.mem_of_mem_drop hcolon))).1 rfl
    · rintro (hhead | ⟨b, hb, hhigh⟩)
      · exact (isNameOctet_facts (h.octets _ (List.mem_of_mem_head? hhead))).1 rfl
      · exact (isNameOctet_facts (h.octets b hb)).2 hhigh
  · rintro ⟨h, hseen⟩
    rw [Overlooked, not_or, not_exists] at hseen
    refine ⟨h.ne_nil, fun b hb => ?_, h.connection⟩
    rcases h.octets b hb with hoctet | rfl | hhigh
    · exact hoctet
    · -- a colon is at the front or behind it
      obtain ⟨first, rest, hname⟩ := List.exists_cons_of_ne_nil h.ne_nil
      rw [hname, List.mem_cons] at hb
      rcases hb with rfl | hb
      · exact absurd (by rw [hname]; rfl) hseen.1
      · exact absurd (by rw [hname]; exact hb) h.colon
    · exact absurd ⟨hb, hhigh⟩ (hseen.2 b)

/-! ## What is accepted -/

/-- The check of a list is right if and only if there is more wrong with the list than names with a colon in front or
with octets from 0x80 on. -/
theorem validate_headers_exact (hdrs : Headers) :
    (validateHeaders hdrs = true ↔ FieldRules hdrs) ↔ ¬OnlyOverlooked hdrs := by
  rw [validateHeaders_iff, OnlyOverlooked]
  have hrules : FieldRules hdrs ↔ (∀ header ∈ hdrs, LooseNameRules header.1 ∧ ValueRules header.2) ∧
      ¬∃ header ∈ hdrs, Overlooked header.1 := by
    simp only [FieldRules, nameRules_iff, not_exists, not_and]
    exact ⟨fun h => ⟨fun header hmem => ⟨(h header hmem).1.1, (h header hmem).2⟩, fun header hmem => (h header hmem).1.2⟩,
      fun h header hmem => ⟨⟨(h.1 header hmem).1, h.2 header hmem⟩, (h.1 header hmem).2⟩⟩
  rw [hrules, iff_self_and, not_and]

/-- A pseudo header is accepted, and so is a name of one octet 0xff. -/
theorem validate_headers_overlooks :
    (¬(validateHeaders [(ascii ":status", ascii "200")] = true ↔ FieldRules [(ascii ":status", ascii "200")])) ∧
      ¬(validateHeaders [([0xff], [])] = true ↔ FieldRules [([0xff], [])]) := by
  refine ⟨fun h => ?_, fun h => ?_⟩
  · have hrules := (h.1 (by decide) _ List.mem_cons_self).1.octets 0x3a (by decide)
    exact absurd hrules (by decide)
  · have hrules := (h.1 (by decide) _ List.mem_cons_self).1.octets 0xff (by decide)
    exact absurd hrules (by decide)

end Rad.Http2
