import Rad.Dns.Lemmas.Name
import Rad.Idna.AsciiTheorems

/-!
# Names in messages and in text

A name of labels that `domain_to_ascii` leaves as they are is written as these labels, and read from them again.
-/

namespace Rad.Dns

/-- The characters of a label. -/
def IsLabelCharacter (b : UInt8) : Prop := 0x61 ≤ b ∧ b ≤ 0x7a ∨ 0x30 ≤ b ∧ b ≤ 0x39 ∨ b = 0x2d

/-- A label of a name of a host. -/
structure HostLabel (l : Bytes) : Prop where
  pos : 1 ≤ l.length
  length_le : l.length ≤ 63
  characters : ∀ b ∈ l, IsLabelCharacter b
  head : l.head? ≠ some 0x2d
  last : l.getLast? ≠ some 0x2d
  plain : ¬Idna.punycodePrefix <+: l

/-- A name of labels with a dot between each two. -/
structure HostName (n : Bytes) (ls : List Bytes) : Prop where
  eq : n = ['.'.toUInt8].intercalate ls
  ne_nil : ls ≠ []
  labels : ∀ l ∈ ls, HostLabel l
  length_le : n.length ≤ 253

variable {ls : List Bytes} {l n : Bytes} {b : UInt8} {total : Nat}

/-! ## Characters -/

theorem IsLabelCharacter.spec (h : IsLabelCharacter b) : b < 0x80 ∧ tolowerCh b = b ∧ b ≠ 0x2e := by
  have hall : ∀ n < 256, (0x61 ≤ UInt8.ofNat n ∧ UInt8.ofNat n ≤ 0x7a ∨ 0x30 ≤ UInt8.ofNat n ∧ UInt8.ofNat n ≤ 0x39 ∨
      UInt8.ofNat n = 0x2d) → UInt8.ofNat n < 0x80 ∧ tolowerCh (UInt8.ofNat n) = UInt8.ofNat n ∧ UInt8.ofNat n ≠ 0x2e := by
    decide +kernel
  have hb := hall b.toNat b.toNat_lt
  rw [UInt8.ofNat_toNat] at hb
  exact hb h

theorem HostLabel.ne_nil (h : HostLabel l) : l ≠ [] := List.ne_nil_of_length_pos h.pos

/-! ## Lengths -/

/-- A name is as long as its labels with a byte in front of each, less one. -/
theorem length_intercalate (hne : ls ≠ []) : (['.'.toUInt8].intercalate ls).length + 1 = (labelsWire ls).length := by
  induction ls with
  | nil => exact absurd rfl hne
  | cons l ls ih =>
      cases ls with
      | nil =>
          rw [List.intercalate_singleton, labelsWire_cons, labelsWire_nil, List.append_nil]
          rfl
      | cons l' ls =>
          have hrest := ih (List.cons_ne_nil _ _)
          rw [List.intercalate_cons_cons, labelsWire_cons, List.length_append, List.length_append, List.length_singleton,
            List.length_cons, List.length_append]
          omega

theorem labelsText_eq (hne : ls ≠ []) : labelsText ls = ['.'.toUInt8].intercalate ls ++ ['.'.toUInt8] := by
  induction ls with
  | nil => exact absurd rfl hne
  | cons l ls ih =>
      cases ls with
      | nil =>
          rw [List.intercalate_singleton, labelsText_cons, labelsText_nil]
      | cons l' ls =>
          rw [List.intercalate_cons_cons, labelsText_cons, ih (List.cons_ne_nil _ _), List.append_assoc, List.append_assoc]
          rfl

/-- The length bytes of the labels are among the first 255 bytes. -/
theorem labelsFrom_of_length {consumed : Nat} (hlabels : ∀ l ∈ ls, 1 ≤ l.length ∧ l.length ≤ 63)
    (h : consumed + (labelsWire ls).length ≤ 255) : LabelsFrom consumed ls := by
  induction ls generalizing consumed with
  | nil => trivial
  | cons l ls ih =>
      obtain ⟨hl, hls⟩ := List.forall_mem_cons.1 hlabels
      rw [labelsWire_cons, List.length_cons, List.length_append] at h
      exact ⟨hl, by omega, ih hls (by omega)⟩

/-! ## Writing -/

theorem encodeNameLoop_eq (hlabels : ∀ l ∈ ls, 1 ≤ l.length ∧ l.length ≤ 63) (storage : Bytes) (consumed count : Nat)
    (hcount : 0 < count + ls.length) :
    encodeNameLoop storage consumed count ls =
      ⟨consumed + (labelsWire ls).length + 1, storage ++ labelsWire ls ++ [0], none⟩ := by
  induction ls generalizing storage consumed count with
  | nil =>
      rw [encodeNameLoop, if_neg (by rw [List.length_nil] at hcount; omega), labelsWire_nil, List.append_nil]
      rfl
  | cons l ls ih =>
      obtain ⟨hl, hls⟩ := List.forall_mem_cons.1 hlabels
      have hne : l ≠ [] := List.ne_nil_of_length_pos hl.1
      rw [encodeNameLoop, if_neg (not_or.2 ⟨hne, by rw [maxDomainLabel]; omega⟩), ih hls _ _ _ (by omega), labelsWire_cons]
      simp only [List.append_assoc, List.cons_append, List.length_cons, List.length_append, EncodeResult.mk.injEq, and_true]
      omega

/-- `domain_to_ascii` passes over labels of the right lengths. -/
theorem encodeLabels_hostLabels (hlabels : ∀ l ∈ ls, HostLabel l) (h : total + (ls.map List.length).sum ≤ 253) :
    Idna.encodeLabels true total ls = .ok ls := by
  induction ls generalizing total with
  | nil => rfl
  | cons l ls ih =>
      obtain ⟨hl, hls⟩ := List.forall_mem_cons.1 hlabels
      have hascii : Idna.IsAscii l := fun b hb => (hl.characters b hb).spec.1
      have hpos := hl.pos
      have hle := hl.length_le
      rw [List.map_cons, List.sum_cons] at h
      have hrefused : ¬(Idna.punycodePrefix.isPrefixOf l || l == ascii "-") = true := by
        rw [Bool.or_eq_true, List.isPrefixOf_iff_prefix, beq_iff_eq, not_or]
        exact ⟨hl.plain, fun heq => hl.head (by rw [heq]; rfl)⟩
      rw [Idna.encodeLabels, if_neg hrefused, Idna.encodeLabel_ascii hascii]
      simp only [Except.bind, Bool.true_and]
      rw [if_neg (by rw [Bool.or_eq_true, decide_eq_true_eq, decide_eq_true_eq]; omega),
        if_neg (by rw [Bool.or_eq_true, decide_eq_true_eq, decide_eq_true_eq]; omega), ih hls (by omega)]
      rfl

theorem sum_length (ls : List Bytes) : (ls.map List.length).sum + ls.length = (labelsWire ls).length := by
  induction ls with
  | nil => rfl
  | cons l ls ih =>
      rw [List.map_cons, List.sum_cons, labelsWire_cons, List.length_cons, List.length_cons, List.length_append]
      omega

namespace HostName

theorem labels_length (h : HostName n ls) : ∀ l ∈ ls, 1 ≤ l.length ∧ l.length ≤ 63 := fun l hl =>
  ⟨(h.labels l hl).pos, (h.labels l hl).length_le⟩

theorem wire_length (h : HostName n ls) : (labelsWire ls).length = n.length + 1 := by
  rw [h.eq, length_intercalate h.ne_nil]

theorem splitOn (h : HostName n ls) : n.splitOn '.'.toUInt8 = ls := by
  rw [h.eq]
  exact List.splitOn_intercalate _ (fun l hl hmem => ((h.labels l hl).characters _ hmem).spec.2.2 rfl) h.ne_nil

theorem character (h : HostName n ls) (hb : b ∈ n) : b = 0x2e ∨ IsLabelCharacter b := by
  rw [h.eq] at hb
  exact (Lib.mem_intercalate hb).imp id fun ⟨l, hl, hb⟩ => (h.labels l hl).characters b hb

theorem head (h : HostName n ls) : n.head? ≠ some 0x2d := by
  obtain ⟨l, rest, rfl⟩ := List.exists_cons_of_ne_nil h.ne_nil
  have hl := h.labels l List.mem_cons_self
  rw [h.eq]
  cases rest with
  | nil =>
      rw [List.intercalate_singleton]
      exact hl.head
  | cons l' rest =>
      rw [List.intercalate_cons_cons, List.append_assoc, List.head?_append_of_ne_nil _ hl.ne_nil]
      exact hl.head

/-- The last character is that of the last label. -/
theorem last (h : HostName n ls) : n.getLast? ≠ some 0x2d ∧ n.getLast? ≠ some 0x2e := by
  obtain ⟨init, l, rfl⟩ : ∃ init l, ls = init ++ [l] := (List.eq_nil_or_concat' ls).resolve_left h.ne_nil
  have hl := h.labels l (List.mem_append_right _ (List.mem_singleton_self l))
  have hlast : n.getLast? = l.getLast? := by
    rw [h.eq]
    by_cases hinit : init = []
    · rw [hinit, List.nil_append, List.intercalate_singleton]
    · rw [Lib.intercalate_concat hinit, List.getLast?_append_of_ne_nil _ hl.ne_nil]
  rw [hlast]
  exact ⟨hl.last, fun hdot => (hl.characters _ (List.mem_of_getLast? hdot)).spec.2.2 rfl⟩

/-- `domain_to_ascii` leaves such a name as it is. -/
theorem domainToAscii (h : HostName n ls) : Idna.domainToAscii true n = .ok n := by
  have hascii : Idna.IsAscii n := fun b hb => by
    rcases h.character hb with rfl | hb
    · decide
    · exact hb.spec.1
  have hlower : toLower n = n := by
    rw [toLower, List.map_congr_left (g := id) fun b hb => ?_, List.map_id]
    rcases h.character hb with rfl | hb
    · rfl
    · exact hb.spec.2.1
  have hlabels : Idna.labels n = ls := h.splitOn
  have hneeds : ls.any Idna.needsPunycodeEncode = false := by
    rw [List.any_eq_false]
    intro l hl
    rw [Idna.needsPunycodeEncode_ascii fun b hb => ((h.labels l hl).characters b hb).spec.1]
    exact Bool.false_ne_true
  have hhyphen : Idna.hyphenOutside n = false := by
    rw [Idna.hyphenOutside, Bool.or_eq_false_iff, beq_eq_false_iff_ne, beq_eq_false_iff_ne]
    exact ⟨h.head, h.last.1⟩
  have hsum := sum_length ls
  have hcount := List.length_pos_of_ne_nil h.ne_nil
  have hwire := h.wire_length
  have hlength := h.length_le
  have hpass : Idna.encodeLabels true 0 ls = .ok ls := encodeLabels_hostLabels h.labels (by omega)
  rw [Idna.domainToAscii, Idna.processing_ascii hascii, hlower]
  simp only [Except.bind, hhyphen, hlabels, hpass, hneeds, Except.map, Bool.false_eq_true, if_false]

theorem encodeName (h : HostName n ls) (storage : Bytes) :
    encodeName storage n = ⟨n.length + 2, storage ++ (labelsWire ls ++ [0]), none⟩ := by
  have hdot : n ≠ ['.'.toUInt8] := fun heq => h.last.2 (by rw [heq]; rfl)
  have hnil : n ≠ [] := by
    rintro rfl
    have hpos := h.wire_length
    obtain ⟨l, rest, rfl⟩ := List.exists_cons_of_ne_nil h.ne_nil
    have hl := (h.labels l List.mem_cons_self).pos
    rw [labelsWire_cons, List.length_cons, List.length_append, List.length_nil] at hpos
    omega
  have hpop : popDot n = n := if_neg h.last.2
  have hlength := h.length_le
  rw [Dns.encodeName, if_neg hdot, h.domainToAscii]
  dsimp only
  rw [if_neg (not_or.2 ⟨hnil, hdot⟩), hpop, if_neg (by rw [maxFormattedDomain]; omega), h.splitOn,
    encodeNameLoop_eq h.labels_length _ _ _ (by have := List.length_pos_of_ne_nil h.ne_nil; omega), h.wire_length,
    List.append_assoc, Nat.zero_add]

theorem parseDomainName (h : HostName n ls) (whole : Bytes) (pos depth : Nat) (rest out : Bytes) :
    parseDomainName whole (depth + 1) ⟨pos, labelsWire ls ++ [0] ++ rest⟩ out = some ⟨n.length + 2, out ++ n, none⟩ := by
  have hwire := h.wire_length
  have hlength := h.length_le
  have hfrom : LabelsFrom 0 ls := labelsFrom_of_length h.labels_length (by omega)
  have hpop : popDot (out ++ labelsText ls) = out ++ n := by
    rw [labelsText_eq h.ne_nil, ← h.eq, ← List.append_assoc, popDot, List.getLast?_concat, if_pos rfl, List.dropLast_concat]
  rw [Dns.parseDomainName, readPart_root (b := ⟨pos, labelsWire ls ++ [0] ++ rest⟩) (List.append_assoc _ _ _) hfrom, hpop,
    hwire]

end HostName

/-- A name is written behind what is in the storage, and read from what is written, whatever stands behind it. -/
theorem encodeName_parse (h : HostName n ls) (storage : Bytes) : ∃ wire, wire.length = n.length + 2 ∧
    encodeName storage n = ⟨n.length + 2, storage ++ wire, none⟩ ∧
      ∀ (whole : Bytes) (pos depth : Nat) (rest out : Bytes),
        parseDomainName whole (depth + 1) ⟨pos, wire ++ rest⟩ out = some ⟨n.length + 2, out ++ n, none⟩ := by
  refine ⟨labelsWire ls ++ [0], ?_, h.encodeName storage, h.parseDomainName⟩
  rw [List.length_append, h.wire_length]
  rfl

theorem encodeName_parse_host : ∃ wire, wire.length = (ascii "ab.c1").length + 2 ∧
    encodeName [1] (ascii "ab.c1") = ⟨(ascii "ab.c1").length + 2, [1] ++ wire, none⟩ ∧
      ∀ (whole : Bytes) (pos depth : Nat) (rest out : Bytes),
        parseDomainName whole (depth + 1) ⟨pos, wire ++ rest⟩ out =
          some ⟨(ascii "ab.c1").length + 2, out ++ ascii "ab.c1", none⟩ := by
  have hlabel (l : Bytes) (hl : l ∈ [ascii "ab", ascii "c1"]) : HostLabel l := by
    rcases List.mem_pair.1 hl with rfl | rfl <;>
      exact ⟨by decide, by decide, by unfold IsLabelCharacter; decide +kernel, by decide, by decide, by decide⟩
  exact encodeName_parse ⟨by decide, by decide, hlabel, by decide⟩ [1]

end Rad.Dns
