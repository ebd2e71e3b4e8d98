import Rad.Text.Lemmas.Codecs

/-!
# Conversions between UTF-8, UTF-16 and UTF-32

A well-formed text is converted without a loss to a text that is counted exactly. Other texts are refused, or what cannot
be decoded in them is replaced.
-/

namespace Rad

/-- The encoding forms, each in the byte orders that its units can have. -/
inductive Utf where
  | utf8
  | utf16 (rw : ReaderWriter)
  | utf32 (rw : ReaderWriter)

namespace Utf

/-- The value type of a codec. -/
def Unit (form : Utf) : Type :=
  match form with
  | utf8 => UInt8
  | utf16 _ => UInt16
  | utf32 _ => UInt32

instance (form : Utf) : Inhabited form.Unit :=
  match form with
  | utf8 => inferInstanceAs (Inhabited UInt8)
  | utf16 _ => inferInstanceAs (Inhabited UInt16)
  | utf32 _ => inferInstanceAs (Inhabited UInt32)

def codecvt (host : Endian) (form : Utf) : CodeCvt form.Unit :=
  match form with
  | utf8 => utf8Codecvt
  | utf16 rw => utf16Codecvt host rw
  | utf32 rw => utf32Codecvt host rw

/-- The well-formed texts of a form, by the tables and not by what a decoder does. -/
def WellFormed (host : Endian) (form : Utf) (t : List form.Unit) : Prop :=
  match form, t with
  | utf8, t => Utf8WellFormed t
  | utf16 rw, t => Utf16WellFormed (List.map (rw.read bswap16 host) t)
  | utf32 rw, t => Utf32WellFormed (List.map (rw.read bswap32 host) t)

theorem lawful (host : Endian) (form : Utf) : (form.codecvt host).Lawful := by
  cases form with
  | utf8 => exact utf8_lawful
  | utf16 rw => exact utf16_lawful host rw
  | utf32 rw => exact utf32_lawful host rw

/-- Whether the units can be read and written. The types of a byte are never exchanged. -/
def returns (host : Endian) (type : UnitType) (form : Utf) : Bool :=
  match form with
  | utf8 => true
  | utf16 rw | utf32 rw => rw.returns host type

theorem isText_iff {host : Endian} {form : Utf} {t : List form.Unit} :
    (form.lawful host).code.IsText t ↔ form.WellFormed host t := by
  cases form with
  | utf8 => exact utf8_isText_iff
  | utf16 rw => exact utf16_isText_iff
  | utf32 rw => exact utf32_isText_iff

end Utf

section

variable {υ ω : Type} {source : CodeCvt υ} {target : CodeCvt ω} (hs : source.Lawful) (ht : target.Lawful)

include ht in
/-- What a text of one code is converted to is a text of the other one, with the same code points. -/
theorem spells_converted {cps : List Nat} {text : List υ} (h : hs.code.Spells cps text) :
    ht.code.Spells cps (cps.flatMap target.encodeUnchecked) := ⟨h.1, rfl⟩

end

theorem convert_wellFormed {host : Endian} {source target : Utf} {s : List source.Unit} (hwell : source.WellFormed host s)
    (out : List target.Unit) :
    ∃ units : List target.Unit, (units ≠ [] → s ≠ []) ∧
      calcLength (source.codecvt host) (target.codecvt host) s = .ok units.length ∧
      convert (source.codecvt host) (target.codecvt host) s out = some ⟨units.length, out ++ units, none⟩ ∧
      ∀ back, convert (target.codecvt host) (source.codecvt host) units back = some ⟨s.length, back ++ s, none⟩ := by
  have hs := source.lawful host
  have ht := target.lawful host
  obtain ⟨cps, h⟩ := Utf.isText_iff.2 hwell
  obtain ⟨hlength, hconvert⟩ := convert_of_spells hs ht h out
  refine ⟨_, fun hne hnil => ?_, hlength, hconvert, fun back => ?_⟩
  · cases cps with
    | nil => exact hne rfl
    | cons cp cps => exact hs.code.word_ne_nil (h.1 cp List.mem_cons_self) (List.append_eq_nil_iff.1 (h.2.trans hnil)).1
  · obtain ⟨-, hback⟩ := convert_of_spells ht hs (spells_converted hs ht h) back
    have htext : cps.flatMap (source.codecvt host).encodeUnchecked = s := h.2
    rwa [htext] at hback

/-! ## Types of units -/

section

variable (host : Endian) (source target : Utf) (sourceType targetType : UnitType)

/-- `utf_converter::convert` into a string, for units of the given types. There is no result where a unit is read or
written and the reader or writer does not return: units are written only when the whole text is decoded. -/
def convertUnits (s : List source.Unit) (out : List target.Unit) : Option (Conversion target.Unit) :=
  if s.isEmpty then convert (source.codecvt host) (target.codecvt host) s out
  else if !source.returns host sourceType then none
  else if (calcLength (source.codecvt host) (target.codecvt host) s).isOk && !target.returns host targetType then none
  else convert (source.codecvt host) (target.codecvt host) s out

/-- A well-formed text is converted without a loss to as many units as are counted, and another one is refused. -/
def Lossless (s : List source.Unit) : Prop :=
  (source.WellFormed host s → ∀ out, ∃ units : List target.Unit,
    calcLength (source.codecvt host) (target.codecvt host) s = .ok units.length ∧
    convertUnits host source target sourceType targetType s out = some ⟨units.length, out ++ units, none⟩ ∧
    ∀ back, convertUnits host target source targetType sourceType units back = some ⟨s.length, back ++ s, none⟩) ∧
  (¬source.WellFormed host s → ∀ out, ∃ e,
    convertUnits host source target sourceType targetType s out = some ⟨0, out, some e⟩)

variable {host source target sourceType targetType} {s : List source.Unit} {out : List target.Unit}

theorem convertUnits_eq (hs : s ≠ [] → source.returns host sourceType = true)
    (ht : s ≠ [] → (calcLength (source.codecvt host) (target.codecvt host) s).isOk = true →
      target.returns host targetType = true) :
    convertUnits host source target sourceType targetType s out =
      convert (source.codecvt host) (target.codecvt host) s out := by
  unfold convertUnits
  split
  · rfl
  · rename_i hne
    rw [List.isEmpty_iff] at hne
    rw [hs hne]
    cases hok : (calcLength (source.codecvt host) (target.codecvt host) s).isOk with
    | false => rfl
    | true =>
        rw [ht hne hok]
        rfl

theorem convertUnits_eq_none (hne : s ≠ []) (h : source.returns host sourceType = true →
      (calcLength (source.codecvt host) (target.codecvt host) s).isOk = true ∧ target.returns host targetType = false) :
    convertUnits host source target sourceType targetType s out = none := by
  rw [convertUnits, if_neg (mt List.isEmpty_iff.1 hne)]
  cases hs : source.returns host sourceType with
  | false => rfl
  | true =>
      rw [(h hs).1, (h hs).2]
      rfl

/-- The conversion of a text does what it is for if and only if it has no unit, or its units can be read and those of the
target, for a well-formed text, can be written. -/
theorem convert_lossless_iff (host : Endian) (source target : Utf) (sourceType targetType : UnitType)
    (s : List source.Unit) :
    Lossless host source target sourceType targetType s ↔
      s = [] ∨ source.returns host sourceType = true ∧
        (source.WellFormed host s → target.returns host targetType = true) := by
  constructor
  · rintro ⟨hwell, hill⟩
    by_contra hnot
    simp only [not_or, not_and] at hnot
    obtain ⟨hne, hreturns⟩ := hnot
    by_cases h : source.WellFormed host s
    · obtain ⟨units, hlength, hconvert, -⟩ := hwell h []
      rw [convertUnits_eq_none hne fun hs => ⟨by rw [hlength]; rfl, ?_⟩] at hconvert
      · cases hconvert
      · exact Bool.eq_false_iff.2 fun ht => hreturns hs fun _ => ht
    · obtain ⟨e, hconvert⟩ := hill h []
      rw [convertUnits_eq_none hne fun hs => absurd (fun hwell' => absurd hwell' h) (hreturns hs)] at hconvert
      cases hconvert
  · intro hcond
    have hs (hne : s ≠ []) : source.returns host sourceType = true := (hcond.resolve_left hne).1
    refine ⟨fun hwell out => ?_, fun hill out => ?_⟩
    · have ht (hne : s ≠ []) : target.returns host targetType = true := (hcond.resolve_left hne).2 hwell
      obtain ⟨units, hnil, hlength, hconvert, hback⟩ := convert_wellFormed hwell out
      refine ⟨units, hlength, (convertUnits_eq hs fun hne _ => ht hne).trans hconvert, fun back => ?_⟩
      exact (convertUnits_eq (fun hne => ht (hnil hne)) fun hne _ => hs (hnil hne)).trans (hback back)
    · obtain ⟨e, hlength, hconvert⟩ : ∃ e,
          calcLength (source.codecvt host) (target.codecvt host) s = .error e ∧
            convert (source.codecvt host) (target.codecvt host) s out = some ⟨0, out, some e⟩ :=
        convert_of_not_isText (source.lawful host) (mt Utf.isText_iff.1 hill) out
      refine ⟨e, (convertUnits_eq hs fun _ hok => ?_).trans hconvert⟩
      rw [hlength] at hok
      cases hok

/-- A big-endian "a" in a `u16string`, on a little-endian host. -/
theorem convert_char16_undefined :
    ¬∀ (host : Endian) (source target : Utf) (sourceType targetType : UnitType) (s : List source.Unit),
      Lossless host source target sourceType targetType s := by
  intro h
  have hwell : (Utf.utf16 .be).WellFormed .little [(0x6100 : UInt16)] := .unit (by decide) .nil
  obtain ⟨units, -, hconvert, -⟩ := (h .little (.utf16 .be) .utf8 .char .uint [(0x6100 : UInt16)]).1 hwell []
  have hnone := @convertUnits_eq_none .little (.utf16 .be) .utf8 .char .uint [(0x6100 : UInt16)] []
    (List.cons_ne_nil _ _) fun hreturns => absurd hreturns (by decide)
  cases hnone.symm.trans hconvert

end

/-! ## Replacement -/

/-- No code point is decoded at the beginning of the text. -/
def Undecodable (t : Bytes) : Prop := ∀ cp rest, utf8Decode t ≠ (.ok cp, rest)

theorem Undecodable.error {t : Bytes} (h : Undecodable t) : ∃ e rest, utf8Decode t = (.error e, rest) := by
  cases hdecode : utf8Decode t with
  | mk r rest =>
      cases r with
      | ok cp => exact absurd hdecode (h cp rest)
      | error e => exact ⟨e, rest, rfl⟩

/-- What is not decoded is not decoded when it is cut. -/
theorem Undecodable.take {t : Bytes} (h : Undecodable t) (n : Nat) : Undecodable (t.take n) := by
  intro cp rest hdecode
  have := utf8Decode_append hdecode (t.drop n)
  rw [List.take_append_drop] at this
  exact h _ _ this

/-- The code points that a replacing conversion takes from the text. -/
def decodedCodepoints (text : Bytes) : List Nat := (replaceTurns utf8Codecvt utf8_skips text).filterMap id

/-- The conversion of the text is that of `u`, one or more replacements and that of `v`, and the code points of `u` and
`v` are what is taken from it. -/
def KeepsText (host : Endian) (target : Utf) (u b v : Bytes) (out : List target.Unit) : Prop :=
  ∃ (first last : List target.Unit) (k : Nat),
    convert utf8Codecvt (target.codecvt host) u [] = some ⟨first.length, first, none⟩ ∧
      convert utf8Codecvt (target.codecvt host) v [] = some ⟨last.length, last, none⟩ ∧ 1 ≤ k ∧
        (let replacement := (target.codecvt host).encodeUnchecked replacementCodepoint
         let units := first ++ (List.replicate k replacement).flatten ++ last
         convertReplace utf8Codecvt (target.codecvt host) utf8_skips (u ++ b ++ v) out =
           some (units.length, out ++ units)) ∧
          decodedCodepoints (u ++ b ++ v) = decodedCodepoints u ++ decodedCodepoints v

end Rad
