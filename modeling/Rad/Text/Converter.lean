import Rad.Text.Codecvt

/-!
# The converter (include/rad/utf.h)

A pass that checks the text and counts the units, and a pass that checks nothing. What the second pass reads outside of
the text or writes outside of the span that it is given has no result. Two other passes replace what they cannot decode.
-/

namespace Rad

section

variable {υ ω : Type} (source : CodeCvt υ) (target : CodeCvt ω)

/-- The loop of `utf_converter::calc_length`, behind `len` units. -/
def calcLengthFrom (len : Nat) (text : List υ) : Except Errc Nat :=
  match text with
  | [] => .ok len
  | u :: text =>
    match _h : source.decode (u :: text) with
    | (.error e, _) => .error e
    | (.ok cp, rest) => calcLengthFrom (len + target.codepointSize cp) rest
  termination_by text.length
  decreasing_by exact source.decode_lt _h

/-- `utf_converter::calc_length`. -/
def calcLength (text : List υ) : Except Errc Nat := calcLengthFrom source target 0 text

/-- The units are stored one after the other. -/
def writeUnits (span : List ω) (pos : Nat) (units : List ω) : Option (List ω) :=
  match units with
  | [] => some span
  | u :: units => if pos < span.length then writeUnits (span.set pos u) (pos + 1) units else none

/-- The loop of `utf_converter::convert` into a span that is long enough: the count of written units and the span. -/
def convertSpanFrom (pos : Nat) (text : List υ) (span : List ω) : Option (Nat × List ω) :=
  match text with
  | [] => some (pos, span)
  | u :: text =>
    match _h : source.decodeUnchecked (u :: text) with
    | none => none
    | some (cp, rest) =>
      match writeUnits span pos (target.encodeUnchecked cp) with
      | none => none
      | some span => convertSpanFrom (pos + (target.encodeUnchecked cp).length) rest span
  termination_by text.length
  decreasing_by exact source.decodeUnchecked_lt _h

/-- What `utf_converter::convert` into a string gives: the count of written units, the string and the error. -/
structure Conversion (ω : Type) where
  encodedLen : Nat
  out : List ω
  ec : Option Errc
  deriving DecidableEq

variable [Inhabited ω]

/-- `utf_converter::convert` into a string. -/
def convert (text : List υ) (out : List ω) : Option (Conversion ω) :=
  if text.isEmpty then some ⟨0, out, none⟩
  else
    match calcLength source target text with
    | .error e => some ⟨0, out, some e⟩
    | .ok len =>
      (convertSpanFrom source target 0 text (.replicate len default)).map fun (n, span) => ⟨n, out ++ span, none⟩

end

/-! ## Replacement -/

section

variable {υ ω : Type} (source : CodeCvt υ) (target : CodeCvt ω)

/-- `detail::replacement_codepoint`. -/
def replacementCodepoint : Nat := 0xfffd

/-- What the replacing loops need: a failed decoder does not give more text back, and something is skipped. -/
structure CodeCvt.Skips (c : CodeCvt υ) : Prop where
  decode_le : ∀ {t e rest}, c.decode t = (.error e, rest) → rest.length ≤ t.length
  size_pos : 0 < c.codepointSize replacementCodepoint

/-- One turn of the replacing loops. Behind an error as many units are skipped as the replacement has. -/
def decodeOrSkip (text : List υ) : Option Nat × List υ :=
  match source.decode text with
  | (.ok cp, rest) => (some cp, rest)
  | (.error _, rest) => (none, rest.drop (source.codepointSize replacementCodepoint))

variable {source} in
theorem decodeOrSkip_lt (hskips : source.Skips) {u : υ} {text rest : List υ} {cp : Option Nat}
    (h : decodeOrSkip source (u :: text) = (cp, rest)) : rest.length < (u :: text).length := by
  rw [decodeOrSkip] at h
  split at h
  · rename_i hdecode
    cases h
    exact source.decode_lt hdecode
  · rename_i e rest' hdecode
    cases h
    have hle := hskips.decode_le hdecode
    have hpos := hskips.size_pos
    rw [List.length_cons] at hle ⊢
    rw [List.length_drop]
    omega

/-- The loop of `utf_converter::calc_length_replace`, behind `len` units. -/
def calcLengthReplaceFrom (hskips : source.Skips) (len : Nat) (text : List υ) : Nat :=
  match text with
  | [] => len
  | u :: text =>
    match _h : decodeOrSkip source (u :: text) with
    | (cp, rest) =>
      calcLengthReplaceFrom hskips (len + target.codepointSize (cp.getD replacementCodepoint)) rest
  termination_by text.length
  decreasing_by exact decodeOrSkip_lt hskips _h

/-- `utf_converter::calc_length_replace`. -/
def calcLengthReplace (hskips : source.Skips) (text : List υ) : Nat := calcLengthReplaceFrom source target hskips 0 text

/-- The loop of `utf_converter::convert_replace` into a span that is long enough. -/
def convertReplaceSpanFrom (hskips : source.Skips) (pos : Nat) (text : List υ) (span : List ω) :
    Option (Nat × List ω) :=
  match text with
  | [] => some (pos, span)
  | u :: text =>
    match _h : decodeOrSkip source (u :: text) with
    | (cp, rest) =>
      let units := target.encodeUnchecked (cp.getD replacementCodepoint)
      match writeUnits span pos units with
      | none => none
      | some span => convertReplaceSpanFrom hskips (pos + units.length) rest span
  termination_by text.length
  decreasing_by exact decodeOrSkip_lt hskips _h

/-- `utf_converter::convert_replace` into a string: the count of written units and the string. -/
def convertReplace [Inhabited ω] (hskips : source.Skips) (text : List υ) (out : List ω) : Option (Nat × List ω) :=
  if text.isEmpty then some (0, out)
  else
    (convertReplaceSpanFrom source target hskips 0 text
      (.replicate (calcLengthReplace source target hskips text) default)).map fun (n, span) => (n, out ++ span)

/-! ### What is replaced -/

/-- The turns of a replacing loop: the code points that are decoded, and nothing for an error. -/
def replaceTurns (hskips : source.Skips) (text : List υ) : List (Option Nat) :=
  match text with
  | [] => []
  | u :: text =>
    match _h : decodeOrSkip source (u :: text) with
    | (cp, rest) => cp :: replaceTurns hskips rest
  termination_by text.length
  decreasing_by exact decodeOrSkip_lt hskips _h

end

/-! ## Lawful codecs -/

/-- The decoders take what the encoder gives, and the sizes are those of what it gives. -/
structure CodeCvt.Lawful {υ : Type} (c : CodeCvt υ) : Prop where
  decode_iff : ∀ {t cp rest}, c.decode t = (.ok cp, rest) ↔ isValidCodepoint cp ∧ t = c.encodeUnchecked cp ++ rest
  decodeUnchecked_encode : ∀ {cp} rest, isValidCodepoint cp →
    c.decodeUnchecked (c.encodeUnchecked cp ++ rest) = some (cp, rest)
  codepointSize_eq : ∀ {cp}, isValidCodepoint cp → c.codepointSize cp = (c.encodeUnchecked cp).length

section

open Lib

variable {υ ω : Type} {source : CodeCvt υ} {target : CodeCvt ω}

/-- The code of a lawful codec. -/
def CodeCvt.Lawful.code (hs : source.Lawful) : Code Nat υ where
  valid cp := isValidCodepoint cp
  word := source.encodeUnchecked
  read t :=
    match source.decode t with
    | (.ok cp, rest) => some (cp, rest)
    | (.error _, _) => none
  word_ne_nil {cp} hvalid hnil := by
    have h := source.decode_lt (hs.decode_iff.2 ⟨hvalid, (List.append_nil (source.encodeUnchecked cp)).symm⟩)
    rw [hnil] at h
    exact Nat.lt_irrefl _ h
  read_iff {t cp rest} := by
    rw [← hs.decode_iff]
    cases h : source.decode t with
    | mk r rest' => cases r <;> simp

variable (hs : source.Lawful) (ht : target.Lawful) {cps : List Nat} {text : List υ}

theorem CodeCvt.Lawful.read_eq_none (h : hs.code.read text = none) : ∃ e rest, source.decode text = (.error e, rest) := by
  simp only [code] at h
  split at h
  · cases h
  · rename_i e rest hdecode
    exact ⟨e, rest, hdecode⟩

theorem calcLengthFrom_of_decode {len cp : Nat} {rest : List υ} (h : source.decode text = (.ok cp, rest)) :
    calcLengthFrom source target len text = calcLengthFrom source target (len + target.codepointSize cp) rest := by
  cases text with
  | nil => exact absurd (source.decode_lt h) (Nat.not_lt_zero _)
  | cons u text =>
      rw [calcLengthFrom]
      split
      · rename_i h'
        rw [h] at h'
        cases h'
      · rename_i h'
        rw [h] at h'
        cases h'
        rfl

theorem convertSpanFrom_of_decode {pos cp : Nat} {rest : List υ} {span span' : List ω}
    (h : source.decodeUnchecked text = some (cp, rest))
    (hwrite : writeUnits span pos (target.encodeUnchecked cp) = some span') :
    convertSpanFrom source target pos text span =
      convertSpanFrom source target (pos + (target.encodeUnchecked cp).length) rest span' := by
  cases text with
  | nil => exact absurd (source.decodeUnchecked_lt h) (Nat.not_lt_zero _)
  | cons u text =>
      rw [convertSpanFrom]
      split
      · rename_i h'
        rw [h] at h'
        cases h'
      · rename_i h'
        rw [h] at h'
        cases h'
        rw [hwrite]

/-- Units that fit are written behind what is written, and what is behind them stays. -/
theorem writeUnits_append (done units old rest : List ω) (h : old.length = units.length) :
    writeUnits (done ++ (old ++ rest)) done.length units = some (done ++ (units ++ rest)) := by
  induction units generalizing done old with
  | nil => rw [List.length_eq_zero_iff.1 h]; rfl
  | cons u units ih =>
      cases old with
      | nil => cases h
      | cons o old =>
          have hlen : done.length < (done ++ (o :: old ++ rest)).length := by
            rw [List.length_append, List.cons_append, List.length_cons]
            omega
          have hset : (done ++ (o :: old ++ rest)).set done.length u = (done ++ [u]) ++ (old ++ rest) := by
            rw [List.set_append_right _ _ (Nat.le_refl _), Nat.sub_self, List.cons_append, List.set_cons_zero,
              List.append_assoc, List.singleton_append]
          have hwrite := ih (done ++ [u]) old (Nat.succ.inj h)
          rw [List.length_append, List.length_singleton] at hwrite
          rw [writeUnits, if_pos hlen, hset, hwrite, List.append_assoc, List.singleton_append, List.cons_append]

/-! ## The passes -/

include ht in
/-- The counting pass over a text gives the units of its code points. -/
theorem calcLengthFrom_of_spells (h : hs.code.Spells cps text) (len : Nat) :
    calcLengthFrom source target len text = .ok (len + (cps.flatMap target.encodeUnchecked).length) := by
  induction cps generalizing text len with
  | nil =>
      rw [← h.2, List.flatMap_nil, calcLengthFrom]
      rfl
  | cons cp cps ih =>
      obtain ⟨hvalid, rest, rfl, hrest⟩ := Code.spells_cons_iff.1 h
      have hdecode : source.decode (hs.code.word cp ++ rest) = (.ok cp, rest) := hs.decode_iff.2 ⟨hvalid, rfl⟩
      rw [calcLengthFrom_of_decode hdecode, ih hrest, List.flatMap_cons, List.length_append,
        ht.codepointSize_eq hvalid, Nat.add_assoc]

/-- What is no text is refused by the counting pass. -/
theorem calcLengthFrom_of_not_isText (h : ¬hs.code.IsText text) (len : Nat) :
    ∃ e, calcLengthFrom source target len text = .error e := by
  induction hn : text.length using Nat.strongRecOn generalizing text len with
  | ind n ih =>
      cases hread : hs.code.read text with
      | some r =>
          obtain ⟨cp, rest⟩ := r
          rw [calcLengthFrom_of_decode (hs.decode_iff.2 (hs.code.read_iff.1 hread))]
          rw [Code.isText_iff_of_read hread] at h
          exact ih _ (hn ▸ Code.length_lt_of_read hread) h _ rfl
      | none =>
          obtain ⟨e, rest, hdecode⟩ := hs.read_eq_none hread
          cases text with
          | nil => exact absurd Code.isText_nil h
          | cons u text =>
              refine ⟨e, ?_⟩
              rw [calcLengthFrom]
              split
              · rename_i h'
                rw [hdecode] at h'
                cases h'
                rfl
              · rename_i h'
                rw [hdecode] at h'
                cases h'

/-- The writing pass over a text of `cps` fills a span of as many units as their encodings have. -/
theorem convertSpanFrom_of_spells (h : hs.code.Spells cps text) (done old : List ω)
    (hlen : old.length = (cps.flatMap target.encodeUnchecked).length) :
    convertSpanFrom source target done.length text (done ++ old) =
      some ((done ++ cps.flatMap target.encodeUnchecked).length, done ++ cps.flatMap target.encodeUnchecked) := by
  induction cps generalizing text done old with
  | nil =>
      rw [← h.2, List.flatMap_nil, convertSpanFrom, List.flatMap_nil, List.length_eq_zero_iff.1 hlen, List.append_nil]
  | cons cp cps ih =>
      obtain ⟨hvalid, rest, rfl, hrest⟩ := Code.spells_cons_iff.1 h
      rw [List.flatMap_cons, List.length_append] at hlen
      have htake : (old.take (target.encodeUnchecked cp).length).length = (target.encodeUnchecked cp).length := by
        rw [List.length_take]
        omega
      have hdrop : (old.drop (target.encodeUnchecked cp).length).length =
          (cps.flatMap target.encodeUnchecked).length := by
        rw [List.length_drop]
        omega
      have hwrite := writeUnits_append done (target.encodeUnchecked cp) _ (old.drop (target.encodeUnchecked cp).length)
        htake
      rw [List.take_append_drop, ← List.append_assoc done] at hwrite
      have hdecode : source.decodeUnchecked (hs.code.word cp ++ rest) = some (cp, rest) :=
        hs.decodeUnchecked_encode _ hvalid
      rw [convertSpanFrom_of_decode hdecode hwrite, ← List.length_append,
        ih hrest _ _ hdrop, List.flatMap_cons, List.append_assoc]

variable [Inhabited ω]

include ht in
/-- A text is converted to the encoding of its code points, behind what the string holds. -/
theorem convert_of_spells (h : hs.code.Spells cps text) (out : List ω) :
    calcLength source target text = .ok (cps.flatMap target.encodeUnchecked).length ∧
      convert source target text out =
        some ⟨(cps.flatMap target.encodeUnchecked).length, out ++ cps.flatMap target.encodeUnchecked, none⟩ := by
  have hlength : calcLength source target text = .ok (cps.flatMap target.encodeUnchecked).length := by
    rw [calcLength, calcLengthFrom_of_spells hs ht h, Nat.zero_add]
  refine ⟨hlength, ?_⟩
  have hspan := convertSpanFrom_of_spells hs h [] (.replicate (cps.flatMap target.encodeUnchecked).length default)
    List.length_replicate
  simp only [List.nil_append, List.length_nil] at hspan
  rw [convert, hlength]
  cases text with
  | nil =>
      cases cps with
      | nil => simp
      | cons cp cps =>
          exact absurd (List.append_eq_nil_iff.1 h.2).1 (hs.code.word_ne_nil (h.1 cp List.mem_cons_self))
  | cons u text => simp only [List.isEmpty_cons, Bool.false_eq_true, ↓reduceIte, hspan, Option.map_some]

/-- What is no text is refused, and the string stays as it was. -/
theorem convert_of_not_isText (h : ¬hs.code.IsText text) (out : List ω) :
    ∃ e, calcLength source target text = .error e ∧ convert source target text out = some ⟨0, out, some e⟩ := by
  obtain ⟨e, he⟩ := calcLengthFrom_of_not_isText hs h 0
  refine ⟨e, he, ?_⟩
  rw [convert, calcLength, he]
  cases text with
  | nil => exact absurd Code.isText_nil h
  | cons u text => rfl

end

/-! ## The replacing passes -/

section

variable {υ ω : Type} {source : CodeCvt υ} {target : CodeCvt ω} (hskips : source.Skips)

end

end Rad
