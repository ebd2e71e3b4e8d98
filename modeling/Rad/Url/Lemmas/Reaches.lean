import Rad.Url.Lemmas.Paths

/-!
# Runs of the parser over a text

A run goes from a spot of the text to another one, whatever the rest of the pointer is.
-/

namespace Rad.Url

/-- The variables of the loop, with the two texts for the pointer. -/
structure Spot where
  state : ParseState
  url : UrlRecord
  ctx : UrlParseContext
  before : Bytes
  rest : Bytes

/-- Every loop that is at the one spot comes to the other one. -/
def Reaches (base : Option UrlRecord) (s t : Spot) : Prop :=
  ∀ p : UrlPointer, p.At s.before s.rest →
    ∃ q : UrlPointer, q.At t.before t.rest ∧ Lib.Visits (pass base) ⟨s.state, s.url, s.ctx, p⟩ ⟨t.state, t.url, t.ctx, q⟩

/-- Every loop that is at the spot returns the result. -/
def Ends (base : Option UrlRecord) (s : Spot) (r : Except UrlError UrlRecord) : Prop :=
  ∀ p : UrlPointer, p.At s.before s.rest → Lib.Returns (pass base) ⟨s.state, s.url, s.ctx, p⟩ r

variable {base : Option UrlRecord} {s t u : Spot} {r : Except UrlError UrlRecord} {state state' : ParseState}
  {url url' : UrlRecord} {ctx ctx' : UrlParseContext} {before unit rest : Bytes}

theorem Reaches.refl (s : Spot) : Reaches base s s := fun p hp => ⟨p, hp, .refl⟩

theorem Reaches.trans (h : Reaches base s t) (h' : Reaches base t u) : Reaches base s u := by
  intro p hp
  obtain ⟨q, hq, hvisits⟩ := h p hp
  obtain ⟨q', hq', hvisits'⟩ := h' q hq
  exact ⟨q', hq', hvisits.trans hvisits'⟩

theorem Reaches.ends (h : Reaches base s t) (h' : Ends base t r) : Ends base s r := by
  intro p hp
  obtain ⟨q, hq, hvisits⟩ := h p hp
  exact hvisits.returns (h' q hq)

theorem Ends.parses {input : Bytes} (h : Ends base ⟨.schemeStart, {}, {}, [], ownedInput input⟩ r) :
    Parses base input r :=
  h _ (UrlPointer.at_ofInput _)

theorem Parses.unique {input : Bytes} {r r' : Except UrlError UrlRecord} (h : Parses base input r)
    (h' : Parses base input r') : r = r' :=
  Lib.Returns.unique h h'

/-! ## Turns -/

/-- A code point that is read in front of a text. -/
def codepointView (c : Nat) (unit rest : Bytes) : View := ⟨c, false, unit, rest, unit ++ rest⟩

theorem advance_of_decode {p : UrlPointer} {c : Nat} (hp : p.At before (unit ++ rest))
    (hdecode : utf8Decode (unit ++ rest) = (.ok c, rest)) :
    ∃ q, p.advance = .ok (c, q) ∧ q.Behind before unit rest ∧ q.view c = codepointView c unit rest := by
  have hne : unit ++ rest ≠ [] := by
    intro hnil
    rw [hnil] at hdecode
    cases hdecode
  obtain ⟨q, hq, hbehind⟩ := hp.advance_cons hne hdecode
  exact ⟨q, hq, hbehind, hbehind.view c⟩

/-- A turn after which the pointer is at the given texts. -/
theorem Reaches.turn {c : Nat} {move : Move} {before' rest' : Bytes}
    (hdecode : utf8Decode (unit ++ rest) = (.ok c, rest))
    (hrun : runState (codepointView c unit rest) base url ctx state = .ok ⟨state', url', ctx', move⟩)
    (hmove : ∀ q : UrlPointer, q.Behind before unit rest → (q.move move).At before' rest') :
    Reaches base ⟨state, url, ctx, before, unit ++ rest⟩ ⟨state', url', ctx', before', rest'⟩ := by
  intro p hp
  obtain ⟨q, hq, hbehind, hview⟩ := advance_of_decode hp hdecode
  rw [← hview] at hrun
  have hat := hmove q hbehind
  refine ⟨_, hat, .single ?_⟩
  rw [pass_of_turn hq hrun]
  simp only [hat.isEof, Bool.false_eq_true, if_false]

theorem Reaches.keep {c : Nat} (hdecode : utf8Decode (unit ++ rest) = (.ok c, rest))
    (hrun : runState (codepointView c unit rest) base url ctx state = .ok ⟨state', url', ctx', .keep⟩) :
    Reaches base ⟨state, url, ctx, before, unit ++ rest⟩ ⟨state', url', ctx', before ++ unit, rest⟩ :=
  .turn hdecode hrun fun _ hq => hq.keep

theorem Ends.decode_error {e : Errc} {tail : Bytes} (hne : rest ≠ []) (hdecode : utf8Decode rest = (.error e, tail)) :
    Ends base ⟨state, url, ctx, before, rest⟩ (.error .invalidUrlUnit) := by
  intro p hp
  exact .done (by simp only [pass, hp.advance_error hne hdecode])

/-! ## Turns of ASCII characters -/

section

variable {ch : UInt8}

/-- An ASCII character that is read in front of a text. -/
abbrev asciiView (ch : UInt8) (rest : Bytes) : View := codepointView ch.toNat [ch] rest

theorem Reaches.keep_ascii (hch : ch < 0x80)
    (hrun : runState (asciiView ch rest) base url ctx state = .ok ⟨state', url', ctx', .keep⟩) :
    Reaches base ⟨state, url, ctx, before, ch :: rest⟩ ⟨state', url', ctx', before ++ [ch], rest⟩ :=
  .keep (utf8Decode_ascii hch rest) hrun

/-- A character at the beginning of the text. -/
theorem Reaches.first_ascii (hch : ch < 0x80)
    (hrun : runState (asciiView ch rest) base url ctx state = .ok ⟨state', url', ctx', .keep⟩) :
    Reaches base ⟨state, url, ctx, [], ch :: rest⟩ ⟨state', url', ctx', [ch], rest⟩ :=
  .keep_ascii hch hrun

theorem Reaches.decrease_ascii (hch : ch < 0x80)
    (hrun : runState (asciiView ch rest) base url ctx state = .ok ⟨state', url', ctx', .decrease⟩) :
    Reaches base ⟨state, url, ctx, before, ch :: rest⟩ ⟨state', url', ctx', before, ch :: rest⟩ :=
  .turn (utf8Decode_ascii hch rest) hrun fun _ hq => hq.decrease

theorem Reaches.increase_ascii {ch' : UInt8} (hch : ch < 0x80)
    (hrun : runState (asciiView ch (ch' :: rest)) base url ctx state = .ok ⟨state', url', ctx', .increase⟩) :
    Reaches base ⟨state, url, ctx, before, ch :: ch' :: rest⟩ ⟨state', url', ctx', before ++ [ch] ++ [ch'], rest⟩ :=
  .turn (utf8Decode_ascii hch (ch' :: rest)) hrun fun _ hq => hq.increase

theorem Reaches.back_ascii {buffer : Bytes} (hch : ch < 0x80)
    (hrun : runState (asciiView ch rest) base url ctx state =
      .ok ⟨state', url', ctx', .decreaseByBytesPlus1Codepoint buffer.length⟩) :
    Reaches base ⟨state, url, ctx, before ++ buffer, ch :: rest⟩ ⟨state', url', ctx', before, buffer ++ ch :: rest⟩ :=
  .turn (utf8Decode_ascii hch rest) hrun fun _ hq => hq.back

/-- A state that puts what it reads into the buffer. -/
theorem reaches_chunk {chunk : Bytes} (ctx : UrlParseContext) (buffer : Bytes)
    (h : ∀ ch ∈ chunk, ch < 0x80 ∧ ∀ buffer rest, runState (asciiView ch rest) base url { ctx with buffer := buffer } state =
      .ok ⟨state, url, { ctx with buffer := buffer ++ [ch] }, .keep⟩) :
    Reaches base ⟨state, url, { ctx with buffer := buffer }, before, chunk ++ rest⟩
      ⟨state, url, { ctx with buffer := buffer ++ chunk }, before ++ chunk, rest⟩ := by
  induction chunk generalizing buffer before with
  | nil =>
      rw [List.append_nil, List.append_nil]
      exact .refl _
  | cons ch chunk ih =>
      obtain ⟨⟨hascii, hrun⟩, hchunk⟩ := List.forall_mem_cons.1 h
      have hstep : Reaches base ⟨state, url, { ctx with buffer := buffer }, before, ch :: (chunk ++ rest)⟩
          ⟨state, url, { ctx with buffer := buffer ++ [ch] }, before ++ [ch], chunk ++ rest⟩ :=
        .keep_ascii hascii (hrun buffer (chunk ++ rest))
      have hrest := hstep.trans (ih (buffer ++ [ch]) hchunk)
      rwa [List.append_assoc, List.append_assoc, List.singleton_append] at hrest

end

/-! ## The end of the text -/

theorem Reaches.turn_eof {move : Move} {before' rest' : Bytes}
    (hrun : ∀ unit substring, runState ⟨0, true, unit, [], substring⟩ base url ctx state = .ok ⟨state', url', ctx', move⟩)
    (hmove : ∀ q : UrlPointer, q.AtEof before → (q.move move).At before' rest') :
    Reaches base ⟨state, url, ctx, before, []⟩ ⟨state', url', ctx', before', rest'⟩ := by
  intro p hp
  obtain ⟨q, hq, heof⟩ := hp.advance_nil
  obtain ⟨unit, substring, hview⟩ := heof.view 0
  have hrun := hrun unit substring
  rw [← hview] at hrun
  have hat := hmove q heof
  refine ⟨_, hat, .single ?_⟩
  rw [pass_of_turn hq hrun]
  simp only [hat.isEof, Bool.false_eq_true, if_false]

theorem Reaches.decrease_eof
    (hrun : ∀ unit substring,
      runState ⟨0, true, unit, [], substring⟩ base url ctx state = .ok ⟨state', url', ctx', .decrease⟩) :
    Reaches base ⟨state, url, ctx, before, []⟩ ⟨state', url', ctx', before, []⟩ :=
  .turn_eof hrun fun _ hq => hq.decrease

theorem Reaches.back_eof {buffer : Bytes}
    (hrun : ∀ unit substring, runState ⟨0, true, unit, [], substring⟩ base url ctx state =
      .ok ⟨state', url', ctx', .decreaseByBytesPlus1Codepoint buffer.length⟩) :
    Reaches base ⟨state, url, ctx, before ++ buffer, []⟩ ⟨state', url', ctx', before, buffer⟩ :=
  .turn_eof hrun fun _ hq => hq.back

theorem Ends.eof
    (hrun : ∀ unit substring,
      runState ⟨0, true, unit, [], substring⟩ base url ctx state = .ok ⟨state', url', ctx', .keep⟩) :
    Ends base ⟨state, url, ctx, before, []⟩ (.ok (finish url' ctx')) := by
  intro p hp
  obtain ⟨q, hq, heof⟩ := hp.advance_nil
  obtain ⟨unit, substring, hview⟩ := heof.view 0
  have hrun := hrun unit substring
  rw [← hview] at hrun
  refine .done ?_
  rw [pass_of_turn hq hrun]
  simp only [UrlPointer.move, heof.isEof, if_true]

/-! ## Fragments -/

/-- The fragment is what is left of the text, if this can be decoded. -/
theorem ends_fragment (url : UrlRecord) (ctx : UrlParseContext) (before rest : Bytes) :
    Ends base ⟨.fragment, url, ctx, before, rest⟩
      (match utf8DecodeAll rest with
        | .ok _ =>
          .ok (finish { url with fragment := url.fragment ++ rest.flatMap (encodeByte fragmentPercentEncodeSet) } ctx)
        | .error _ => .error .invalidUrlUnit) := by
  -- one code point after the other
  induction rest using utf8DecodeAll.induct generalizing url before with
  | case1 =>
      rw [utf8DecodeAll_nil, List.flatMap_nil, List.append_nil]
      exact Ends.eof fun _ _ => rfl
  | case2 b rest c tail hdecode ih =>
      have htext := utf8Encode_of_decode hdecode
      have hvalid : isValidCodepoint c = true := by
        obtain ⟨-, -, -, -, -, -, hvalid, -⟩ := utf8Decode_ok hdecode
        exact hvalid
      rw [utf8DecodeAll_of_ok hdecode]
      rw [htext] at hdecode ⊢
      have hunit : utf8DecodeAll (utf8Encode c) = .ok [c] := by
        have hunit := utf8Decode_utf8Encode hvalid []
        rw [List.append_nil] at hunit
        rw [utf8DecodeAll_of_ok hunit, utf8DecodeAll_nil]
        rfl
      have hstep : Reaches base ⟨.fragment, url, ctx, before, utf8Encode c ++ tail⟩
          ⟨.fragment, { url with
            fragment := url.fragment ++ (utf8Encode c).flatMap (encodeByte fragmentPercentEncodeSet) }, ctx,
            before ++ utf8Encode c, tail⟩ := by
        refine .keep hdecode ?_
        simp only [runState, fragmentState, codepointView, Bool.not_false, if_true,
          percentEncodeSet_ok holdsHigh_fragment hunit]
        rfl
      refine hstep.ends ?_
      have hrest := ih { url with
        fragment := url.fragment ++ (utf8Encode c).flatMap (encodeByte fragmentPercentEncodeSet) } (before ++ utf8Encode c)
      rw [List.flatMap_append, ← List.append_assoc]
      cases hall : utf8DecodeAll tail with
      | ok cps => rw [hall] at hrest; exact hrest
      | error e => rw [hall] at hrest; exact hrest
  | case3 b rest e tail hdecode =>
      rw [utf8DecodeAll_of_error hdecode]
      exact Ends.decode_error (List.cons_ne_nil _ _) hdecode

/-! ## The beginning of a URL is read

The scheme that a URL begins with is read to the place where the states go different ways, with every base.
-/

variable {base : Option UrlRecord} {scheme before rest : Bytes} {ch : UInt8}

/-! ## Schemes -/

theorem isSchemeCharacter_read (h : isSchemeCharacter ch = true) :
    ch < 0x80 ∧ (isAsciiAlphanumeric ch.toNat || ch.toNat == 0x2b || ch.toNat == 0x2d || ch.toNat == 0x2e) = true ∧
      getAsciiLowercase ch.toNat = ch := by
  have hall : ∀ ch : UInt8, (!isSchemeCharacter ch || (decide (ch < 0x80) &&
      (isAsciiAlphanumeric ch.toNat || ch.toNat == 0x2b || ch.toNat == 0x2d || ch.toNat == 0x2e) &&
        getAsciiLowercase ch.toNat == ch)) = true := forall_byte (by decide +kernel)
  have hch := hall ch
  rw [h, Bool.not_true, Bool.false_or, Bool.and_eq_true, Bool.and_eq_true, decide_eq_true_eq, beq_iff_eq] at hch
  exact ⟨hch.1.1, hch.1.2, hch.2⟩

theorem isSchemeHead_read (h : isSchemeHead ch = true) : isAsciiAlpha ch.toNat = true := by
  simp only [isSchemeHead, Bool.and_eq_true, decide_eq_true_eq, UInt8.le_iff_toNat_le, UInt8.reduceToNat] at h
  rw [isAsciiAlpha, isAsciiLowercaseAlpha, decide_eq_true h.1, decide_eq_true h.2, Bool.and_true, Bool.true_or]

theorem reaches_scheme_chunk (chunk buffer : Bytes) (h : ∀ ch ∈ chunk, isSchemeCharacter ch = true) :
    Reaches base ⟨.scheme, {}, { buffer := buffer }, before, chunk ++ rest⟩
      ⟨.scheme, {}, { buffer := buffer ++ chunk }, before ++ chunk, rest⟩ := by
  refine reaches_chunk {} buffer fun ch hch => ?_
  obtain ⟨hascii, hcharacter, hlower⟩ := isSchemeCharacter_read (h ch hch)
  refine ⟨hascii, fun buffer rest => ?_⟩
  rw [runState, schemeState]
  simp only [codepointView, hcharacter, if_true, hlower]

theorem reaches_scheme (h : IsScheme scheme) :
    Reaches base ⟨.schemeStart, {}, {}, [], scheme ++ rest⟩ ⟨.scheme, {}, { buffer := scheme }, scheme, rest⟩ := by
  cases scheme with
  | nil => exact absurd rfl h.ne_nil
  | cons ch chunk =>
      have hhead : isSchemeHead ch = true := h.head
      obtain ⟨hch, hchunk⟩ := List.forall_mem_cons.1 h.characters
      obtain ⟨hascii, -, hlower⟩ := isSchemeCharacter_read hch
      have hstep : Reaches base ⟨.schemeStart, {}, {}, [], ch :: (chunk ++ rest)⟩
          ⟨.scheme, {}, { buffer := [ch] }, [ch], chunk ++ rest⟩ := by
        refine .first_ascii hascii ?_
        rw [runState, schemeStartState]
        simp only [codepointView, isSchemeHead_read hhead, if_true, hlower]
        rfl
      exact hstep.trans (reaches_scheme_chunk chunk [ch] hchunk)

/-! ## Behind the scheme -/

section

variable {buffer : Bytes}

/-- What the scheme state does at the colon. -/
theorem schemeState_colon (base : Option UrlRecord) (scheme rest : Bytes) :
    schemeState (asciiView 0x3a rest) base {} { buffer := scheme } =
      if scheme = ascii "file" then .ok ⟨.file, blank scheme, {}, .keep⟩
      else if base.any (fun base => isSpecialScheme scheme && base.scheme == scheme) then
        .ok ⟨.specialRelativeOrAuthority, blank scheme, {}, .keep⟩
      else if isSpecialScheme scheme then .ok ⟨.specialAuthoritySlashes, blank scheme, {}, .keep⟩
      else if rest.head? = some 0x2f then .ok ⟨.pathOrAuthority, blank scheme, {}, .increase⟩
      else
        .ok ⟨.opaquePath, { blank scheme with flags := { opaquePath := true, specialScheme := isSpecialScheme scheme } }, {},
          .keep⟩ := by
  rw [schemeState, show (asciiView 0x3a rest).c = 0x3a from rfl, if_neg (by decide), if_pos rfl]
  rfl

theorem reaches_fileHost :
    Reaches base ⟨.scheme, {}, { buffer := ascii "file" }, before, 0x3a :: 0x2f :: 0x2f :: rest⟩
      ⟨.fileHost, fileRecord, {}, before ++ [0x3a] ++ [0x2f] ++ [0x2f], rest⟩ := by
  have hcolon : Reaches base ⟨.scheme, {}, { buffer := ascii "file" }, before, 0x3a :: 0x2f :: 0x2f :: rest⟩
      ⟨.file, blank (ascii "file"), {}, before ++ [0x3a], 0x2f :: 0x2f :: rest⟩ :=
    .keep_ascii (by decide) (by rw [runState, schemeState_colon, if_pos rfl])
  have hfile : Reaches base ⟨.file, blank (ascii "file"), {}, before ++ [0x3a], 0x2f :: 0x2f :: rest⟩
      ⟨.fileSlash, fileRecord, {}, before ++ [0x3a] ++ [0x2f], 0x2f :: rest⟩ :=
    .keep_ascii (by decide) (by rw [runState, fileState_eq (.inr rfl), if_pos (.inl rfl)])
  have hslash : Reaches base ⟨.fileSlash, fileRecord, {}, before ++ [0x3a] ++ [0x2f], 0x2f :: rest⟩
      ⟨.fileHost, fileRecord, {}, before ++ [0x3a] ++ [0x2f] ++ [0x2f], rest⟩ :=
    .keep_ascii (by decide) (by rw [runState, fileSlashState, if_pos (.inl rfl)])
  exact (hcolon.trans hfile).trans hslash

/-- The two solidi are read in one of two ways. -/
theorem reaches_ignoreSlashes (hspecial : isSpecialScheme scheme = true) (hfile : scheme ≠ ascii "file") :
    Reaches base ⟨.scheme, {}, { buffer := scheme }, before, 0x3a :: 0x2f :: 0x2f :: rest⟩
      ⟨.specialAuthorityIgnoreSlashes, blank scheme, {}, before ++ [0x3a] ++ [0x2f] ++ [0x2f], rest⟩ := by
  cases hsame : base.any (fun base => isSpecialScheme scheme && base.scheme == scheme) with
  | true =>
      have hcolon : Reaches base ⟨.scheme, {}, { buffer := scheme }, before, 0x3a :: 0x2f :: 0x2f :: rest⟩
          ⟨.specialRelativeOrAuthority, blank scheme, {}, before ++ [0x3a], 0x2f :: 0x2f :: rest⟩ :=
        .keep_ascii (by decide) (by rw [runState, schemeState_colon, if_neg hfile, hsame, if_pos rfl])
      exact hcolon.trans (.increase_ascii (by decide) rfl)
  | false =>
      have hcolon : Reaches base ⟨.scheme, {}, { buffer := scheme }, before, 0x3a :: 0x2f :: 0x2f :: rest⟩
          ⟨.specialAuthoritySlashes, blank scheme, {}, before ++ [0x3a], 0x2f :: 0x2f :: rest⟩ :=
        .keep_ascii (by decide) (by
          rw [runState, schemeState_colon, if_neg hfile, hsame, if_neg Bool.false_ne_true, if_pos hspecial])
      exact hcolon.trans (.increase_ascii (by decide) rfl)

theorem any_special_false (hspecial : isSpecialScheme scheme = false) :
    base.any (fun base => isSpecialScheme scheme && base.scheme == scheme) = false := by
  cases base with
  | none => rfl
  | some b => rw [Option.any_some, hspecial, Bool.false_and]

theorem reaches_pathOrAuthority (hspecial : isSpecialScheme scheme = false) :
    Reaches base ⟨.scheme, {}, { buffer := scheme }, before, 0x3a :: 0x2f :: rest⟩
      ⟨.pathOrAuthority, blank scheme, {}, before ++ [0x3a] ++ [0x2f], rest⟩ := by
  refine .increase_ascii (by decide) ?_
  rw [runState, schemeState_colon, if_neg (ne_file_of_not_special hspecial), any_special_false hspecial, hspecial,
    if_neg Bool.false_ne_true, if_neg Bool.false_ne_true, if_pos List.head?_cons]

theorem reaches_opaquePath (hspecial : isSpecialScheme scheme = false) (hhead : rest.head? ≠ some 0x2f) :
    Reaches base ⟨.scheme, {}, { buffer := scheme }, before, 0x3a :: rest⟩
      ⟨.opaquePath, { blank scheme with flags := { opaquePath := true } }, {}, before ++ [0x3a], rest⟩ := by
  refine .keep_ascii (by decide) ?_
  rw [runState, schemeState_colon, if_neg (ne_file_of_not_special hspecial), any_special_false hspecial, hspecial,
    if_neg Bool.false_ne_true, if_neg Bool.false_ne_true, if_neg hhead]

end

/-! ## The text that is read -/

theorem filter_dropTrailing (chunk : Bytes) (rest : Bytes)
    (hchunk : ∀ ch ∈ chunk, isC0OrSpace ch = false ∧ isAsciiTabOrNewline ch = false) :
    removeTabsAndNewlines ((chunk ++ rest).rdropWhile isC0OrSpace) =
      chunk ++ removeTabsAndNewlines (rest.rdropWhile isC0OrSpace) := by
  have hfilter : removeTabsAndNewlines chunk = chunk :=
    List.filter_eq_self.2 fun ch hch => by rw [(hchunk ch hch).2, Bool.not_false]
  induction rest using List.reverseRecOn with
  | nil =>
      have hlast : chunk.rdropWhile isC0OrSpace = chunk := by
        rw [List.rdropWhile_eq_self_iff]
        intro hne
        rw [(hchunk _ (List.getLast_mem hne)).1]
        exact Bool.false_ne_true
      rw [List.append_nil, hlast, hfilter]
      exact (List.append_nil chunk).symm
  | append_singleton rest ch ih =>
      rw [← List.append_assoc, List.rdropWhile_concat, List.rdropWhile_concat]
      split
      · exact ih
      · rw [List.append_assoc, removeTabsAndNewlines, List.filter_append]
        exact congrArg (· ++ _) hfilter

/-- A beginning without controls and spaces stays. -/
theorem ownedInput_append {chunk : Bytes} (rest : Bytes) (hne : chunk ≠ [])
    (hchunk : ∀ ch ∈ chunk, isC0OrSpace ch = false ∧ isAsciiTabOrNewline ch = false) :
    ownedInput (chunk ++ rest) = chunk ++ removeTabsAndNewlines (rest.rdropWhile isC0OrSpace) := by
  have hdrop : (chunk ++ rest).dropWhile isC0OrSpace = chunk ++ rest := by
    cases chunk with
    | nil => exact absurd rfl hne
    | cons ch chunk => rw [List.cons_append, List.dropWhile_cons, (hchunk ch List.mem_cons_self).1, if_neg Bool.false_ne_true]
  rw [ownedInput, removeLeadingAndTrailingC0AndSpace, hdrop, filter_dropTrailing chunk rest hchunk]

theorem isSchemeCharacter_plain (h : isSchemeCharacter ch = true) :
    isC0OrSpace ch = false ∧ isAsciiTabOrNewline ch = false := by
  grind [isSchemeCharacter, isSchemeHead, isC0OrSpace, isAsciiTabOrNewline]

example : ownedInput (ascii " http:\t//a ") = ascii "http://a" := by decide +kernel

end Rad.Url
