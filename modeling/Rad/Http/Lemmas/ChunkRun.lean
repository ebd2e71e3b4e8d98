import Rad.Http.Lemmas.FieldLines
import Rad.Http.Chunks
import Rad.Http.ChunkedBody

/-!
# Chunked bodies that are well-formed

The parsers of the parts of a chunk, followed through a body in front of any text.
-/

namespace Rad.Http

open Lib

/-! ## The format of chunked bodies

What a chunked body consists of, with the data and the extensions that it carries. Names of extensions may stand alone when
nothing follows them, or white space and a semicolon.
-/

def IsWs (text : Bytes) : Prop := ∀ b ∈ text, isHttpWs b = true

/-- The value of an extension: a token, or any text between quotes. -/
inductive ExtensionValue : Bytes → Bytes → Prop where
  | token {value : Bytes} (h : IsToken value) : ExtensionValue value value
  | quoted {value : Bytes} (h : ∀ b ∈ value, b ≠ 0x22 ∧ isQdtext b = true) :
    ExtensionValue value (0x22 :: (value ++ [0x22]))

mutual

/-- The extensions between a size and the end of its line. -/
inductive Extensions : Headers → Bytes → Prop where
  | nil : Extensions [] []
  | semicolon {calls : Headers} {before text : Bytes} (hbefore : IsWs before) (h : ExtensionNames calls text) :
    Extensions calls (before ++ 0x3b :: text)

/-- The extensions behind a semicolon. -/
inductive ExtensionNames : Headers → Bytes → Prop where
  | last {gap name : Bytes} (hgap : IsWs gap) (hname : IsToken name) : ExtensionNames [(name, [])] (gap ++ name)
  | bare {calls : Headers} {gap name behind text : Bytes} (hgap : IsWs gap) (hname : IsToken name) (hbehind : IsWs behind)
    (hne : behind ≠ []) (h : ExtensionNames calls text) :
    ExtensionNames ((name, []) :: calls) (gap ++ (name ++ (behind ++ 0x3b :: text)))
  | value {calls : Headers} {gap name behind before value valueText text : Bytes} (hgap : IsWs gap) (hname : IsToken name)
    (hbehind : IsWs behind) (hbefore : IsWs before) (hvalue : ExtensionValue value valueText) (h : Extensions calls text) :
    ExtensionNames ((name, value) :: calls) (gap ++ (name ++ (behind ++ 0x3d :: (before ++ (valueText ++ text)))))

end

/-- The line with the size of a chunk. -/
inductive SizeLine : Nat → Headers → Bytes → Prop where
  | mk {digits : Bytes} {calls : Headers} {text : Bytes} (hne : digits ≠ []) (hlen : digits.length ≤ hexBuffSize)
    (hdigits : ∀ b ∈ digits, isHttpHexDigit b = true) (h : Extensions calls text) :
    SizeLine (hexValue digits) calls (digits ++ (text ++ crlf))

/-- Chunks up to the line of the last one, with the data and the extensions that they carry. -/
inductive Chunks : Bytes → Headers → Bytes → Prop where
  | last {calls : Headers} {line : Bytes} (h : SizeLine 0 calls line) : Chunks [] calls line
  | chunk {data datas line text : Bytes} {calls calls' : Headers} (hne : data ≠ []) (hline : SizeLine data.length calls line)
    (h : Chunks datas calls' text) :
    Chunks (data ++ datas) (calls ++ calls') (line ++ (data ++ (crlf ++ text)))

/-- A chunked body with its trailers. -/
structure ChunkedBody (data : Bytes) (extensions trailers : Headers) (body : Bytes) : Prop where
  wellFormed : trailers.WellFormed
  text : ∃ chunks fields, Chunks data extensions chunks ∧ FieldLines trailers fields ∧ body = chunks ++ (fields ++ crlf)

/-! ## Texts that have a callback called -/

/-- The value of an extension and the character behind it. -/
inductive ValueEnd : Bytes → Prop where
  | token {value rest : Bytes} {b : UInt8} (h : IsToken value) (hb : isHttpTchar b = false) : ValueEnd (value ++ b :: rest)
  | quoted {value rest : Bytes} {b : UInt8} (h : ∀ c ∈ value, c ≠ 0x22 ∧ isQdtext c = true) :
    ValueEnd (0x22 :: (value ++ 0x22 :: b :: rest))

/-- What is behind the name of an extension that is there as a whole. -/
inductive NameEnd : Bytes → Prop where
  | last {rest : Bytes} {b : UInt8} (hb : isHttpTchar b = false) (hws : isHttpWs b = false) (hequals : b ≠ 0x3d) :
    NameEnd (b :: rest)
  | bare {behind rest : Bytes} (hbehind : IsWs behind) : NameEnd (behind ++ 0x3b :: rest)
  | value {behind before rest : Bytes} (hbehind : IsWs behind) (hbefore : IsWs before) (h : ValueEnd rest) :
    NameEnd (behind ++ 0x3d :: (before ++ rest))

/-- A text that begins with an extension. -/
inductive ExtensionFirst : Bytes → Prop where
  | mk {before gap name rest : Bytes} (hbefore : IsWs before) (hgap : IsWs gap) (hname : IsToken name) (h : NameEnd rest) :
    ExtensionFirst (before ++ 0x3b :: (gap ++ (name ++ rest)))

/-- A text that begins with a field, up to the end of its line. -/
inductive FieldFirst : Bytes → Prop where
  | mk {name before value rest : Bytes} (hname : IsToken name) (hbefore : IsWs before)
    (hvalue : ∀ b ∈ value, isFieldVchar b = true ∨ isHttpWs b = true) (hstart : ∀ b, value.head? = some b → isHttpWs b = false)
    (hlength : iequal name contentLengthField = true → (toUint64 (value.rdropWhile isHttpWs)).2 = true) :
    FieldFirst (name ++ 0x3a :: (before ++ (value ++ 0x0d :: rest)))

/-- A text with an extension of a chunk or a trailer: chunks without extensions are in front of the first one. -/
inductive CallsBack : Bytes → Prop where
  | extension {digits rest : Bytes} (hne : digits ≠ []) (hlen : digits.length ≤ hexBuffSize)
    (hdigits : ∀ b ∈ digits, isHttpHexDigit b = true) (h : ExtensionFirst rest) : CallsBack (digits ++ rest)
  | trailer {line rest : Bytes} (hline : SizeLine 0 [] line) (h : FieldFirst rest) : CallsBack (line ++ rest)
  | chunk {line data rest : Bytes} (hne : data ≠ []) (hline : SizeLine data.length [] line) (h : CallsBack rest) :
    CallsBack (line ++ (data ++ (crlf ++ rest)))

/-! ## Characters -/

theorem tchar_notWs {b : UInt8} (h : isHttpTchar b = true) : isHttpWs b = false := by
  cases hws : isHttpWs b with
  | false => rfl
  | true =>
      simp only [isHttpWs, isHttpSp, Bool.or_eq_true, beq_iff_eq] at hws
      rcases hws with rfl | rfl
      · exact absurd h (by decide)
      · exact absurd h (by decide)

theorem ws_notTchar {b : UInt8} (h : isHttpWs b = true) : isHttpTchar b = false := by
  cases htchar : isHttpTchar b with
  | false => rfl
  | true => rw [tchar_notWs htchar] at h; cases h

/-- A text that begins with no white space. -/
def StartsFree (text : Bytes) : Prop := ∃ b u, text = b :: u ∧ isHttpWs b = false

/-- A text that begins with no character of a token. -/
def EndsToken (text : Bytes) : Prop := ∃ b u, text = b :: u ∧ isHttpTchar b = false

theorem startsFree_append {x : Bytes} (hne : x ≠ []) (hx : ∀ b ∈ x, isHttpTchar b = true) (u : Bytes) :
    StartsFree (x ++ u) := by
  cases x with
  | nil => exact absurd rfl hne
  | cons b x => exact ⟨b, x ++ u, rfl, tchar_notWs (hx b List.mem_cons_self)⟩

theorem endsToken_ws {ws : Bytes} (hws : IsWs ws) {u : Bytes} (hu : EndsToken u) : EndsToken (ws ++ u) := by
  cases ws with
  | nil => exact hu
  | cons b ws => exact ⟨b, ws ++ u, rfl, ws_notTchar (hws b List.mem_cons_self)⟩

/-! ## Extensions -/

section

variable {η : Type*} {cb : ChunkExtensionCallback η} {f : η → Bytes → Bytes → η}

theorem extensionsMachine_turn : (extensionsMachine cb).turn = extensionsTurn cb := rfl

theorem extToken_finished {token x u : Bytes} (hx : ∀ b ∈ x, isHttpTchar b = true) (hu : EndsToken u) :
    parseExtTokenNameValue token (x ++ u) = .finished (token ++ x) u := by
  obtain ⟨b, u, rfl, hb⟩ := hu
  rw [parseExtTokenNameValue, scanToken_append]
  · rw [scanToken]
    simp [hb]
  · exact fun y b z hsplit => if_pos (hx b (by simp [hsplit]))

variable {ctx : ParseChunkExtensionsContext} {env : η} {rest : Bytes}

theorem extensions_bws {next : ExtensionsNext} (hstage : ctx.stage = .bws next) {gap : Bytes} (hgap : IsWs gap)
    (hrest : StartsFree rest) :
    (extensionsMachine cb).run (ctx, env) (gap ++ rest) =
      (extensionsMachine cb).run ({ ctx with stage := next.stage }, env) rest := by
  obtain ⟨b, u, rfl, hb⟩ := hrest
  have hows : consumeOws (gap ++ b :: u) = b :: u := by
    rw [consumeOws, List.dropWhile_append_of_pos hgap, List.dropWhile_cons_of_neg (by rw [hb]; simp)]
  refine Machine.run_next_of (List.append_ne_nil_of_right_ne_nil _ (List.cons_ne_nil _ _)) fun ch tail h => ?_
  simp only [extensionsMachine_turn, extensionsTurn, hstage]
  rw [← h, hows]

theorem extensions_semicolon (hstage : ctx.stage = .check) {before : Bytes} (hbefore : IsWs before) :
    (extensionsMachine cb).run (ctx, env) (before ++ 0x3b :: rest) =
      (extensionsMachine cb).run ({ ctx with stage := .bws .name }, env) rest := by
  cases before with
  | nil =>
      refine Machine.run_next ?_
      simp only [extensionsMachine_turn, extensionsTurn, hstage]
      rfl
  | cons b before =>
      have hws : (extensionsMachine cb).turn (ctx, env) b (before ++ 0x3b :: rest) =
          .next ({ ctx with stage := .bws .colon }, env) (before ++ 0x3b :: rest) := by
        simp only [extensionsMachine_turn, extensionsTurn, hstage]
        exact if_pos (hbefore b List.mem_cons_self)
      refine (Machine.run_next hws).trans ?_
      refine (extensions_bws rfl (fun b hb => hbefore b (List.mem_cons_of_mem _ hb)) ⟨0x3b, rest, rfl, rfl⟩).trans ?_
      exact Machine.run_next rfl

/-- There is no extension left. -/
theorem extensions_end (hstage : ctx.stage = .check) :
    (extensionsMachine cb).run (ctx, env) (0x0d :: rest) = ⟨({ ctx with stage := .done }, env), 0x0d :: rest, none⟩ := by
  refine Machine.run_stop ?_
  simp only [extensionsMachine_turn, extensionsTurn, hstage]
  rfl

section

variable {name : Bytes} (hstage : ctx.stage = .name) (hnil : ctx.name = []) (hname : IsToken name)

include hstage hnil hname

/-- The last name, in front of a character that ends the extensions. -/
theorem extensions_last (hcall : ∀ env name value, callExtension cb env name value = (f env name value, none)) :
    (extensionsMachine cb).run (ctx, env) (name ++ 0x0d :: rest) =
      ⟨({ ctx with name := [], stage := .done }, f env name []), 0x0d :: rest, none⟩ := by
  have hscan : parseExtTokenNameValue ctx.name (name ++ 0x0d :: rest) = .finished name (0x0d :: rest) := by
    rw [hnil]
    exact extToken_finished hname.2 ⟨0x0d, rest, rfl, rfl⟩
  obtain ⟨ch, tail, h⟩ := List.exists_cons_of_ne_nil (List.append_ne_nil_of_left_ne_nil hname.1 (0x0d :: rest))
  rw [h]
  refine Machine.run_stop ?_
  simp only [extensionsMachine_turn, extensionsTurn, hstage]
  rw [← h, hscan]
  simp only [if_neg hname.1, hcall]
  rfl

/-- A name in front of white space. -/
theorem extensions_name_ws {b : UInt8} (hb : isHttpWs b = true) :
    (extensionsMachine cb).run (ctx, env) (name ++ b :: rest) =
      (extensionsMachine cb).run ({ ctx with name, stage := .bws .eqOrColon }, env) (b :: rest) := by
  have hscan : parseExtTokenNameValue ctx.name (name ++ b :: rest) = .finished name (b :: rest) := by
    rw [hnil]
    exact extToken_finished hname.2 ⟨b, rest, rfl, ws_notTchar hb⟩
  have hother : b ≠ 0x3d := by
    rintro rfl
    cases hb
  refine Machine.run_next_of (List.append_ne_nil_of_left_ne_nil hname.1 _) fun ch tail h => ?_
  simp only [extensionsMachine_turn, extensionsTurn, hstage]
  rw [← h, hscan]
  simp only [if_neg hname.1, if_neg hother, if_pos hb]

/-- A name that a semicolon follows, behind white space. -/
theorem extensions_bare (hcall : ∀ env name value, callExtension cb env name value = (f env name value, none))
    {behind : Bytes} (hbehind : IsWs behind) (hne : behind ≠ []) :
    (extensionsMachine cb).run (ctx, env) (name ++ (behind ++ 0x3b :: rest)) =
      (extensionsMachine cb).run ({ ctx with name := [], stage := .bws .name }, f env name []) rest := by
  obtain ⟨b, ws, rfl⟩ := List.exists_cons_of_ne_nil hne
  refine (extensions_name_ws hstage hnil hname (hbehind b List.mem_cons_self)).trans ?_
  change (extensionsMachine cb).run _ (b :: ws ++ 0x3b :: rest) = _
  refine (extensions_bws rfl hbehind ⟨0x3b, rest, rfl, rfl⟩).trans ?_
  refine Machine.run_next ?_
  simp only [extensionsMachine_turn, extensionsTurn, ExtensionsNext.stage, hcall]
  rfl

/-- A name that an equals sign follows. -/
theorem extensions_equals {behind : Bytes} (hbehind : IsWs behind) :
    (extensionsMachine cb).run (ctx, env) (name ++ (behind ++ 0x3d :: rest)) =
      (extensionsMachine cb).run ({ ctx with name, stage := .bws .valueStart }, env) rest := by
  cases behind with
  | nil =>
      have hscan : parseExtTokenNameValue ctx.name (name ++ 0x3d :: rest) = .finished name (0x3d :: rest) := by
        rw [hnil]
        exact extToken_finished hname.2 ⟨0x3d, rest, rfl, rfl⟩
      refine Machine.run_next_of (List.append_ne_nil_of_left_ne_nil hname.1 _) fun ch tail h => ?_
      simp only [extensionsMachine_turn, extensionsTurn, hstage]
      rw [← h, List.nil_append, hscan]
      simp only [if_neg hname.1, if_true]
  | cons b ws =>
      refine (extensions_name_ws hstage hnil hname (hbehind b List.mem_cons_self)).trans ?_
      change (extensionsMachine cb).run _ (b :: ws ++ 0x3d :: rest) = _
      refine (extensions_bws rfl hbehind ⟨0x3d, rest, rfl, rfl⟩).trans ?_
      exact Machine.run_next rfl

end

theorem extensions_value (hstage : ctx.stage = .bws .valueStart) (hnil : ctx.value = []) {before value valueText : Bytes}
    (hbefore : IsWs before) (hvalue : ExtensionValue value valueText) (hrest : EndsToken rest) :
    (extensionsMachine cb).run (ctx, env) (before ++ (valueText ++ rest)) =
      (extensionsMachine cb).run ({ ctx with value, stage := .reportNameValue }, env) rest := by
  cases hvalue with
  | token h =>
      refine (extensions_bws hstage hbefore (startsFree_append h.1 h.2 rest)).trans ?_
      obtain ⟨b, token, rfl⟩ := List.exists_cons_of_ne_nil h.1
      have hb := h.2 b List.mem_cons_self
      have hquote : b ≠ 0x22 := by
        rintro rfl
        exact absurd hb (by decide)
      have hstart : (extensionsMachine cb).turn ({ ctx with stage := .valueStart }, env) b (token ++ rest) =
          .next ({ ctx with value := [b], stage := .tokenValue }, env) (token ++ rest) := by
        simp only [extensionsMachine_turn, extensionsTurn]
        rw [if_neg hquote, if_pos hb, hnil]
        rfl
      have hscan : parseExtTokenNameValue [b] (token ++ rest) = .finished (b :: token) rest :=
        extToken_finished (fun c hc => h.2 c (List.mem_cons_of_mem _ hc)) hrest
      obtain ⟨c, u, rfl, -⟩ := hrest
      refine (Machine.run_next hstart).trans ?_
      refine Machine.run_next_of (List.append_ne_nil_of_right_ne_nil _ (List.cons_ne_nil _ _)) fun ch tail htext => ?_
      simp only [extensionsMachine_turn, extensionsTurn]
      rw [← htext, hscan]
  | quoted h =>
      have hstarts : StartsFree (0x22 :: (value ++ [0x22]) ++ rest) := ⟨0x22, _, rfl, rfl⟩
      refine (extensions_bws hstage hbefore hstarts).trans ?_
      have hstart : (extensionsMachine cb).turn ({ ctx with stage := .valueStart }, env) 0x22 (value ++ [0x22] ++ rest) =
          .next ({ ctx with stage := .quotedValue }, env) (value ++ [0x22] ++ rest) := rfl
      have hscan : parseQdtext ctx.value (value ++ [0x22] ++ rest) = .finished value rest := by
        rw [hnil, parseQdtext, List.append_assoc, scanToken_append]
        · rfl
        · intro y b z hsplit
          obtain ⟨hquote, hqdtext⟩ := h b (by simp [hsplit])
          exact (if_neg hquote).trans (if_pos hqdtext)
      refine (Machine.run_next hstart).trans ?_
      have hne : value ++ [0x22] ++ rest ≠ [] :=
        List.append_ne_nil_of_left_ne_nil (List.append_ne_nil_of_right_ne_nil _ (List.cons_ne_nil _ _)) _
      refine Machine.run_next_of hne fun ch tail htext => ?_
      simp only [extensionsMachine_turn, extensionsTurn]
      rw [← htext, hscan]

theorem extensions_report (hcall : ∀ env name value, callExtension cb env name value = (f env name value, none))
    (hstage : ctx.stage = .reportNameValue) (hrest : EndsToken rest) :
    (extensionsMachine cb).run (ctx, env) rest =
      (extensionsMachine cb).run ({ ctx with name := [], value := [], stage := .check }, f env ctx.name ctx.value) rest := by
  obtain ⟨b, u, rfl, -⟩ := hrest
  refine Machine.run_next ?_
  simp only [extensionsMachine_turn, extensionsTurn, hstage, hcall]

theorem extensions_endsToken {calls : Headers} {text : Bytes} (h : Extensions calls text) (rest : Bytes) :
    EndsToken (text ++ 0x0d :: rest) := by
  cases h with
  | nil => exact ⟨0x0d, rest, rfl, rfl⟩
  | semicolon hbefore _ =>
      rw [List.append_assoc]
      exact endsToken_ws hbefore ⟨0x3b, _, rfl, rfl⟩

mutual

/-- The extensions are reported in order. -/
theorem run_extensions (hcall : ∀ env name value, callExtension cb env name value = (f env name value, none)) :
    ∀ {calls : Headers} {text : Bytes} (_ : Extensions calls text) (env : η) (rest : Bytes),
    (extensionsMachine cb).run ({}, env) (text ++ 0x0d :: rest) =
      ⟨({ stage := .done }, calls.foldl (fun env call => f env call.1 call.2) env), 0x0d :: rest, none⟩
  | _, _, .nil, _, _ => extensions_end rfl
  | _, _, .semicolon hbefore h, env, rest => by
      rw [List.append_assoc]
      exact (extensions_semicolon rfl hbefore).trans (run_extensionNames hcall h env rest)

theorem run_extensionNames (hcall : ∀ env name value, callExtension cb env name value = (f env name value, none)) :
    ∀ {calls : Headers} {text : Bytes} (_ : ExtensionNames calls text) (env : η) (rest : Bytes),
    (extensionsMachine cb).run ({ stage := .bws .name }, env) (text ++ 0x0d :: rest) =
      ⟨({ stage := .done }, calls.foldl (fun env call => f env call.1 call.2) env), 0x0d :: rest, none⟩
  | _, _, .last hgap hname, env, rest => by
      rw [List.append_assoc]
      refine (extensions_bws rfl hgap (startsFree_append hname.1 hname.2 _)).trans ?_
      exact extensions_last rfl rfl hname hcall
  | _, _, .bare hgap hname hbehind hne h, env, rest => by
      simp only [List.append_assoc, List.cons_append]
      refine (extensions_bws rfl hgap (startsFree_append hname.1 hname.2 _)).trans ?_
      refine (extensions_bare rfl rfl hname hcall hbehind hne).trans ?_
      exact run_extensionNames hcall h _ rest
  | _, _, .value hgap hname hbehind hbefore hvalue h, env, rest => by
      simp only [List.append_assoc, List.cons_append]
      refine (extensions_bws rfl hgap (startsFree_append hname.1 hname.2 _)).trans ?_
      refine (extensions_equals rfl rfl hname hbehind).trans ?_
      refine (extensions_value rfl rfl hbefore hvalue (extensions_endsToken h rest)).trans ?_
      refine (extensions_report hcall rfl (extensions_endsToken h rest)).trans ?_
      exact run_extensions hcall h _ rest

end

theorem parseChunkExtensions_extensions
    (hcall : ∀ env name value, callExtension cb env name value = (f env name value, none)) {calls : Headers} {text : Bytes}
    (h : Extensions calls text) (env : η) (rest : Bytes) :
    parseChunkExtensions cb {} env (text ++ 0x0d :: rest) =
      ⟨({ stage := .done }, calls.foldl (fun env call => f env call.1 call.2) env), 0x0d :: rest, none⟩ := by
  change (extensionsMachine cb).parse _ _ _ _ = _
  rw [Machine.parse, run_extensions hcall h]
  rfl

end

/-! ## Sizes -/

theorem hexDigitValue_lt {b : UInt8} (h : isHttpHexDigit b = true) : hexDigitValue b < 16 := by
  simp only [isHttpHexDigit, isDigit, Bool.or_eq_true, Bool.and_eq_true, decide_eq_true_eq, UInt8.le_iff_toNat_le] at h
  simp only [hexDigitValue, isDigit, Bool.and_eq_true, decide_eq_true_eq, UInt8.le_iff_toNat_le]
  simp at h ⊢
  split_ifs <;> omega

theorem hexValue_lt {digits : Bytes} (h : ∀ b ∈ digits, isHttpHexDigit b = true) : hexValue digits < 16 ^ digits.length := by
  have hfold : ∀ (digits : Bytes) (n : Nat), (∀ b ∈ digits, isHttpHexDigit b = true) →
      digits.foldl (fun n ch => 16 * n + hexDigitValue ch) n < (n + 1) * 16 ^ digits.length := by
    intro digits
    induction digits with
    | nil =>
        intro n _
        simp
    | cons b digits ih =>
        intro n h
        have hb := hexDigitValue_lt (h b List.mem_cons_self)
        refine (ih _ fun c hc => h c (List.mem_cons_of_mem _ hc)).trans_le ?_
        rw [List.length_cons, Nat.pow_succ', ← Nat.mul_assoc]
        refine Nat.mul_le_mul_right _ ?_
        change 16 * n + hexDigitValue b + 1 ≤ (n + 1) * 16
        omega
  exact (hfold digits 0 h).trans_eq (by simp)

theorem toSizeHex_digits {digits : Bytes} (hne : digits ≠ []) (hlen : digits.length ≤ hexBuffSize)
    (hdigits : ∀ b ∈ digits, isHttpHexDigit b = true) : toSizeHex digits = (hexValue digits, true) := by
  have htake : digits.takeWhile isHttpHexDigit = digits := List.takeWhile_eq_self_iff.2 hdigits
  have hlt : hexValue digits < 2 ^ 64 :=
    (hexValue_lt hdigits).trans_le ((Nat.pow_le_pow_right (by decide) hlen).trans_eq (by decide))
  simp only [toSizeHex, htake, if_neg hne, if_neg (Nat.not_le.2 hlt), beq_self_eq_true]

theorem chunkSizeMachine_turn : chunkSizeMachine.turn = chunkSizeTurn := rfl

theorem chunkSize_digits {digits : Bytes} (hdigits : ∀ b ∈ digits, isHttpHexDigit b = true) {buff : Bytes}
    (hlen : buff.length + digits.length ≤ hexBuffSize) (rest : Bytes) :
    chunkSizeMachine.run { hexBuff := buff } (digits ++ rest) = chunkSizeMachine.run { hexBuff := buff ++ digits } rest := by
  induction digits generalizing buff with
  | nil => rw [List.append_nil, List.nil_append]
  | cons b digits ih =>
      rw [List.length_cons] at hlen
      have hroom : ¬hexBuffSize ≤ buff.length := by omega
      have hturn : chunkSizeMachine.turn { hexBuff := buff } b (digits ++ rest) =
          .next { hexBuff := buff ++ [b] } (digits ++ rest) := by
        simp only [chunkSizeMachine_turn, chunkSizeTurn, hdigits b List.mem_cons_self, if_true, if_neg hroom]
      rw [List.cons_append, Machine.run_next hturn,
        ih (fun c hc => hdigits c (List.mem_cons_of_mem _ hc)) (by simp only [List.length_append, List.length_singleton]; omega),
        List.append_assoc]
      rfl

/-- A size in front of a character that ends it. -/
theorem parseChunkSize_digits {digits : Bytes} (hne : digits ≠ []) (hlen : digits.length ≤ hexBuffSize)
    (hdigits : ∀ b ∈ digits, isHttpHexDigit b = true) {b : UInt8} (hb : isHttpHexDigit b = false) (rest : Bytes) :
    parseChunkSize {} (digits ++ b :: rest) =
      ⟨{ hexBuff := digits, chunkSize := hexValue digits, stage := .done }, b :: rest, none⟩ := by
  have hturn : chunkSizeMachine.turn { hexBuff := digits } b rest =
      .stop { hexBuff := digits, chunkSize := hexValue digits, stage := .done } (b :: rest) := by
    simp only [chunkSizeMachine_turn, chunkSizeTurn, hb, if_neg hne, toSizeHex_digits hne hlen hdigits]
    rfl
  change chunkSizeMachine.parse _ _ _ _ = _
  rw [Machine.parse, chunkSize_digits hdigits (by simpa using hlen), List.nil_append, Machine.run_stop hturn]
  rfl

/-! ## Line endings and data -/

theorem parseChunkTrailingCrlf_crlf (rest : Bytes) :
    parseChunkTrailingCrlf {} (crlf ++ rest) = ⟨{ expectedChar := 0x0a, isDone := true }, rest, none⟩ := by
  change chunkTrailingCrlfMachine.parse _ _ _ (0x0d :: 0x0a :: rest) = _
  have hcr : chunkTrailingCrlfMachine.turn {} 0x0d (0x0a :: rest) = .next { expectedChar := 0x0a } (0x0a :: rest) := rfl
  have hlf : chunkTrailingCrlfMachine.turn { expectedChar := 0x0a } 0x0a rest =
      .next { expectedChar := 0x0a, isDone := true } rest := rfl
  rw [Machine.parse, Machine.run_next hcr, Machine.run_next hlf]
  cases rest with
  | nil =>
      rw [Machine.run_nil]
      rfl
  | cons b rest =>
      have hdone : chunkTrailingCrlfMachine.turn { expectedChar := 0x0a, isDone := true } b rest =
          .stop { expectedChar := 0x0a, isDone := true } (b :: rest) := rfl
      rw [Machine.run_stop hdone]
      rfl

theorem parseChunkData_data (data out rest : Bytes) :
    parseChunkData { size := data.length } out (data ++ rest) = ⟨({}, out ++ data), rest, none⟩ := by
  cases data with
  | nil => simp [parseChunkData]
  | cons b data => simp [parseChunkData]

/-! ## Chunks -/

section

variable {η : Type*} {cb : ChunkExtensionCallback η} {trailersCb : HeaderCallback η} {f : η → Bytes → Bytes → η}

theorem chunksMachine_turn : (chunksMachine cb trailersCb).turn = chunksTurn cb trailersCb := rfl

variable (hcall : ∀ env name value, callExtension cb.ofVariable env name value = (f env name value, none))

include hcall

theorem run_sizeLine {n : Nat} {calls : Headers} {line : Bytes} (h : SizeLine n calls line) {size : Nat} (out : Bytes) (env : η)
    (rest : Bytes) :
    (chunksMachine cb trailersCb).run ⟨size, .size {}, out, env⟩ (line ++ rest) =
      (chunksMachine cb trailersCb).run ⟨n, .data { size := n }, out, calls.foldl (fun env call => f env call.1 call.2) env⟩
        rest := by
  cases h with
  | @mk digits calls text hne hlen hdigits h =>
      have hdigitsEnd : ∃ b u, text ++ 0x0d :: 0x0a :: rest = b :: u ∧ isHttpHexDigit b = false := by
        cases h with
        | nil => exact ⟨0x0d, 0x0a :: rest, rfl, rfl⟩
        | @semicolon calls before text hbefore _ =>
            cases before with
            | nil => exact ⟨0x3b, _, rfl, rfl⟩
            | cons b before =>
                refine ⟨b, _, rfl, ?_⟩
                have hb := hbefore b List.mem_cons_self
                simp only [isHttpWs, isHttpSp, Bool.or_eq_true, beq_iff_eq] at hb
                rcases hb with rfl | rfl <;> rfl
      obtain ⟨b, u, htext, hb⟩ := hdigitsEnd
      have hassoc : digits ++ (text ++ crlf) ++ rest = digits ++ (text ++ 0x0d :: 0x0a :: rest) := by
        rw [List.append_assoc, List.append_assoc]
        rfl
      have hsize : (chunksMachine cb trailersCb).run ⟨size, .size {}, out, env⟩ (digits ++ (text ++ 0x0d :: 0x0a :: rest)) =
          (chunksMachine cb trailersCb).run ⟨hexValue digits, .extensions {}, out, env⟩ (text ++ 0x0d :: 0x0a :: rest) := by
        refine Machine.run_next_of (List.append_ne_nil_of_left_ne_nil hne _) fun ch tail hsplit => ?_
        simp only [chunksMachine_turn, chunksTurn]
        rw [← hsplit, htext, parseChunkSize_digits hne hlen hdigits hb]
        rfl
      have hextensions : (chunksMachine cb trailersCb).run ⟨hexValue digits, .extensions {}, out, env⟩
            (text ++ 0x0d :: 0x0a :: rest) =
          (chunksMachine cb trailersCb).run ⟨hexValue digits, .crlfAfterSize {}, out,
            calls.foldl (fun env call => f env call.1 call.2) env⟩ (0x0d :: 0x0a :: rest) := by
        refine Machine.run_next_of (List.append_ne_nil_of_right_ne_nil _ (List.cons_ne_nil _ _)) fun ch tail hsplit => ?_
        simp only [chunksMachine_turn, chunksTurn]
        rw [← hsplit, parseChunkExtensions_extensions hcall h]
        rfl
      rw [hassoc, hsize, hextensions]
      refine Machine.run_next ?_
      simp only [chunksMachine_turn, chunksTurn]
      change (parseChunkTrailingCrlf {} (crlf ++ rest)).turn _ = _
      rw [parseChunkTrailingCrlf_crlf]
      rfl

omit hcall in
/-- The data of a chunk that is not the last one, and the line ending behind it. -/
theorem run_data {data : Bytes} (hne : data ≠ []) (out : Bytes) (env : η) (rest : Bytes) :
    (chunksMachine cb trailersCb).run ⟨data.length, .data { size := data.length }, out, env⟩ (data ++ (crlf ++ rest)) =
      (chunksMachine cb trailersCb).run ⟨data.length, .size {}, out ++ data, env⟩ rest := by
  have hlength : data.length ≠ 0 := fun h => hne (List.length_eq_zero_iff.1 h)
  have hdata : (chunksMachine cb trailersCb).run ⟨data.length, .data { size := data.length }, out, env⟩
        (data ++ (crlf ++ rest)) =
      (chunksMachine cb trailersCb).run ⟨data.length, .trailingCrlf {}, out ++ data, env⟩ (0x0d :: 0x0a :: rest) := by
    refine Machine.run_next_of (List.append_ne_nil_of_left_ne_nil hne _) fun ch tail hsplit => ?_
    simp only [chunksMachine_turn, chunksTurn]
    rw [← hsplit, parseChunkData_data]
    simp only [Outcome.turn, if_true, if_neg hlength]
    rfl
  rw [hdata]
  refine Machine.run_next ?_
  simp only [chunksMachine_turn, chunksTurn]
  change (parseChunkTrailingCrlf {} (crlf ++ rest)).turn _ = _
  rw [parseChunkTrailingCrlf_crlf]
  rfl

/-- The chunks up to the line of the last one. -/
theorem run_chunks {data : Bytes} {calls : Headers} {text : Bytes} (h : Chunks data calls text) (size : Nat) (out : Bytes)
    (env : η) (rest : Bytes) :
    (chunksMachine cb trailersCb).run ⟨size, .size {}, out, env⟩ (text ++ rest) =
      (chunksMachine cb trailersCb).run ⟨0, .data {}, out ++ data, calls.foldl (fun env call => f env call.1 call.2) env⟩
        rest := by
  induction h generalizing size out env with
  | last h =>
      rw [List.append_nil]
      exact run_sizeLine hcall h out env rest
  | chunk hne hline _ ih =>
      rw [List.append_assoc, run_sizeLine hcall hline, List.append_assoc, List.append_assoc, run_data hne, ih,
        List.append_assoc, List.foldl_append]

end

section

variable {η : Type*} {cb : ChunkExtensionCallback η} {g : η → Bytes → Bytes → η}

/-- What is behind the last chunk. -/
theorem run_trailers {trailers : Headers} (hwell : trailers.WellFormed) {fields : Bytes} (hfields : FieldLines trailers fields)
    (out : Bytes) (env : η) (rest : Bytes) :
    (chunksMachine cb (some g)).run ⟨0, .data {}, out, env⟩ (fields ++ crlf ++ rest) =
      ⟨⟨0, .done, out, trailers.foldl (fun env header => g env header.1 header.2) env⟩, rest, none⟩ := by
  obtain ⟨ctx, hdone, hheaders⟩ := parseHeaders_fields (f := g) hwell hfields
  have hne : fields ++ crlf ++ rest ≠ [] :=
    List.append_ne_nil_of_left_ne_nil (List.append_ne_nil_of_right_ne_nil _ (by decide)) _
  have hdata : (chunksMachine cb (some g)).run ⟨0, .data {}, out, env⟩ (fields ++ crlf ++ rest) =
      (chunksMachine cb (some g)).run ⟨0, .headers {}, out, env⟩ (fields ++ crlf ++ rest) := by
    refine Machine.run_next_of hne fun ch tail hsplit => ?_
    rw [hsplit]
    rfl
  have htrailers : (chunksMachine cb (some g)).run ⟨0, .headers {}, out, env⟩ (fields ++ crlf ++ rest) =
      (chunksMachine cb (some g)).run ⟨0, .done, out, trailers.foldl (fun env header => g env header.1 header.2) env⟩ rest := by
    refine Machine.run_next_of hne fun ch tail hsplit => ?_
    simp only [chunksMachine_turn, chunksTurn]
    rw [← hsplit, hheaders]
    simp only [Outcome.turn, if_pos hdone]
  rw [hdata, htrailers]
  cases rest with
  | nil => exact Machine.run_nil
  | cons ch rest => exact Machine.run_stop rfl

end

end Rad.Http
