import Rad.Http.Lemmas.TrailerCalls

/-!
# Chunked bodies that have a null callback called

The parts of a chunked body in front of the first extension or trailer, and the turns in which no callback is called.
-/

namespace Rad.Http

open Lib

section

variable {η : Type*}

/-- The run comes to a call. -/
def BodyUndefined (s : ChunksState η) (t : Bytes) : Prop := ((chunksMachine none none).run s t).error = some .undefined

variable {s : ChunksState η} {size : Nat} {out t : Bytes} {env : η}

theorem bodyUndefined_nil : ¬BodyUndefined s [] := by
  rw [BodyUndefined, Machine.run_nil]
  nofun

/-- The turn of a part fails, or the run goes on behind it. -/
theorem bodyUndefined_part {τ : Type*} {o : Outcome τ UInt8 Error} {f : τ → ChunksState η} {ch : UInt8}
    (hturn : chunksTurn none none s ch t = o.turn f) :
    BodyUndefined s (ch :: t) ↔ o.error = some .undefined ∨ o.error = none ∧ BodyUndefined (f o.state) o.rest := by
  cases herror : o.error with
  | none =>
      have hnext : (chunksMachine none none).turn s ch t = .next (f o.state) o.rest := by
        rw [chunksMachine_turn, hturn, Outcome.turn, herror]
      rw [BodyUndefined, Machine.run_next hnext, ← BodyUndefined]
      simp
  | some e =>
      have hfail : (chunksMachine none none).turn s ch t = .fail (f o.state) o.rest e := by
        rw [chunksMachine_turn, hturn, Outcome.turn, herror]
      rw [BodyUndefined, Machine.run_fail hfail]
      simp

theorem bodyUndefined_done (hstage : s.stage = .done) : ¬BodyUndefined s t := by
  cases t with
  | nil => exact bodyUndefined_nil
  | cons ch t =>
      have hstop : (chunksMachine none none).turn s ch t = .stop s (ch :: t) := by
        simp only [chunksMachine_turn, chunksTurn, hstage]
      rw [BodyUndefined, Machine.run_stop hstop]
      simp

/-! ## Behind the last chunk -/

theorem fieldFirst_ne_nil (h : FieldFirst t) : t ≠ [] := by
  cases h with
  | mk hname _ _ _ _ => exact List.append_ne_nil_of_left_ne_nil hname.1 _

theorem parseHeaders_undefined : (parseHeaders none {} env t).error = some .undefined ↔ FieldFirst t := by
  rw [← @headersUndefined_new η env]
  change ((headersMachine none).parse _ _ _ _).error = _ ↔ _
  rw [Machine.parse_error rfl, HeadersUndefined]

theorem bodyUndefined_headers : BodyUndefined ⟨size, .headers {}, out, env⟩ t ↔ FieldFirst t := by
  cases t with
  | nil => exact iff_of_false bodyUndefined_nil fun h => fieldFirst_ne_nil h rfl
  | cons ch t =>
      refine (bodyUndefined_part (by simp only [chunksTurn]; rfl)).trans ?_
      rw [parseHeaders_undefined]
      refine or_iff_left ?_
      rintro ⟨herror, hbehind⟩
      split at hbehind
      · exact bodyUndefined_done rfl hbehind
      · rename_i hdone
        rw [((parseHeaders_parses none).all (s := ({}, env)) herror).resolve_right hdone] at hbehind
        exact bodyUndefined_nil hbehind

/-! ## Line endings -/

theorem parseChunkTrailingCrlf_cases (t : Bytes) :
    (∃ u, t = crlf ++ u) ∨ (parseChunkTrailingCrlf {} t).error = some .badLineEnding ∨
      (parseChunkTrailingCrlf {} t).error = none ∧ (parseChunkTrailingCrlf {} t).state.isDone = false ∧
        (parseChunkTrailingCrlf {} t).rest = [] := by
  have hbad : ∀ {ctx : ParseChunkTrailingCrlfCtx} {b : UInt8} {u : Bytes}, ctx.isDone = false → b ≠ ctx.expectedChar →
      (chunkTrailingCrlfMachine.run ctx (b :: u)).error = some .badLineEnding := by
    intro ctx b u hdone hother
    have hturn : chunkTrailingCrlfMachine.turn ctx b u = .fail ctx (b :: u) .badLineEnding := by
      change chunkTrailingCrlfTurn ctx b u = _
      rw [chunkTrailingCrlfTurn, hdone, if_neg Bool.false_ne_true, if_pos hother]
    rw [Machine.run_fail hturn]
  have hcr : ∀ u, chunkTrailingCrlfMachine.turn {} 0x0d u = .next { expectedChar := 0x0a } u := fun u => rfl
  change _ ∨ (chunkTrailingCrlfMachine.parse _ _ _ _).error = _ ∨ (chunkTrailingCrlfMachine.parse _ _ _ _).error = _ ∧
    (chunkTrailingCrlfMachine.parse _ _ _ _).state.isDone = _ ∧ (chunkTrailingCrlfMachine.parse _ _ _ _).rest = _
  cases t with
  | nil =>
      rw [Machine.parse_of_none rfl (by rw [Machine.run_nil]), Machine.run_nil]
      exact .inr (.inr ⟨rfl, rfl, rfl⟩)
  | cons b t =>
      rw [Machine.parse_error rfl]
      by_cases hb : b = 0x0d
      · subst hb
        cases t with
        | nil =>
            have hrun : chunkTrailingCrlfMachine.run {} [0x0d] = ⟨{ expectedChar := 0x0a }, [], none⟩ := by
              rw [Machine.run_next (hcr []), Machine.run_nil]
            rw [Machine.parse_of_none rfl (by rw [hrun]), hrun]
            exact .inr (.inr ⟨rfl, rfl, rfl⟩)
        | cons c u =>
            by_cases hc : c = 0x0a
            · exact .inl ⟨u, by rw [hc]; rfl⟩
            · rw [Machine.run_next (hcr (c :: u))]
              exact .inr (.inl (hbad rfl hc))
      · exact .inr (.inl (hbad rfl hb))

/-- A line ending in front of what `f` goes on with. -/
theorem bodyUndefined_crlf {s : ChunksState η} {f : ParseChunkTrailingCrlfCtx → ChunksState η}
    (hturn : ∀ ch t, chunksTurn none none s ch t = (parseChunkTrailingCrlf {} (ch :: t)).turn f) :
    BodyUndefined s t ↔ ∃ u, t = crlf ++ u ∧ BodyUndefined (f { expectedChar := 0x0a, isDone := true }) u := by
  rcases parseChunkTrailingCrlf_cases t with ⟨u, rfl⟩ | hother
  · refine (bodyUndefined_part (hturn 0x0d (0x0a :: u))).trans ?_
    change (parseChunkTrailingCrlf {} (crlf ++ u)).error = _ ∨ (parseChunkTrailingCrlf {} (crlf ++ u)).error = _ ∧
      BodyUndefined (f (parseChunkTrailingCrlf {} (crlf ++ u)).state) (parseChunkTrailingCrlf {} (crlf ++ u)).rest ↔ _
    rw [parseChunkTrailingCrlf_crlf]
    constructor
    · rintro (h | ⟨-, h⟩)
      · cases h
      · exact ⟨u, rfl, h⟩
    · rintro ⟨v, hsplit, h⟩
      rw [List.append_cancel_left hsplit]
      exact .inr ⟨rfl, h⟩
  · refine iff_of_false ?_ ?_
    · cases t with
      | nil => exact bodyUndefined_nil
      | cons ch t =>
          rw [bodyUndefined_part (hturn ch t)]
          rcases hother with hbad | ⟨hnone, -, hrest⟩
          · rw [hbad]
            exact fun h => h.elim nofun fun h => by cases h.1
          · rw [hnone, hrest]
            exact fun h => h.elim nofun fun h => bodyUndefined_nil h.2
    · rintro ⟨u, rfl, -⟩
      rw [parseChunkTrailingCrlf_crlf] at hother
      rcases hother with h | ⟨-, h, -⟩ <;> cases h

/-! ## Chunks -/

/-- What is behind the line with the size `size`. -/
def DataFirst (size : Nat) (P : Bytes → Prop) (t : Bytes) : Prop :=
  size = 0 ∧ FieldFirst t ∨ size ≠ 0 ∧ ∃ data u, t = data ++ (crlf ++ u) ∧ data.length = size ∧ P u

theorem bodyUndefined_trailingCrlf :
    BodyUndefined ⟨size, .trailingCrlf {}, out, env⟩ t ↔ ∃ u, t = crlf ++ u ∧ BodyUndefined ⟨size, .size {}, out, env⟩ u :=
  bodyUndefined_crlf (f := fun ctx => if ctx.isDone then ⟨size, .size {}, out, env⟩ else ⟨size, .trailingCrlf ctx, out, env⟩)
    fun ch t => by simp only [chunksTurn]

theorem bodyUndefined_data {P : Bytes → Prop} (hP : ∀ out u, u.length < t.length →
      (BodyUndefined ⟨size, .size {}, out, env⟩ u ↔ P u)) :
    BodyUndefined ⟨size, .data { size }, out, env⟩ t ↔ DataFirst size P t := by
  cases t with
  | nil =>
      refine iff_of_false bodyUndefined_nil ?_
      rintro (⟨-, h⟩ | ⟨-, data, u, h, -⟩)
      · exact fieldFirst_ne_nil h rfl
      · exact List.append_ne_nil_of_right_ne_nil data (List.append_ne_nil_of_left_ne_nil (by decide) u) h.symm
  | cons ch t =>
      by_cases hsize : size = 0
      · subst hsize
        have hturn : (chunksMachine none none).turn ⟨0, .data {}, out, env⟩ ch t =
            .next ⟨0, .headers {}, out, env⟩ (ch :: t) := rfl
        rw [BodyUndefined, Machine.run_next hturn, ← BodyUndefined, bodyUndefined_headers, DataFirst]
        simp
      · have hturn : (chunksMachine none none).turn ⟨size, .data { size }, out, env⟩ ch t =
            (parseChunkData { size } out (ch :: t)).turn fun r =>
              if r.1.size = 0 then ⟨size, .trailingCrlf {}, r.2, env⟩ else ⟨size, .data r.1, r.2, env⟩ := by
          simp only [chunksMachine_turn, chunksTurn, if_neg hsize]
        rw [DataFirst, or_iff_right fun h => hsize h.1, and_iff_right hsize]
        rcases Nat.lt_or_ge (ch :: t).length size with hless | hle
        · -- there is only a part of the data
          have htake : (ch :: t).take size = ch :: t := List.take_of_length_le hless.le
          have hleft : ¬size - (ch :: t).length = 0 := by omega
          simp only [parseChunkData, if_neg hsize, htake, List.drop_length, Outcome.turn, if_neg hleft] at hturn
          rw [BodyUndefined, Machine.run_next hturn, ← BodyUndefined]
          refine iff_of_false bodyUndefined_nil ?_
          rintro ⟨data, u, hsplit, rfl, -⟩
          rw [hsplit, List.length_append] at hless
          omega
        · obtain ⟨data, v, hsplit, rfl⟩ : ∃ data v, ch :: t = data ++ v ∧ data.length = size :=
            ⟨(ch :: t).take size, (ch :: t).drop size, (List.take_append_drop _ _).symm, List.length_take_of_le hle⟩
          rw [hsplit, parseChunkData_data] at hturn
          simp only [Outcome.turn, if_true] at hturn
          have hpos := List.length_pos_iff.2 fun h => hsize (List.length_eq_zero_iff.2 h)
          rw [BodyUndefined, Machine.run_next hturn, ← BodyUndefined, bodyUndefined_trailingCrlf, hsplit]
          constructor
          · rintro ⟨u, rfl, hu⟩
            refine ⟨data, u, rfl, rfl, (hP _ u ?_).1 hu⟩
            rw [hsplit]
            simp only [List.length_append]
            omega
          · rintro ⟨data', u, hsplit', hlen, hu⟩
            obtain ⟨rfl, rfl⟩ := List.append_inj hsplit' hlen.symm
            refine ⟨u, rfl, (hP _ u ?_).2 hu⟩
            rw [hsplit]
            simp only [List.length_append]
            omega

theorem bodyUndefined_crlfAfterSize :
    BodyUndefined ⟨size, .crlfAfterSize {}, out, env⟩ t ↔
      ∃ u, t = crlf ++ u ∧ BodyUndefined ⟨size, .data { size }, out, env⟩ u :=
  bodyUndefined_crlf
    (f := fun ctx => if ctx.isDone then ⟨size, .data { size }, out, env⟩ else ⟨size, .crlfAfterSize ctx, out, env⟩)
    fun ch t => by simp only [chunksTurn]

theorem extensionFirst_begins (h : ExtensionFirst t) : ∃ b u, t = b :: u ∧ (isHttpWs b = true ∨ b = 0x3b) := by
  cases h with
  | @mk before gap name rest hbefore _ _ _ =>
      cases before with
      | nil => exact ⟨0x3b, _, rfl, .inr rfl⟩
      | cons b before => exact ⟨b, _, rfl, .inl (hbefore b List.mem_cons_self)⟩

theorem bodyUndefined_extensions :
    BodyUndefined ⟨size, .extensions {}, out, env⟩ t ↔
      ExtensionFirst t ∨ ∃ u, t = crlf ++ u ∧ BodyUndefined ⟨size, .data { size }, out, env⟩ u := by
  cases t with
  | nil =>
      refine iff_of_false bodyUndefined_nil ?_
      rintro (h | ⟨u, h, -⟩)
      · obtain ⟨b, u, hnil, -⟩ := extensionFirst_begins h
        cases hnil
      · cases h
  | cons b t =>
      have hturn : chunksTurn none none ⟨size, .extensions {}, out, env⟩ b t =
          (parseChunkExtensions (nullView η) {} env (b :: t)).turn fun r =>
            if r.1.stage = .done then ⟨size, .crlfAfterSize {}, out, r.2⟩ else ⟨size, .extensions r.1, out, r.2⟩ := by
        simp only [chunksTurn]
        rfl
      rw [bodyUndefined_part hturn, parseExtensions_undefined]
      by_cases hbegins : isHttpWs b = true ∨ b = 0x3b
      · have hcrlf : ¬∃ u, b :: t = crlf ++ u ∧ BodyUndefined ⟨size, .data { size }, out, env⟩ u := by
          rintro ⟨u, h, -⟩
          cases h
          rcases hbegins with h | h <;> cases h
        rw [or_iff_left hcrlf]
        refine or_iff_left ?_
        rintro ⟨herror, hbehind⟩
        rw [(parseExtensions_some env hbegins herror).2] at hbehind
        exact bodyUndefined_nil hbehind
      · have hnot : ¬ExtensionFirst (b :: t) := by
          intro h
          obtain ⟨c, u, hsplit, hc⟩ := extensionFirst_begins h
          cases hsplit
          exact hbegins hc
        have hws : isHttpWs b = false := Bool.eq_false_iff.2 fun h => hbegins (.inl h)
        rw [parseExtensions_none env hws fun h => hbegins (.inr h), or_iff_right hnot, or_iff_right hnot, and_iff_right rfl]
        exact bodyUndefined_crlfAfterSize

theorem parseChunkSize_long {x : Bytes} (hx : ∀ b ∈ x, isHttpHexDigit b = true) (hlen : hexBuffSize < x.length) (rest : Bytes) :
    (parseChunkSize {} (x ++ rest)).error = some .badChunk := by
  obtain ⟨digits, b, u, rfl, hdigits⟩ : ∃ digits b u, x = digits ++ b :: u ∧ digits.length = hexBuffSize :=
    ⟨x.take hexBuffSize, x[hexBuffSize], x.drop (hexBuffSize + 1), by simp, List.length_take_of_le hlen.le⟩
  have hturn : chunkSizeMachine.turn { hexBuff := digits } b (u ++ rest) =
      .fail { hexBuff := digits } (b :: (u ++ rest)) .badChunk := by
    simp only [chunkSizeMachine_turn, chunkSizeTurn, hx b (by simp), if_true, hdigits, le_refl]
  change (chunkSizeMachine.parse _ _ _ _).error = _
  rw [Machine.parse_error rfl, List.append_assoc, chunkSize_digits (fun c hc => hx c (by simp [hc])) (by simp [hdigits]),
    List.nil_append, List.cons_append, Machine.run_fail hturn]

/-- What is behind the digits of a size. -/
def SizeEnd (size : Nat) (P : Bytes → Prop) (t : Bytes) : Prop := ExtensionFirst t ∨ ∃ u, t = crlf ++ u ∧ DataFirst size P u

theorem sizeEnd_begins {P : Bytes → Prop} (h : SizeEnd size P t) : ∃ b u, t = b :: u ∧ isHttpHexDigit b = false := by
  rcases h with h | ⟨u, rfl, -⟩
  · obtain ⟨b, u, rfl, hws | rfl⟩ := extensionFirst_begins h
    · refine ⟨b, u, rfl, ?_⟩
      simp only [isHttpWs, isHttpSp, Bool.or_eq_true, beq_iff_eq] at hws
      rcases hws with rfl | rfl <;> rfl
    · exact ⟨0x3b, u, rfl, rfl⟩
  · exact ⟨0x0d, 0x0a :: u, rfl, rfl⟩

/-- A size and what is behind it. -/
def SizeFirst (P : Bytes → Prop) (t : Bytes) : Prop :=
  ∃ digits u, t = digits ++ u ∧ digits ≠ [] ∧ digits.length ≤ hexBuffSize ∧ (∀ b ∈ digits, isHttpHexDigit b = true) ∧
    SizeEnd (hexValue digits) P u

theorem bodyUndefined_badSize {ch : UInt8} (h : (parseChunkSize {} (ch :: t)).error = some .badChunk) :
    ¬BodyUndefined ⟨size, .size {}, out, env⟩ (ch :: t) := by
  have hturn : chunksTurn none none ⟨size, .size {}, out, env⟩ ch t = (parseChunkSize {} (ch :: t)).turn fun ctx =>
      if ctx.stage = .done then ⟨ctx.chunkSize, .extensions {}, out, env⟩ else ⟨size, .size ctx, out, env⟩ := by
    simp only [chunksTurn]
  rw [bodyUndefined_part hturn, h]
  exact fun h => h.elim (by simp) fun h => by cases h.1

theorem bodyUndefined_size {P : Bytes → Prop} (hP : ∀ size out u, u.length < t.length →
      (BodyUndefined ⟨size, .size {}, out, env⟩ u ↔ P u)) :
    BodyUndefined ⟨size, .size {}, out, env⟩ t ↔ SizeFirst P t := by
  have hturn : ∀ ch t, chunksTurn none none ⟨size, .size {}, out, env⟩ ch t = (parseChunkSize {} (ch :: t)).turn fun ctx =>
      if ctx.stage = .done then ⟨ctx.chunkSize, .extensions {}, out, env⟩ else ⟨size, .size ctx, out, env⟩ := fun ch t => by
    simp only [chunksTurn]
  rcases first_not isHttpHexDigit t with hall | ⟨digits, b, u, rfl, hdigits, hb⟩
  · refine iff_of_false ?_ ?_
    · cases t with
      | nil => exact bodyUndefined_nil
      | cons ch t =>
          rcases Nat.lt_or_ge hexBuffSize (ch :: t).length with hlong | hlen
          · have hbad := parseChunkSize_long hall hlong []
            rw [List.append_nil] at hbad
            exact bodyUndefined_badSize hbad
          · have hrun := @chunkSize_digits _ hall [] (by simpa using hlen) []
            rw [List.append_nil, List.nil_append, Machine.run_nil] at hrun
            have hparse : parseChunkSize {} (ch :: t) = ⟨{ hexBuff := ch :: t }, [], none⟩ := by
              change chunkSizeMachine.parse _ _ _ _ = _
              rw [Machine.parse_of_none rfl (by rw [hrun]), hrun]
            rw [bodyUndefined_part (hturn ch t), hparse]
            exact fun h => h.elim (by simp) fun h => bodyUndefined_nil h.2
    · rintro ⟨digits, u, rfl, -, -, -, hend⟩
      obtain ⟨b, v, rfl, hb⟩ := sizeEnd_begins hend
      rw [hall b (by simp)] at hb
      cases hb
  have hiff : SizeFirst P (digits ++ b :: u) ↔
      digits ≠ [] ∧ digits.length ≤ hexBuffSize ∧ SizeEnd (hexValue digits) P (b :: u) := by
    constructor
    · rintro ⟨digits', u', hsplit, hne, hlen, hdigits', hend⟩
      obtain ⟨b', v, rfl, hb'⟩ := sizeEnd_begins hend
      obtain ⟨rfl, rfl, rfl⟩ := first_not_unique hsplit hdigits hb hdigits' hb'
      exact ⟨hne, hlen, hend⟩
    · rintro ⟨hne, hlen, hend⟩
      exact ⟨digits, b :: u, rfl, hne, hlen, hdigits, hend⟩
  rw [hiff]
  by_cases hne : digits = []
  · subst hne
    refine iff_of_false (bodyUndefined_badSize ?_) fun h => h.1 rfl
    have hfail : chunkSizeMachine.turn {} b u = .fail {} (b :: u) .badChunk := by
      simp only [chunkSizeMachine_turn, chunkSizeTurn, hb]
      rfl
    change (chunkSizeMachine.parse _ _ _ _).error = _
    rw [Machine.parse_error rfl, Machine.run_fail hfail]
  rw [and_iff_right hne]
  obtain ⟨ch, tail, htext⟩ := List.exists_cons_of_ne_nil (List.append_ne_nil_of_left_ne_nil hne (b :: u))
  rcases Nat.lt_or_ge hexBuffSize digits.length with hlong | hlen
  · have hbad := parseChunkSize_long hdigits hlong (b :: u)
    rw [htext] at hbad ⊢
    exact iff_of_false (bodyUndefined_badSize hbad) fun h => absurd h.1 (by omega)
  rw [and_iff_right hlen]
  have hparse := parseChunkSize_digits hne hlen hdigits hb u
  have hdata : ∀ v, v.length < (digits ++ b :: u).length →
      (BodyUndefined ⟨hexValue digits, .data { size := hexValue digits }, out, env⟩ v ↔ DataFirst (hexValue digits) P v) :=
    fun v hv => bodyUndefined_data fun out w hw => hP _ out w (hw.trans hv)
  rw [htext] at hparse hdata ⊢
  rw [bodyUndefined_part (hturn ch tail), hparse]
  simp only [if_true]
  rw [or_iff_right (by simp), and_iff_right trivial, bodyUndefined_extensions, SizeEnd]
  refine or_congr_right (exists_congr fun v => and_congr_right fun hv => hdata v ?_)
  have hlength := congrArg List.length htext
  have hcrlf : crlf.length = 2 := rfl
  rw [hv] at hlength
  simp only [List.length_append] at hlength
  omega

theorem sizeLine_iff {line : Bytes} : SizeLine size [] line ↔
    ∃ digits, line = digits ++ crlf ∧ digits ≠ [] ∧ digits.length ≤ hexBuffSize ∧ (∀ b ∈ digits, isHttpHexDigit b = true) ∧
      hexValue digits = size := by
  constructor
  · intro h
    generalize hcalls : ([] : Headers) = calls at h
    cases h with
    | mk hne hlen hdigits h =>
        cases h with
        | nil => exact ⟨_, rfl, hne, hlen, hdigits, rfl⟩
        | semicolon _ h => cases h <;> cases hcalls
  · rintro ⟨digits, rfl, hne, hlen, hdigits, rfl⟩
    exact .mk hne hlen hdigits .nil

theorem callsBack_iff : CallsBack t ↔ SizeFirst CallsBack t := by
  constructor
  · intro h
    cases h with
    | extension hne hlen hdigits h => exact ⟨_, _, rfl, hne, hlen, hdigits, .inl h⟩
    | trailer hline h =>
        obtain ⟨digits, rfl, hne, hlen, hdigits, hsize⟩ := sizeLine_iff.1 hline
        exact ⟨digits, _, List.append_assoc _ _ _, hne, hlen, hdigits, .inr ⟨_, rfl, .inl ⟨hsize, h⟩⟩⟩
    | chunk hne' hline h =>
        obtain ⟨digits, rfl, hne, hlen, hdigits, hsize⟩ := sizeLine_iff.1 hline
        refine ⟨digits, _, List.append_assoc _ _ _, hne, hlen, hdigits, .inr ⟨_, rfl, .inr ⟨?_, _, _, rfl, hsize.symm, h⟩⟩⟩
        rw [hsize]
        exact fun hzero => hne' (List.length_eq_zero_iff.1 hzero)
  · rintro ⟨digits, u, rfl, hne, hlen, hdigits, h | ⟨v, rfl, ⟨hsize, h⟩ | ⟨hsize, data, w, rfl, hdata, h⟩⟩⟩
    · exact .extension hne hlen hdigits h
    · rw [← List.append_assoc]
      exact .trailer (sizeLine_iff.2 ⟨digits, rfl, hne, hlen, hdigits, hsize⟩) h
    · rw [← List.append_assoc]
      refine .chunk ?_ (sizeLine_iff.2 ⟨digits, rfl, hne, hlen, hdigits, hdata.symm⟩) h
      rintro rfl
      exact hsize hdata.symm

/-- A callback is called for exactly in the texts that `CallsBack` describes. -/
theorem bodyUndefined_iff (size : Nat) (out : Bytes) (env : η) (t : Bytes) :
    BodyUndefined ⟨size, .size {}, out, env⟩ t ↔ CallsBack t := by
  induction hn : t.length using Nat.strongRecOn generalizing size out t with
  | ind n ih =>
      subst hn
      rw [callsBack_iff]
      exact bodyUndefined_size fun size out u hu => ih u.length hu size out u rfl

/-! ## Turns without a call -/

variable {cb : ChunkExtensionCallback η} {trailersCb : HeaderCallback η}

theorem extensions_same (s : ParseChunkExtensionsContext × η) (ch : UInt8) (tail : Bytes) :
    (∃ s' rest, (extensionsMachine (nullView η)).turn s ch tail = .fail s' rest .undefined) ∨
      (extensionsMachine (nullView η)).turn s ch tail = (extensionsMachine cb).turn s ch tail := by
  obtain ⟨ctx, env⟩ := s
  simp only [extensionsMachine_turn]
  cases hstage : ctx.stage with
  | name =>
      simp only [extensionsTurn, hstage, callExtension_nullView]
      split
      · exact .inr rfl
      · exact .inr rfl
      split
      · exact .inr rfl
      split
      · exact .inr rfl
      split
      · exact .inr rfl
      split
      · exact .inr rfl
      · exact .inl ⟨_, _, rfl⟩
  | eqOrColon =>
      simp only [extensionsTurn, hstage, callExtension_nullView]
      split
      · exact .inr rfl
      split
      · exact .inl ⟨_, _, rfl⟩
      · exact .inr rfl
  | reportNameValue =>
      simp only [extensionsTurn, hstage, callExtension_nullView]
      exact .inl ⟨_, _, rfl⟩
  | _ => exact .inr (by simp only [extensionsTurn, hstage])

theorem headers_same (s : ParseHeadersContext × η) (ch : UInt8) (tail : Bytes) :
    (∃ s' rest, (headersMachine none).turn s ch tail = .fail s' rest .undefined) ∨
      (headersMachine none).turn s ch tail = (headersMachine trailersCb).turn s ch tail := by
  obtain ⟨ctx, env⟩ := s
  simp only [headersMachine_turn]
  cases hstage : ctx.stage with
  | ows next =>
      simp only [headersTurn, hstage]
      split
      · exact .inr rfl
      split
      · exact .inl ⟨_, _, rfl⟩
      · exact .inr rfl
  | _ => exact .inr (by simp only [headersTurn, hstage])

/-- Two outcomes of a part that are the same unless the first one is undefined. -/
theorem turn_same {τ : Type*} {o o' : Outcome τ UInt8 Error} (h : o.error ≠ some .undefined → o = o') (f : τ → ChunksState η) :
    (∃ s' rest, o.turn f = .fail s' rest .undefined) ∨ o.turn f = o'.turn f := by
  by_cases herror : o.error = some .undefined
  · exact .inl ⟨f o.state, o.rest, by rw [Outcome.turn, herror]⟩
  · exact .inr (by rw [h herror])

theorem chunks_same (s : ChunksState η) (ch : UInt8) (tail : Bytes) :
    (∃ s' rest, (chunksMachine none none).turn s ch tail = .fail s' rest .undefined) ∨
      (chunksMachine none none).turn s ch tail = (chunksMachine cb trailersCb).turn s ch tail := by
  simp only [chunksMachine_turn]
  cases hstage : s.stage with
  | extensions ctx =>
      simp only [chunksTurn, hstage]
      refine turn_same (fun herror => ?_) _
      exact Machine.parse_eq_unless extensions_same herror
  | headers ctx =>
      simp only [chunksTurn, hstage]
      refine turn_same (fun herror => ?_) _
      exact Machine.parse_eq_unless headers_same herror
  | _ => exact .inr (by simp only [chunksTurn, hstage])

theorem parseChunks_undefined (out : Bytes) (env : η) (t : Bytes) :
    (parseChunks none none { out, env } t).error = some .undefined ↔ CallsBack t := by
  rw [← bodyUndefined_iff 0 out env t]
  change ((chunksMachine none none).parse _ _ _ _).error = _ ↔ _
  rw [Machine.parse_error rfl, BodyUndefined]

/-- Up to a call the callbacks do not matter. -/
theorem parseChunks_same {s : ChunksState η} {t : Bytes} (herror : (parseChunks none none s t).error ≠ some .undefined) :
    parseChunks none none s t = parseChunks cb trailersCb s t :=
  Machine.parse_eq_unless chunks_same herror

end

end Rad.Http
