import Rad.Url.PathTheorems

/-!
# The parser ends

Each turn leads to a state that is declared later, or it stays in its state behind the code point that it has read. The
pointer stays inside the input meanwhile, and the assertions hold.
-/

namespace Rad.Url

variable {base : Option UrlRecord} {input : Bytes} {url : UrlRecord} {ctx : UrlParseContext} {v : View} {turn : Turn}
  {state : ParseState} {before unit rest : Bytes}

/-! ## The order of the states -/

/-- How a turn goes on: to a later state, or forward in the text. -/
structure Turn.Forward (t : Turn) (state : ParseState) (v : View) : Prop where
  later : state.ctorIdx < t.state.ctorIdx ∨ t.state = state ∧ t.move = .keep
  increase : t.move = .increase → v.remaining.head? = some 0x2f

theorem forward_later {state' : ParseState} {url' : UrlRecord} {ctx' : UrlParseContext} {move : Move}
    (h : state.ctorIdx < state'.ctorIdx) (hmove : move ≠ .increase) : Turn.Forward ⟨state', url', ctx', move⟩ state v :=
  ⟨.inl h, fun h => absurd h hmove⟩

theorem forward_keep {url' : UrlRecord} {ctx' : UrlParseContext} : Turn.Forward ⟨state, url', ctx', .keep⟩ state v :=
  ⟨.inr ⟨rfl, rfl⟩, nofun⟩

theorem forward_increase {state' : ParseState} {url' : UrlRecord} {ctx' : UrlParseContext}
    (h : state.ctorIdx < state'.ctorIdx) (hslash : v.remaining.head? = some 0x2f) :
    Turn.Forward ⟨state', url', ctx', .increase⟩ state v :=
  ⟨.inl h, fun _ => hslash⟩

theorem decrease_or_keep {c : Prop} [Decidable c] : (if c then Move.decrease else .keep) ≠ .increase := by
  split <;> nofun

theorem forward_map {α : Type} {r : Except UrlError α} {f : α → Turn} (hf : ∀ a, (f a).Forward state v)
    (h : r.map f = .ok turn) : turn.Forward state v := by
  cases r with
  | error e => cases h
  | ok a =>
      cases h
      exact hf a

/-! ### Schemes and references -/

theorem schemeStartState_forward (hrun : schemeStartState v url ctx = .ok turn) : turn.Forward .schemeStart v := by
  rw [schemeStartState] at hrun
  split at hrun
  · cases hrun
    exact forward_later (by decide) (by simp)
  · cases hrun
    exact forward_later (by decide) (by simp)

theorem schemeState_forward (hrun : schemeState v base url ctx = .ok turn) : turn.Forward .scheme v := by
  rw [schemeState] at hrun
  split at hrun
  · cases hrun
    exact forward_keep
  split at hrun
  · dsimp only at hrun
    split at hrun
    · cases hrun
      exact forward_later (by decide) (by simp)
    split at hrun
    · cases hrun
      exact forward_later (by decide) (by simp)
    split at hrun
    · cases hrun
      exact forward_later (by decide) (by simp)
    split at hrun
    · rename_i hslash
      cases hrun
      exact forward_increase (by decide) hslash
    · cases hrun
      exact forward_later (by decide) (by simp)
  · cases hrun
    exact forward_later (by decide) (by simp)

theorem noSchemeState_forward (hrun : noSchemeState v base url ctx = .ok turn) : turn.Forward .noScheme v := by
  unfold noSchemeState at hrun
  split at hrun
  · cases hrun
  split at hrun
  · cases hrun
  split at hrun
  · cases hrun
    exact forward_later (by decide) nofun
  split at hrun
  · cases hrun
    exact forward_later (by decide) nofun
  · cases hrun
    exact forward_later (by decide) nofun

theorem relativeState_forward (hrun : relativeState v base url ctx = .ok turn) : turn.Forward .relative v := by
  unfold relativeState at hrun
  split at hrun
  · cases hrun
  dsimp only at hrun
  split at hrun
  · cases hrun
    exact forward_later (by decide) nofun
  split at hrun
  · cases hrun
    exact forward_later (by decide) nofun
  split at hrun
  · cases hrun
    exact forward_later (by decide) nofun
  split at hrun
  · cases hrun
    exact forward_later (by decide) nofun
  split at hrun
  · cases hrun
    exact forward_later (by decide) nofun
  · cases hrun
    exact forward_keep

theorem relativeSlashState_forward (hrun : relativeSlashState v base url ctx = .ok turn) :
    turn.Forward .relativeSlash v := by
  unfold relativeSlashState at hrun
  split at hrun
  · cases hrun
  split at hrun
  · cases hrun
    exact forward_later (by decide) nofun
  split at hrun
  · cases hrun
    exact forward_later (by decide) nofun
  · cases hrun
    exact forward_later (by decide) nofun

/-! ### Authorities and files -/

theorem authorityState_forward (hrun : authorityState v url ctx = .ok turn) : turn.Forward .authority v := by
  rw [authorityState] at hrun
  split at hrun
  · cases hrun
    exact forward_keep
  split at hrun
  · split at hrun
    · cases hrun
    · cases hrun
      exact forward_later (by decide) (by simp)
  · cases hrun
    exact forward_keep

theorem hostState_forward (hrun : hostState v url ctx = .ok turn) : turn.Forward .host v := by
  rw [hostState] at hrun
  split at hrun
  · split at hrun
    · cases hrun
    · refine forward_map (fun _ => ?_) hrun
      exact forward_later (by decide) (by simp)
  split at hrun
  · split at hrun
    · cases hrun
    · refine forward_map (fun _ => ?_) hrun
      exact forward_later (by decide) (by simp)
  · cases hrun
    exact forward_keep

theorem portState_forward (hrun : portState v url ctx = .ok turn) : turn.Forward .port v := by
  rw [portState] at hrun
  split at hrun
  · cases hrun
    exact forward_keep
  split at hrun
  · split at hrun
    · cases hrun
      exact forward_later (by decide) (by simp)
    · split at hrun
      · cases hrun
      · cases hrun
        exact forward_later (by decide) (by simp)
  · cases hrun

theorem fileState_forward (hrun : fileState v base url ctx = .ok turn) : turn.Forward .file v := by
  rw [fileState] at hrun
  dsimp only at hrun
  split at hrun
  · cases hrun
    exact forward_later (by decide) (by simp)
  split at hrun
  · split at hrun
    · cases hrun
      exact forward_later (by decide) (by simp)
    split at hrun
    · cases hrun
      exact forward_later (by decide) (by simp)
    split at hrun
    · cases hrun
      exact forward_later (by decide) (by simp)
    · cases hrun
      exact forward_keep
  · cases hrun
    exact forward_later (by decide) (by simp)

theorem fileSlashState_forward (hrun : fileSlashState v base url ctx = .ok turn) : turn.Forward .fileSlash v := by
  rw [fileSlashState] at hrun
  split at hrun
  · cases hrun
    exact forward_later (by decide) (by simp)
  split at hrun
  · cases hrun
    exact forward_later (by decide) (by simp)
  · cases hrun
    exact forward_later (by decide) (by simp)

theorem fileHostState_forward (hrun : fileHostState v url ctx = .ok turn) : turn.Forward .fileHost v := by
  rw [fileHostState] at hrun
  split at hrun
  · split at hrun
    · cases hrun
      exact forward_later (by decide) (by simp)
    split at hrun
    · cases hrun
      exact forward_later (by decide) (by simp)
    · refine forward_map (fun _ => ?_) hrun
      exact forward_later (by decide) (by simp)
  · cases hrun
    exact forward_keep

/-! ### Paths, queries and fragments -/

theorem pathStartState_forward (hrun : pathStartState v url ctx = .ok turn) : turn.Forward .pathStart v := by
  rw [pathStartState] at hrun
  split at hrun
  · cases hrun
    exact forward_later (by decide) decrease_or_keep
  split at hrun
  · cases hrun
    exact forward_later (by decide) (by simp)
  split at hrun
  · cases hrun
    exact forward_later (by decide) (by simp)
  split at hrun
  · cases hrun
    exact forward_later (by decide) decrease_or_keep
  · cases hrun
    exact forward_keep

theorem pathState_forward (hrun : pathState v url ctx = .ok turn) : turn.Forward .path v := by
  rw [pathState] at hrun
  dsimp only at hrun
  split at hrun
  · split at hrun
    · cases hrun
      exact forward_later (by decide) (by simp)
    split at hrun
    · cases hrun
      exact forward_later (by decide) (by simp)
    · cases hrun
      exact forward_keep
  · exact forward_map (fun _ => forward_keep) hrun

theorem opaquePathState_forward (hrun : opaquePathState v url ctx = .ok turn) : turn.Forward .opaquePath v := by
  rw [opaquePathState] at hrun
  split at hrun
  · cases hrun
    exact forward_later (by decide) (by simp)
  split at hrun
  · cases hrun
    exact forward_later (by decide) (by simp)
  split at hrun
  · cases hrun
    exact forward_keep
  split at hrun
  · exact forward_map (fun _ => forward_keep) hrun
  · cases hrun
    exact forward_keep

theorem queryState_forward (hrun : queryState v url ctx = .ok turn) : turn.Forward .query v := by
  rw [queryState] at hrun
  split at hrun
  · refine forward_map (fun encoded => ?_) hrun
    split
    · exact forward_later (by decide) (by simp)
    · exact forward_keep
  · cases hrun
    exact forward_keep

/-- The turns of all the states. -/
theorem runState_forward (hrun : runState v base url ctx state = .ok turn) : turn.Forward state v := by
  cases state with
  | schemeStart => exact schemeStartState_forward hrun
  | scheme => exact schemeState_forward hrun
  | noScheme => exact noSchemeState_forward hrun
  | specialRelativeOrAuthority =>
      simp only [runState, specialRelativeOrAuthorityState] at hrun
      split at hrun
      · rename_i hslash
        cases hrun
        exact forward_increase (by decide) hslash.2
      · cases hrun
        exact forward_later (by decide) (by simp)
  | pathOrAuthority =>
      simp only [runState, pathOrAuthorityState] at hrun
      split at hrun
      · cases hrun
        exact forward_later (by decide) (by simp)
      · cases hrun
        exact forward_later (by decide) (by simp)
  | relative => exact relativeState_forward hrun
  | relativeSlash => exact relativeSlashState_forward hrun
  | specialAuthoritySlashes =>
      simp only [runState, specialAuthoritySlashesState] at hrun
      split at hrun
      · rename_i hslash
        cases hrun
        exact forward_increase (by decide) hslash.2
      · cases hrun
        exact forward_later (by decide) (by simp)
  | specialAuthorityIgnoreSlashes =>
      simp only [runState, specialAuthorityIgnoreSlashesState] at hrun
      split at hrun
      · cases hrun
        exact forward_later (by decide) (by simp)
      · cases hrun
        exact forward_keep
  | authority => exact authorityState_forward hrun
  | host => exact hostState_forward hrun
  | port => exact portState_forward hrun
  | file => exact fileState_forward hrun
  | fileSlash => exact fileSlashState_forward hrun
  | fileHost => exact fileHostState_forward hrun
  | pathStart => exact pathStartState_forward hrun
  | path => exact pathState_forward hrun
  | opaquePath => exact opaquePathState_forward hrun
  | query => exact queryState_forward hrun
  | fragment =>
      simp only [runState, fragmentState] at hrun
      split at hrun
      · exact forward_map (fun _ => forward_keep) hrun
      · cases hrun
        exact forward_keep

/-! ## The measure -/

/-- What every pass of the loop lowers: first the number of states to come, then the text. -/
def Config.measure (s : Config) : Nat :=
  (20 - s.state.ctorIdx) * (s.pointer.originalInput.length + 1) + s.pointer.remainingSize

theorem ctorIdx_lt (state : ParseState) : state.ctorIdx < 20 := by cases state <;> decide

/-- A later state outweighs the whole text. -/
theorem measure_later {n m size remaining remaining' : Nat} (h : n < m) (hm : m < 20) (hsize : remaining' ≤ size) :
    (20 - m) * (size + 1) + remaining' < (20 - n) * (size + 1) + remaining := by
  have hmul : (20 - m + 1) * (size + 1) ≤ (20 - n) * (size + 1) := Nat.mul_le_mul_right _ (by omega)
  rw [Nat.add_mul] at hmul
  omega

theorem pass_measure {I : Invariant} {F : UrlRecord → Prop} {s t : Config} (hkept : Invariant.Kept base input I F)
    (h : s.Holds input I) (hnext : pass base s = .next t) : t.measure < s.measure := by
  have ht : t.Holds input I := by
    rcases pass_holds hkept h with ⟨e, herror⟩ | ⟨t', hnext', ht'⟩ | ⟨record, hdone, -⟩
    · rw [hnext] at herror
      cases herror
    · rw [hnext] at hnext'
      cases hnext'
      exact ht'
    · rw [hnext] at hdone
      cases hdone
  obtain ⟨before', rest', hinput', hat', -⟩ := ht
  obtain ⟨before, rest, hinput, hat, -⟩ := h
  have hne : ∀ e, pass base s ≠ .done (.error e) := fun e he => by
    rw [hnext] at he
    cases he
  obtain ⟨c, q, turn, hadvance, hrun⟩ := exists_turn hne
  rw [pass_of_turn hadvance hrun] at hnext
  split at hnext
  · cases hnext
  rename_i hend
  cases hnext
  have hat' : (q.move turn.move).At before' rest' := hat'
  have hlength : (before' ++ rest').length = (before ++ rest).length := by rw [hinput, hinput']
  rw [List.length_append, List.length_append] at hlength
  dsimp only [Config.measure]
  rw [hat'.originalInput, hat'.remainingSize, hat.originalInput, hat.remainingSize, List.length_append,
    List.length_append, hlength]
  rcases (runState_forward hrun).later with hlater | ⟨hsame, hmove⟩
  · exact measure_later hlater (ctorIdx_lt _) (by omega)
  · rw [hmove] at hend hat'
    rcases hat.advance hadvance with ⟨-, -, heof, -⟩ | ⟨unit, tail, rfl, hbehind, hshows⟩
    · exact absurd heof.isEof hend
    · have hunit : unit ≠ [] := (hshows.not_eof hbehind.isEof).1 ▸ utf8Encode_ne_nil c
      have hpos := List.length_pos_iff.2 hunit
      have hrest : rest'.length = tail.length := hat'.remainingSize.symm.trans hbehind.remainingSize
      rw [hsame, hrest, List.length_append]
      omega

/-! ## The pointer -/

namespace UrlPointer

/-- The remaining size is the distance to the end, if the pointer is not behind it. -/
def Exact (p : UrlPointer) : Prop := p.isEof = false → p.next + p.remainingSize = p.inputEnd

/-- The move does not leave the input, and the assertions about it hold. -/
def StaysInside (p : UrlPointer) (move : Move) : Prop :=
  match move with
  | .keep | .restart => True
  | .decrease => p.isEof = false → p.current ≤ p.next ∧ p.next ≤ p.inputEnd
  | .increase => p.isEof = false ∧ 0 < p.remainingSize ∧ ∃ b, p.originalInput[p.next]? = some b ∧ b ≤ 0x7f
  | .decreaseByBytesPlus1Codepoint nbytes =>
    nbytes ≤ (if p.isEof then p.inputEnd else p.current) ∧ (p.move move).remainingSize ≤ p.originalInput.length

variable {p : UrlPointer}

theorem At.exact (h : p.At before rest) : p.Exact := by
  intro _
  rw [inputEnd, h.originalInput, h.next, h.remainingSize, List.length_append]

theorem Behind.exact (h : p.Behind before unit rest) : p.Exact := h.keep.exact

theorem AtEof.exact (h : p.AtEof before) : p.Exact := fun hend => Bool.noConfusion (hend.symm.trans h.isEof)

end UrlPointer

section

variable {I : Invariant} {F : UrlRecord → Prop} {q : UrlPointer}

theorem Turn.Leads.staysInside (h : turn.Leads I F before unit rest false) (hq : q.Behind before unit rest)
    (hincrease : turn.move = .increase → rest.head? = some 0x2f) :
    q.StaysInside turn.move ∧ (q.move turn.move).Exact := by
  refine ⟨?_, (h.next hq).2.choose_spec.choose_spec.2.1.exact⟩
  obtain ⟨state, url, ctx, move⟩ := turn
  cases move with
  | keep => trivial
  | restart => trivial
  | decrease =>
      intro _
      rw [hq.current, hq.next, UrlPointer.inputEnd, hq.originalInput, List.length_append, List.length_append]
      omega
  | increase =>
      obtain ⟨ch, tail, rfl, -⟩ := h
      cases hincrease rfl
      refine ⟨hq.isEof, ?_, 0x2f, ?_, by decide⟩
      · rw [hq.remainingSize]
        exact Nat.succ_pos _
      · rw [hq.originalInput, hq.next, ← List.append_assoc, ← List.length_append, List.getElem?_append_right le_rfl,
          Nat.sub_self]
        rfl
  | decreaseByBytesPlus1Codepoint nbytes =>
      obtain ⟨front, buffer, rfl, rfl, -⟩ := h
      refine ⟨?_, ?_⟩
      · rw [hq.isEof, if_neg Bool.false_ne_true, hq.current, List.length_append]
        exact Nat.le_add_left _ _
      · rw [hq.back.remainingSize, hq.originalInput]
        simp only [List.length_append]
        omega

theorem Turn.Leads.staysInside_eof (h : turn.Leads I F before [] [] true) (hq : q.AtEof before) :
    q.StaysInside turn.move ∧ (q.move turn.move).Exact := by
  have hexact : (q.move turn.move).Exact := by
    rcases h.next_eof hq with ⟨hend, -⟩ | ⟨-, _, _, -, hat, -⟩
    · exact fun hend' => Bool.noConfusion (hend'.symm.trans hend)
    · exact hat.exact
  refine ⟨?_, hexact⟩
  obtain ⟨state, url, ctx, move⟩ := turn
  cases move with
  | keep => trivial
  | restart => trivial
  | decrease => exact fun hend => Bool.noConfusion (hend.symm.trans hq.isEof)
  | increase =>
      obtain ⟨ch, tail, hnil, -⟩ := h
      cases hnil
  | decreaseByBytesPlus1Codepoint nbytes =>
      obtain ⟨front, buffer, rfl, rfl, -⟩ := h
      refine ⟨?_, ?_⟩
      · rw [hq.isEof, if_pos rfl, UrlPointer.inputEnd, hq.originalInput, List.length_append]
        exact Nat.le_add_left _ _
      · rw [hq.back.remainingSize, hq.originalInput, List.length_append]
        exact Nat.le_add_left _ _

end

/-! ## The assertions of the states -/

/-- The state asks the pointer for the encoded code point. -/
def AsksForCodepoint (v : View) (url : UrlRecord) (ctx : UrlParseContext) (state : ParseState) : Prop :=
  match state with
  | .authority => v.c ≠ 0x40 ∧ endsAuthority v url = false
  | .host => ¬(v.c = 0x3a ∧ ctx.insideBrackets = false) ∧ endsAuthority v url = false
  | .port => isAsciiNumeric v.c = true
  | .fileHost => (v.isEof || v.c == 0x2f || v.c == 0x5c || v.c == 0x3f || v.c == 0x23) = false
  | .path =>
    (v.isEof || v.c == 0x2f || (v.c == 0x5c && isSpecialScheme url.scheme) || v.c == 0x3f || v.c == 0x23) = false
  | .opaquePath => v.c ≠ 0x3f ∧ v.c ≠ 0x23 ∧ v.c ≠ 0x20 ∧ v.isEof = false
  | .query => ¬(v.c = 0x23 ∨ v.isEof = true)
  | .fragment => v.isEof = false
  | _ => False

/-- The assertions of the state functions. -/
structure AssertionsHold (base : Option UrlRecord) (v : View) (url : UrlRecord) (ctx : UrlParseContext)
    (state : ParseState) : Prop where
  scheme : state = .scheme → ∀ turn, schemeState v base url ctx = .ok turn → turn.state = .specialRelativeOrAuthority →
    ∃ b, base = some b ∧ b.isSpecial = true
  relative : state = .relative → ∃ b, base = some b ∧ b.scheme ≠ ascii "file"
  fileHost : state = .fileHost → ∀ record, parseHost ctx.buffer (!isSpecialScheme url.scheme) url = .ok record →
    record.hasHost = true
  query : state = .query → v.c = 0x23 ∨ v.isEof = true → url.hasQuery = true
  fragment : state = .fragment → v.isEof = false → url.hasFragment = true
  codepoint : AsksForCodepoint v url ctx state → v.isEof = false

/-- A scheme that the base has too is special for both. -/
theorem schemeState_special (hbase : ∀ b, base = some b → b.WellFormed)
    (h : Inv base input .scheme url ctx before rest) (hrun : schemeState v base url ctx = .ok turn)
    (hstate : turn.state = .specialRelativeOrAuthority) : ∃ b, base = some b ∧ b.isSpecial = true := by
  obtain ⟨rfl, buffer, rfl, -⟩ := h
  rw [schemeState] at hrun
  split at hrun
  · cases hrun
    cases hstate
  split at hrun
  · simp only [Bool.false_or] at hrun
    split at hrun
    · cases hrun
      cases hstate
    split at hrun
    · rename_i hb
      cases base with
      | none => cases hb
      | some b =>
          simp only [Option.any_some, UrlRecord.isSpecial, Bool.and_eq_true, beq_iff_eq] at hb
          refine ⟨b, rfl, ?_⟩
          rw [UrlRecord.isSpecial, (hbase b rfl).special, hb.2]
          exact hb.1
    split at hrun
    · cases hrun
      cases hstate
    split at hrun
    · cases hrun
      cases hstate
    · cases hrun
      cases hstate
  · cases hrun
    cases hstate

theorem asksForCodepoint_not_eof (hv : v.Shows unit rest) (h : AsksForCodepoint v url ctx state) : v.isEof = false := by
  cases state with
  | authority => exact not_eof_of_not_ends h.2
  | host => exact not_eof_of_not_ends h.2
  | port =>
      refine (hv.codepoint_of fun hzero => ?_).1
      rw [AsksForCodepoint, hzero] at h
      cases h
  | fileHost =>
      simp only [AsksForCodepoint, Bool.or_eq_false_iff] at h
      exact h.1.1.1.1
  | path =>
      simp only [AsksForCodepoint, Bool.or_eq_false_iff] at h
      exact h.1.1.1.1
  | opaquePath => exact h.2.2.2
  | query => exact Bool.eq_false_iff.2 fun hend => h (.inr hend)
  | fragment => exact h
  | _ => exact h.elim

theorem assertionsHold (hbase : ∀ b, base = some b → b.WellFormed)
    (h : Inv base input state url ctx before (unit ++ rest)) (hv : v.Shows unit rest) :
    AssertionsHold base v url ctx state where
  scheme := by
    rintro rfl turn hrun hstate
    exact schemeState_special hbase h hrun hstate
  relative := by
    rintro rfl
    obtain ⟨-, b, hb, -⟩ := h
    exact ⟨b, hb.base, hb.notFile⟩
  fileHost := by
    rintro - record hparse
    obtain ⟨host, kind, -, rfl⟩ := parseHost_ok hparse
    exact UrlRecord.setHostFlag_host _ _
  query := by
    rintro rfl -
    exact h.2.1
  fragment := by
    rintro rfl -
    exact h.2.1
  codepoint := asksForCodepoint_not_eof hv

/-- A path that is still to be written is not opaque. -/
theorem finish_not_opaque (h : (finish url ctx).WellFormed) (hnil : url.path = []) (hne : ctx.path ≠ []) :
    url.isOpaquePath = false := by
  rw [UrlRecord.isOpaquePath, ← Bool.not_eq_true]
  intro hopaquePath
  have hfinish : (finish url ctx).flags.opaquePath = true ∧ (finish url ctx).path = urlPathSerializer ctx.path := by
    rw [finish, if_pos ⟨hnil, hne⟩]
    exact ⟨hopaquePath, rfl⟩
  obtain ⟨segment, path, hpath⟩ := List.exists_cons_of_ne_nil hne
  refine (h.opaqueText hfinish.1).2.2.2.head ?_
  rw [hfinish.2, hpath]
  rfl

/-! ## The parser -/

/-- What is to hold of a run of the parser: it returns, it does not advance behind the end, the remaining size is right
wherever the pointer is, the pointer stays inside the input, and the assertions hold. -/
structure SafeRun (base : Option UrlRecord) (input : Bytes) : Prop where
  returns : ∃ r, Parses base input r
  advances : ∀ s, Lib.Visits (pass base) (.initial input) s → s.pointer.isEof = false
  exact : ∀ s, Lib.Visits (pass base) (.initial input) s → s.pointer.Exact ∧ s.pointer.advanced.Exact
  asserts : ∀ s c q, Lib.Visits (pass base) (.initial input) s → s.pointer.advance = .ok (c, q) →
    AssertionsHold base (q.view c) s.url s.ctx s.state
  moves : ∀ s c q turn, Lib.Visits (pass base) (.initial input) s → s.pointer.advance = .ok (c, q) →
    runState (q.view c) base s.url s.ctx s.state = .ok turn →
      q.StaysInside turn.move ∧ (q.move turn.move).Exact ∧
        ((q.move turn.move).isEof = true → turn.url.path = [] → turn.ctx.path ≠ [] → turn.url.isOpaquePath = false)

/-- The remaining size is wrong behind an overlong sequence. -/
theorem UrlPointer.At.advanced_exact {p : UrlPointer} (h : p.At before rest) : p.advanced.Exact ↔ ¬Overlong rest := by
  by_cases hnil : rest = []
  · subst hnil
    obtain ⟨q, hadvance, heof⟩ := h.advance_nil
    rw [advanced, hadvance]
    exact iff_of_true heof.exact not_overlong_nil
  cases hdecode : utf8Decode rest with
  | mk r tail =>
      cases r with
      | ok c =>
          have htext := utf8Encode_of_decode hdecode
          rw [htext] at h hdecode hnil
          obtain ⟨q, hadvance, hbehind⟩ := h.advance_cons hnil hdecode
          rw [advanced, hadvance, htext]
          refine iff_of_true hbehind.exact fun hover => ?_
          have herror := hover.decode
          rw [hdecode] at herror
          cases herror
      | error e =>
          have hexact : p.advanced.Exact ↔ tail.length = rest.length := by
            simp only [advanced, h.advance_error hnil hdecode, h.isEof, Bool.false_eq_true, if_false, h.remaining, hdecode]
            rw [Exact]
            simp only [UrlPointer.isEof, inputEnd, h.originalInput, h.next, List.length_append, decide_eq_false_iff_not]
            omega
          rw [hexact]
          have hpos := List.length_pos_iff.2 hnil
          rcases utf8Decode_error hdecode with ⟨hover, hshrink, rfl⟩ | ⟨hover, rfl⟩
          · refine iff_of_false (fun hlength => ?_) (not_not_intro hover)
            rw [List.length_take] at hlength
            omega
          · exact iff_of_true rfl hover

/-- The invariant holds in every pass. -/
theorem visits_inv (hwell : ∀ b, base = some b → b.WellFormed) {s : Config}
    (hvisits : Lib.Visits (pass base) (.initial input) s) : s.Holds (ownedInput input) (Inv base (ownedInput input)) :=
  visits_holds (inv_kept hwell (ownedInput_getLast input)) hvisits ⟨[], _, rfl, UrlPointer.at_ofInput _, rfl, rfl, rfl⟩

/-- The run of the parser is safe, if no pass of the loop begins in front of an overlong sequence. -/
theorem parse_safe_iff (hbase : ∀ b, base = some b → Parsed b) :
    SafeRun base input ↔
      ∀ s, Lib.Visits (pass base) (.initial input) s → ¬Overlong s.pointer.remaining := by
  have hwell : ∀ b, base = some b → b.WellFormed := fun b hb => (hbase b hb).wellFormed
  have hkept := inv_kept hwell (ownedInput_getLast input)
  constructor
  · intro hsafe s hvisits
    obtain ⟨before, rest, -, hat, -⟩ := visits_inv hwell hvisits
    rw [hat.remaining]
    exact hat.advanced_exact.1 (hsafe.exact s hvisits).2
  intro hover
  refine
    { returns := Lib.exists_returns_of_measure Config.measure fun s t hvisits hnext =>
        pass_measure hkept (visits_inv hwell hvisits) hnext
      advances := fun s hvisits => ?_
      exact := fun s hvisits => ?_
      asserts := fun s c q hvisits hadvance => ?_
      moves := fun s c q turn hvisits hadvance hrun => ?_ }
  all_goals obtain ⟨before, rest, hinput, hat, hI⟩ := visits_inv hwell hvisits
  · exact hat.isEof
  · have hnot := hover s hvisits
    rw [hat.remaining] at hnot
    exact ⟨hat.exact, hat.advanced_exact.2 hnot⟩
  · rcases hat.advance hadvance with ⟨rfl, rfl, -, hshows⟩ | ⟨unit, tail, rfl, -, hshows⟩
    · exact assertionsHold hwell hI hshows
    · exact assertionsHold hwell hI hshows
  · rcases hat.advance hadvance with ⟨rfl, rfl, heof, hshows⟩ | ⟨unit, tail, rfl, hbehind, hshows⟩
    · have hleads := hkept _ _ _ _ _ _ _ _ hinput hI hshows hrun
      rw [show (q.view 0).isEof = true from heof.isEof] at hleads
      obtain ⟨hinside, hexact⟩ := hleads.staysInside_eof heof
      refine ⟨hinside, hexact, fun hend => ?_⟩
      rcases hleads.next_eof heof with ⟨-, hfinal⟩ | ⟨hend', -⟩
      · exact finish_not_opaque hfinal.1
      · rw [hend] at hend'
        cases hend'
    · have hleads := hkept _ _ _ _ _ _ _ _ hinput hI hshows hrun
      rw [show (q.view c).isEof = false from hbehind.isEof] at hleads
      obtain ⟨hinside, hexact⟩ := hleads.staysInside hbehind fun hincrease =>
        hshows.remaining ▸ (runState_forward hrun).increase hincrease
      refine ⟨hinside, hexact, fun hend => ?_⟩
      rw [(hleads.next hbehind).1] at hend
      cases hend

theorem parse_safe_host : SafeRun none (ascii "http://a/") := by
  have hnone : ∀ b, (none : Option UrlRecord) = some b → Parsed b := fun b hb => by cases hb
  refine (parse_safe_iff hnone).2 fun s hvisits => ?_
  obtain ⟨before, rest, hinput, hat, -⟩ := visits_inv (fun b hb => (hnone b hb).wellFormed) hvisits
  rw [hat.remaining]
  intro hover
  cases rest with
  | nil => exact not_overlong_nil hover
  | cons b rest =>
      have hascii : ∀ b ∈ ownedInput (ascii "http://a/"), b < 0x80 := by decide +kernel
      have herror := hover.decode
      rw [utf8Decode_ascii (hascii b (hinput ▸ List.mem_append_right _ List.mem_cons_self))] at herror
      cases herror

/-- Two bytes for U+0000. -/
theorem parse_unsafe_overlong : ¬SafeRun none [0xc0, 0x80] := by
  intro hsafe
  have hexact := (hsafe.exact _ .refl).2 (by decide)
  revert hexact
  decide

end Rad.Url
