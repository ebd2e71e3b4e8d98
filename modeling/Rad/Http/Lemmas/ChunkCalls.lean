import Rad.Http.Lemmas.ChunkRun

/-!
# Chunked bodies without callbacks

A null callback is called where an extension or a trailer is there as a whole, and up to there the parser does what it does with
callbacks that accept everything.
-/

namespace Rad.Http

open Lib

/-- A text up to the first character that is none of `p`. -/
theorem first_not (p : UInt8 → Bool) (t : Bytes) :
    (∀ b ∈ t, p b = true) ∨ ∃ x b u, t = x ++ b :: u ∧ (∀ c ∈ x, p c = true) ∧ p b = false := by
  induction t with
  | nil => exact .inl nofun
  | cons c t ih =>
      cases hc : p c with
      | false => exact .inr ⟨[], c, t, rfl, nofun, hc⟩
      | true =>
          rcases ih with hall | ⟨x, b, u, rfl, hx, hb⟩
          · exact .inl (List.forall_mem_cons.2 ⟨hc, hall⟩)
          · exact .inr ⟨c :: x, b, u, rfl, List.forall_mem_cons.2 ⟨hc, hx⟩, hb⟩

/-- There is one such character at most. -/
theorem first_not_unique {p : UInt8 → Bool} {x x' u u' : Bytes} {b b' : UInt8} (h : x ++ b :: u = x' ++ b' :: u')
    (hx : ∀ c ∈ x, p c = true) (hb : p b = false) (hx' : ∀ c ∈ x', p c = true) (hb' : p b' = false) :
    x = x' ∧ b = b' ∧ u = u' := by
  have htake : ∀ {x u : Bytes} {b : UInt8}, (∀ c ∈ x, p c = true) → p b = false →
      (x ++ b :: u).takeWhile p = x ∧ (x ++ b :: u).dropWhile p = b :: u := fun hx hb =>
    ⟨by rw [List.takeWhile_append_of_pos hx, List.takeWhile_cons_of_neg (by rw [hb]; nofun), List.append_nil],
      by rw [List.dropWhile_append_of_pos hx, List.dropWhile_cons_of_neg (by rw [hb]; nofun)]⟩
  have h₁ := htake (u := u) hx hb
  have h₂ := htake (u := u') hx' hb'
  rw [h] at h₁
  exact ⟨h₁.1.symm.trans h₂.1, List.cons.inj (h₁.2.symm.trans h₂.2)⟩

/-! ## Extensions -/

section

variable {η : Type*}

/-- What `parse_chunk_extensions` is given for a null callback. -/
def nullView (η : Type*) : ChunkExtensionCallback η := ChunkExtensionCallback.ofVariable none

theorem callExtension_nullView (env : η) (name value : Bytes) :
    callExtension (nullView η) env name value = (env, some .undefined) := rfl

/-- The run comes to a call. -/
def Undefined (ctx : ParseChunkExtensionsContext) (env : η) (t : Bytes) : Prop :=
  ((extensionsMachine (nullView η)).run (ctx, env) t).error = some .undefined

variable {ctx ctx' : ParseChunkExtensionsContext} {env : η} {t rest : Bytes} {b : UInt8} {e : Error}

theorem undefined_nil : ¬Undefined ctx env [] := by
  rw [Undefined, Machine.run_nil]
  nofun

theorem undefined_next (h : extensionsTurn (nullView η) (ctx, env) b t = .next (ctx', env) rest) :
    Undefined ctx env (b :: t) ↔ Undefined ctx' env rest := by
  rw [Undefined, Undefined, Machine.run_next h]

theorem undefined_stop {s' : ParseChunkExtensionsContext × η} (h : extensionsTurn (nullView η) (ctx, env) b t = .stop s' rest) :
    ¬Undefined ctx env (b :: t) := by
  rw [Undefined, Machine.run_stop h]
  nofun

theorem undefined_fail {s' : ParseChunkExtensionsContext × η}
    (h : extensionsTurn (nullView η) (ctx, env) b t = .fail s' rest e) : Undefined ctx env (b :: t) ↔ e = .undefined := by
  rw [Undefined, Machine.run_fail h]
  exact Option.some_inj

theorem undefined_report (hstage : ctx.stage = .reportNameValue) : Undefined ctx env t ↔ t ≠ [] := by
  cases t with
  | nil => exact iff_of_false undefined_nil fun h => h rfl
  | cons b t =>
      have hturn : extensionsTurn (nullView η) (ctx, env) b t = .fail (ctx, env) (b :: t) .undefined := by
        simp only [extensionsTurn, hstage, callExtension_nullView]
      rw [undefined_fail hturn]
      exact iff_of_true rfl (List.cons_ne_nil _ _)

theorem extToken_more {x : Bytes} (hx : ∀ b ∈ x, isHttpTchar b = true) (token : Bytes) :
    parseExtTokenNameValue token x = .more (token ++ x) := by
  have happend := @scanToken_append (fun _ ch => if isHttpTchar ch then .push else .endsBefore) token x
    (fun y b z h => if_pos (hx b (by simp [h]))) []
  rw [List.append_nil] at happend
  exact happend

theorem undefined_token (hstage : ctx.stage = .tokenValue) :
    Undefined ctx env t ↔ ∃ x b u, t = x ++ b :: u ∧ (∀ c ∈ x, isHttpTchar c = true) ∧ isHttpTchar b = false := by
  cases t with
  | nil => exact iff_of_false undefined_nil (by simp)
  | cons ch t =>
      rcases first_not isHttpTchar (ch :: t) with hall | hfirst
      · have hturn : extensionsTurn (nullView η) (ctx, env) ch t =
            .stop ({ ctx with value := ctx.value ++ ch :: t }, env) [] := by
          simp only [extensionsTurn, hstage, extToken_more hall]
        refine iff_of_false (undefined_stop hturn) ?_
        rintro ⟨x, b, u, hsplit, -, hb⟩
        rw [hall b (by simp [hsplit])] at hb
        cases hb
      · refine iff_of_true ?_ hfirst
        obtain ⟨x, b, u, hsplit, hx, hb⟩ := hfirst
        have hturn : extensionsTurn (nullView η) (ctx, env) ch t =
            .next ({ ctx with value := ctx.value ++ x, stage := .reportNameValue }, env) (b :: u) := by
          simp only [extensionsTurn, hstage, hsplit, extToken_finished hx ⟨b, u, rfl, hb⟩]
        rw [undefined_next hturn, undefined_report rfl]
        exact List.cons_ne_nil _ _

theorem undefined_quoted (hstage : ctx.stage = .quotedValue) :
    Undefined ctx env t ↔ ∃ x b u, t = x ++ 0x22 :: b :: u ∧ ∀ c ∈ x, c ≠ 0x22 ∧ isQdtext c = true := by
  have hscan : ∀ {value rest : Bytes}, parseQdtext ctx.value t = .finished value rest ↔
      ∃ x, t = x ++ 0x22 :: rest ∧ value = ctx.value ++ x ∧ ∀ c ∈ x, c ≠ 0x22 ∧ isQdtext c = true := by
    intro value rest
    rw [parseQdtext, scanToken_finished_iff fun _ c => by split_ifs <;> simp]
    constructor
    · rintro ⟨x, c, hsplit, hvalue, hends, hpush⟩
      obtain rfl : c = 0x22 := by
        split_ifs at hends with hquote
        exact hquote
      refine ⟨x, hsplit, hvalue, fun c hc => ?_⟩
      obtain ⟨y, z, rfl⟩ := List.append_of_mem hc
      have hact := hpush y c z rfl
      split_ifs at hact with hquote hqdtext
      exact ⟨hquote, hqdtext⟩
    · rintro ⟨x, hsplit, hvalue, hx⟩
      refine ⟨x, 0x22, hsplit, hvalue, rfl, fun y c z hxy => ?_⟩
      obtain ⟨hquote, hqdtext⟩ := hx c (by simp [hxy])
      exact (if_neg hquote).trans (if_pos hqdtext)
  cases t with
  | nil => exact iff_of_false undefined_nil (by simp)
  | cons ch t =>
      cases hresult : parseQdtext ctx.value (ch :: t) with
      | finished value rest =>
          have hturn : extensionsTurn (nullView η) (ctx, env) ch t =
              .next ({ ctx with value, stage := .reportNameValue }, env) rest := by
            simp only [extensionsTurn, hstage, hresult]
          rw [undefined_next hturn, undefined_report rfl]
          obtain ⟨x, hsplit, -, hx⟩ := hscan.1 hresult
          constructor
          · intro hne
            obtain ⟨b, u, rfl⟩ := List.exists_cons_of_ne_nil hne
            exact ⟨x, b, u, hsplit, hx⟩
          · rintro ⟨x', b, u, hsplit', hx'⟩ rfl
            have hfinished := hscan.2 ⟨x', hsplit', rfl, hx'⟩
            rw [hresult] at hfinished
            cases hfinished
      | more value =>
          have hturn : extensionsTurn (nullView η) (ctx, env) ch t = .stop ({ ctx with value }, env) [] := by
            simp only [extensionsTurn, hstage, hresult]
          refine iff_of_false (undefined_stop hturn) ?_
          rintro ⟨x, b, u, hsplit, hx⟩
          rw [hscan.2 ⟨x, hsplit, rfl, hx⟩] at hresult
          cases hresult
      | failed value e =>
          have hturn : extensionsTurn (nullView η) (ctx, env) ch t = .fail ({ ctx with value }, env) (ch :: t) e := by
            simp only [extensionsTurn, hstage, hresult]
          rw [undefined_fail hturn]
          refine iff_of_false (by rw [parseQdtext_failed hresult]; simp) ?_
          rintro ⟨x, b, u, hsplit, hx⟩
          rw [hscan.2 ⟨x, hsplit, rfl, hx⟩] at hresult
          cases hresult

theorem valueEnd_quote {t : Bytes} :
    ValueEnd (0x22 :: t) ↔ ∃ x b u, t = x ++ 0x22 :: b :: u ∧ ∀ c ∈ x, c ≠ 0x22 ∧ isQdtext c = true := by
  constructor
  · intro h
    generalize htext : (0x22 : UInt8) :: t = text at h
    cases h with
    | @token value rest b h hb =>
        obtain ⟨c, x, rfl⟩ := List.exists_cons_of_ne_nil h.1
        cases htext
        exact absurd (h.2 0x22 List.mem_cons_self) (by decide)
    | @quoted value rest b h =>
        cases htext
        exact ⟨value, b, rest, rfl, h⟩
  · rintro ⟨x, b, u, rfl, hx⟩
    exact .quoted hx

theorem valueEnd_token {c : UInt8} {t : Bytes} (hc : c ≠ 0x22) :
    ValueEnd (c :: t) ↔ isHttpTchar c = true ∧
      ∃ x b u, t = x ++ b :: u ∧ (∀ c ∈ x, isHttpTchar c = true) ∧ isHttpTchar b = false := by
  constructor
  · intro h
    generalize htext : c :: t = text at h
    cases h with
    | @token value rest b h hb =>
        obtain ⟨c', x, rfl⟩ := List.exists_cons_of_ne_nil h.1
        cases htext
        exact ⟨h.2 c List.mem_cons_self, x, b, rest, rfl, fun c hc => h.2 c (List.mem_cons_of_mem _ hc), hb⟩
    | @quoted value rest b h =>
        cases htext
        exact absurd rfl hc
  · rintro ⟨hc, x, b, u, rfl, hx, hb⟩
    exact @ValueEnd.token (c :: x) u b ⟨List.cons_ne_nil _ _, List.forall_mem_cons.2 ⟨hc, hx⟩⟩ hb

theorem valueEnd_starts {t : Bytes} (h : ValueEnd t) : StartsFree t := by
  cases h with
  | token h _ => exact startsFree_append h.1 h.2 _
  | quoted _ => exact ⟨0x22, _, rfl, rfl⟩

theorem undefined_valueStart (hstage : ctx.stage = .valueStart) : Undefined ctx env t ↔ ValueEnd t := by
  cases t with
  | nil =>
      refine iff_of_false undefined_nil fun h => ?_
      obtain ⟨b, u, hnil, -⟩ := valueEnd_starts h
      cases hnil
  | cons ch t =>
      by_cases hquote : ch = 0x22
      · have hturn : extensionsTurn (nullView η) (ctx, env) ch t = .next ({ ctx with stage := .quotedValue }, env) t := by
          simp only [extensionsTurn, hstage, if_pos hquote]
        rw [undefined_next hturn, undefined_quoted rfl, hquote, valueEnd_quote]
      rw [valueEnd_token hquote]
      by_cases htchar : isHttpTchar ch = true
      · have hturn : extensionsTurn (nullView η) (ctx, env) ch t =
            .next ({ ctx with value := ctx.value ++ [ch], stage := .tokenValue }, env) t := by
          simp only [extensionsTurn, hstage, if_neg hquote, if_pos htchar]
        rw [undefined_next hturn, undefined_token rfl]
        exact (and_iff_right htchar).symm
      · have hturn : extensionsTurn (nullView η) (ctx, env) ch t = .fail (ctx, env) (ch :: t) .badChunkExtension := by
          simp only [extensionsTurn, hstage, if_neg hquote, if_neg htchar]
        rw [undefined_fail hturn]
        exact iff_of_false (by simp) fun h => htchar h.1

/-- White space in front of a part that begins with none. -/
theorem undefined_bws {next : ExtensionsNext} (hstage : ctx.stage = .bws next) {P : Bytes → Prop} (hstarts : ∀ u, P u → StartsFree u)
    (hnext : ∀ u, Undefined { ctx with stage := next.stage } env u ↔ P u) :
    Undefined ctx env t ↔ ∃ gap u, t = gap ++ u ∧ IsWs gap ∧ P u := by
  rcases first_not isHttpWs t with hall | ⟨gap, b, u, rfl, hgap, hb⟩
  · refine iff_of_false ?_ ?_
    · cases t with
      | nil => exact undefined_nil
      | cons ch t =>
          have hows : consumeOws (ch :: t) = [] := List.dropWhile_eq_nil_iff.2 hall
          have hturn : extensionsTurn (nullView η) (ctx, env) ch t = .stop (ctx, env) [] := by
            simp only [extensionsTurn, hstage, hows]
          exact undefined_stop hturn
    · rintro ⟨gap, u, rfl, -, hu⟩
      obtain ⟨b, v, rfl, hb⟩ := hstarts u hu
      rw [hall b (by simp)] at hb
      cases hb
  · have hrun : Undefined ctx env (gap ++ b :: u) ↔ Undefined { ctx with stage := next.stage } env (b :: u) := by
      rw [Undefined, extensions_bws hstage hgap ⟨b, u, rfl, hb⟩]
      rfl
    rw [hrun, hnext]
    constructor
    · exact fun hu => ⟨gap, b :: u, rfl, hgap, hu⟩
    · rintro ⟨gap', u', hsplit, hgap', hu'⟩
      obtain ⟨b', v, rfl, hb'⟩ := hstarts u' hu'
      obtain ⟨-, rfl, rfl⟩ := first_not_unique hsplit hgap hb hgap' hb'
      exact hu'

theorem undefined_bwsValueStart (hstage : ctx.stage = .bws .valueStart) :
    Undefined ctx env t ↔ ∃ before u, t = before ++ u ∧ IsWs before ∧ ValueEnd u :=
  undefined_bws hstage (fun _ => valueEnd_starts) fun _ => undefined_valueStart rfl

/-- What is behind a name and white space. -/
def Continues (t : Bytes) : Prop :=
  (∃ u, t = 0x3b :: u) ∨ ∃ before u, t = 0x3d :: (before ++ u) ∧ IsWs before ∧ ValueEnd u

theorem continues_equals {t : Bytes} :
    Continues (0x3d :: t) ↔ ∃ before u, t = before ++ u ∧ IsWs before ∧ ValueEnd u := by
  constructor
  · rintro (⟨u, h⟩ | ⟨before, u, h, hbefore, hu⟩)
    · cases h
    · cases h
      exact ⟨before, u, rfl, hbefore, hu⟩
  · rintro ⟨before, u, rfl, hbefore, hu⟩
    exact .inr ⟨before, u, rfl, hbefore, hu⟩

theorem undefined_eqOrColon (hstage : ctx.stage = .eqOrColon) : Undefined ctx env t ↔ Continues t := by
  cases t with
  | nil => exact iff_of_false undefined_nil (by rintro (⟨u, h⟩ | ⟨before, u, h, -⟩) <;> cases h)
  | cons ch t =>
      by_cases hequals : ch = 0x3d
      · have hturn : extensionsTurn (nullView η) (ctx, env) ch t = .next ({ ctx with stage := .bws .valueStart }, env) t := by
          simp only [extensionsTurn, hstage, if_pos hequals]
        rw [undefined_next hturn, undefined_bwsValueStart rfl, hequals, continues_equals]
      by_cases hsemicolon : ch = 0x3b
      · have hturn : extensionsTurn (nullView η) (ctx, env) ch t =
            .fail ({ ctx with name := [], stage := .bws .name }, env) t .undefined := by
          simp only [extensionsTurn, hstage, if_neg hequals, if_pos hsemicolon, callExtension_nullView]
        rw [undefined_fail hturn, hsemicolon]
        exact iff_of_true rfl (.inl ⟨t, rfl⟩)
      · have hturn : extensionsTurn (nullView η) (ctx, env) ch t = .fail (ctx, env) (ch :: t) .badChunkExtension := by
          simp only [extensionsTurn, hstage, if_neg hequals, if_neg hsemicolon]
        rw [undefined_fail hturn]
        refine iff_of_false (by simp) ?_
        rintro (⟨u, h⟩ | ⟨before, u, h, -⟩)
        · cases h
          exact hsemicolon rfl
        · cases h
          exact hequals rfl

theorem continues_starts {t : Bytes} (h : Continues t) : StartsFree t := by
  rcases h with ⟨u, rfl⟩ | ⟨before, u, rfl, -, -⟩
  · exact ⟨0x3b, u, rfl, rfl⟩
  · exact ⟨0x3d, before ++ u, rfl, rfl⟩

theorem nameEnd_iff {t : Bytes} :
    NameEnd t ↔ (∃ b u, t = b :: u ∧ isHttpTchar b = false ∧ isHttpWs b = false ∧ b ≠ 0x3d) ∨
      ∃ gap u, t = gap ++ u ∧ IsWs gap ∧ Continues u := by
  constructor
  · intro h
    cases h with
    | last hb hws hequals => exact .inl ⟨_, _, rfl, hb, hws, hequals⟩
    | bare hbehind => exact .inr ⟨_, _, rfl, hbehind, .inl ⟨_, rfl⟩⟩
    | value hbehind hbefore h => exact .inr ⟨_, _, rfl, hbehind, .inr ⟨_, _, rfl, hbefore, h⟩⟩
  · rintro (⟨b, u, rfl, hb, hws, hequals⟩ | ⟨gap, u, rfl, hgap, ⟨v, rfl⟩ | ⟨before, v, rfl, hbefore, hv⟩⟩)
    · exact .last hb hws hequals
    · exact .bare hgap
    · exact .value hgap hbefore hv

theorem nameEnd_endsToken {t : Bytes} (h : NameEnd t) : EndsToken t := by
  cases h with
  | last hb _ _ => exact ⟨_, _, rfl, hb⟩
  | bare hbehind => exact endsToken_ws hbehind ⟨0x3b, _, rfl, rfl⟩
  | value hbehind _ _ => exact endsToken_ws hbehind ⟨0x3d, _, rfl, rfl⟩

/-- The name of an extension and what is behind it. -/
def NameFirst (t : Bytes) : Prop := ∃ name u, t = name ++ u ∧ IsToken name ∧ NameEnd u

theorem nameFirst_starts {t : Bytes} (h : NameFirst t) : StartsFree t := by
  obtain ⟨name, u, rfl, hname, -⟩ := h
  exact startsFree_append hname.1 hname.2 u

theorem nameFirst_iff {name u : Bytes} {b : UInt8} (hname : ∀ c ∈ name, isHttpTchar c = true) (hb : isHttpTchar b = false) :
    NameFirst (name ++ b :: u) ↔ name ≠ [] ∧ NameEnd (b :: u) := by
  constructor
  · rintro ⟨name', u', hsplit, hname', hend⟩
    obtain ⟨b', v, rfl, hb'⟩ := nameEnd_endsToken hend
    obtain ⟨rfl, rfl, rfl⟩ := first_not_unique hsplit hname hb hname'.2 hb'
    exact ⟨hname'.1, hend⟩
  · exact fun ⟨hne, hend⟩ => ⟨name, b :: u, rfl, ⟨hne, hname⟩, hend⟩

theorem undefined_name (hstage : ctx.stage = .name) (hnil : ctx.name = []) : Undefined ctx env t ↔ NameFirst t := by
  rcases first_not isHttpTchar t with hall | ⟨name, b, u, rfl, hname, hb⟩
  · refine iff_of_false ?_ ?_
    · cases t with
      | nil => exact undefined_nil
      | cons ch t =>
          have hturn : extensionsTurn (nullView η) (ctx, env) ch t = .stop ({ ctx with name := ctx.name ++ ch :: t }, env) [] := by
            simp only [extensionsTurn, hstage, extToken_more hall]
          exact undefined_stop hturn
    · rintro ⟨name, u, rfl, -, hend⟩
      obtain ⟨b, v, rfl, hb⟩ := nameEnd_endsToken hend
      rw [hall b (by simp)] at hb
      cases hb
  rw [nameFirst_iff hname hb]
  have hscan : parseExtTokenNameValue ctx.name (name ++ b :: u) = .finished name (b :: u) := by
    rw [hnil]
    exact extToken_finished hname ⟨b, u, rfl, hb⟩
  obtain ⟨ch, t, htext⟩ := List.exists_cons_of_ne_nil (List.append_ne_nil_of_right_ne_nil name (List.cons_ne_nil b u))
  rw [htext] at hscan ⊢
  by_cases hempty : name = []
  · have hturn : extensionsTurn (nullView η) (ctx, env) ch t = .fail ({ ctx with name }, env) (b :: u) .badChunkExtension := by
      simp only [extensionsTurn, hstage, hscan, if_pos hempty]
    rw [undefined_fail hturn]
    exact iff_of_false (by simp) fun h => h.1 hempty
  rw [and_iff_right hempty]
  by_cases hequals : b = 0x3d
  · have hturn : extensionsTurn (nullView η) (ctx, env) ch t = .next ({ ctx with name, stage := .bws .valueStart }, env) u := by
      simp only [extensionsTurn, hstage, hscan, if_neg hempty, if_pos hequals]
    rw [undefined_next hturn, undefined_bwsValueStart rfl, ← continues_equals, hequals, nameEnd_iff]
    constructor
    · exact fun h => .inr ⟨[], _, rfl, (fun _ h => by cases h), h⟩
    · rintro (⟨b', v, h, -, -, hother⟩ | ⟨gap, v, h, hgap, hv⟩)
      · cases h
        exact absurd rfl hother
      · obtain ⟨c, w, rfl, hc⟩ := continues_starts hv
        obtain ⟨-, rfl, rfl⟩ := first_not_unique (x := []) h (by simp) rfl hgap hc
        exact hv
  by_cases hws : isHttpWs b = true
  · have hturn : extensionsTurn (nullView η) (ctx, env) ch t =
        .next ({ ctx with name, stage := .bws .eqOrColon }, env) (b :: u) := by
      simp only [extensionsTurn, hstage, hscan, if_neg hempty, if_neg hequals, if_pos hws]
    rw [undefined_next hturn, undefined_bws rfl (fun _ => continues_starts) fun _ => undefined_eqOrColon rfl, nameEnd_iff]
    refine (or_iff_right ?_).symm
    rintro ⟨b', v, h, -, hfree, -⟩
    cases h
    rw [hws] at hfree
    cases hfree
  · have hturn : extensionsTurn (nullView η) (ctx, env) ch t =
        .fail ({ ctx with name := [], stage := .done }, env) (b :: u) .undefined := by
      simp only [extensionsTurn, hstage, hscan, if_neg hempty, if_neg hequals, if_neg hws, callExtension_nullView]
    rw [undefined_fail hturn]
    exact iff_of_true rfl (.last hb (Bool.eq_false_iff.2 hws) hequals)

/-- What is behind a semicolon. -/
def GapFirst (t : Bytes) : Prop := ∃ gap u, t = gap ++ u ∧ IsWs gap ∧ NameFirst u

theorem undefined_bwsName (hstage : ctx.stage = .bws .name) (hnil : ctx.name = []) : Undefined ctx env t ↔ GapFirst t :=
  undefined_bws hstage (fun _ => nameFirst_starts) fun _ => undefined_name rfl hnil

def SemicolonFirst (t : Bytes) : Prop := ∃ u, t = 0x3b :: u ∧ GapFirst u

theorem undefined_colon (hstage : ctx.stage = .colon) (hnil : ctx.name = []) : Undefined ctx env t ↔ SemicolonFirst t := by
  cases t with
  | nil => exact iff_of_false undefined_nil (by rintro ⟨u, h, -⟩; cases h)
  | cons ch t =>
      by_cases hsemicolon : ch ≠ 0x3b
      · have hturn : extensionsTurn (nullView η) (ctx, env) ch t = .fail (ctx, env) (ch :: t) .badChunkExtension := by
          simp only [extensionsTurn, hstage, if_pos hsemicolon]
        rw [undefined_fail hturn]
        refine iff_of_false (by simp) ?_
        rintro ⟨u, h, -⟩
        cases h
        exact hsemicolon rfl
      · have hturn : extensionsTurn (nullView η) (ctx, env) ch t = .next ({ ctx with stage := .bws .name }, env) t := by
          simp only [extensionsTurn, hstage, if_neg hsemicolon]
        have hgap : Undefined { ctx with stage := .bws .name } env t ↔ GapFirst t := undefined_bwsName rfl hnil
        rw [undefined_next hturn, hgap, not_not.1 hsemicolon]
        constructor
        · exact fun h => ⟨t, rfl, h⟩
        · rintro ⟨u, h, hu⟩
          cases h
          exact hu

theorem semicolonFirst_starts {t : Bytes} (h : SemicolonFirst t) : StartsFree t := by
  obtain ⟨u, rfl, -⟩ := h
  exact ⟨0x3b, u, rfl, rfl⟩

theorem extensionFirst_iff {t : Bytes} : ExtensionFirst t ↔ ∃ before u, t = before ++ u ∧ IsWs before ∧ SemicolonFirst u := by
  constructor
  · rintro ⟨hbefore, hgap, hname, h⟩
    exact ⟨_, _, rfl, hbefore, _, rfl, _, _, rfl, hgap, _, _, rfl, hname, h⟩
  · rintro ⟨before, _, rfl, hbefore, _, rfl, gap, _, rfl, hgap, name, u, rfl, hname, hend⟩
    exact .mk hbefore hgap hname hend

/-- An extension is called back for exactly where it is there as a whole. -/
theorem undefined_check (hstage : ctx.stage = .check) (hnil : ctx.name = []) : Undefined ctx env t ↔ ExtensionFirst t := by
  rw [extensionFirst_iff]
  cases t with
  | nil =>
      refine iff_of_false undefined_nil ?_
      rintro ⟨before, u, h, -, v, rfl, -⟩
      exact List.append_ne_nil_of_right_ne_nil before (List.cons_ne_nil _ _) h.symm
  | cons ch t =>
      by_cases hws : isHttpWs ch = true
      · have hturn : extensionsTurn (nullView η) (ctx, env) ch t = .next ({ ctx with stage := .bws .colon }, env) t := by
          simp only [extensionsTurn, hstage, if_pos hws]
        have hcolon : ∀ u, Undefined { ctx with stage := .colon } env u ↔ SemicolonFirst u := fun u => undefined_colon rfl hnil
        rw [undefined_next hturn, undefined_bws rfl (fun _ => semicolonFirst_starts) hcolon]
        constructor
        · rintro ⟨before, u, rfl, hbefore, hu⟩
          exact ⟨ch :: before, u, rfl, List.forall_mem_cons.2 ⟨hws, hbefore⟩, hu⟩
        · rintro ⟨before, u, h, hbefore, hu⟩
          cases before with
          | nil =>
              obtain ⟨c, v, rfl, hc⟩ := semicolonFirst_starts hu
              cases h
              rw [hws] at hc
              cases hc
          | cons c before =>
              cases h
              exact ⟨before, u, rfl, (List.forall_mem_cons.1 hbefore).2, hu⟩
      have hfree : isHttpWs ch = false := Bool.eq_false_iff.2 hws
      have hfirst : (∃ before u, ch :: t = before ++ u ∧ IsWs before ∧ SemicolonFirst u) ↔ SemicolonFirst (ch :: t) := by
        constructor
        · rintro ⟨before, u, h, hbefore, hu⟩
          obtain ⟨c, v, rfl, hc⟩ := semicolonFirst_starts hu
          obtain ⟨-, rfl, rfl⟩ := first_not_unique (x := []) h (by simp) hfree hbefore hc
          exact hu
        · exact fun h => ⟨[], _, rfl, (fun _ h => by cases h), h⟩
      rw [hfirst]
      by_cases hsemicolon : ch = 0x3b
      · have hturn : extensionsTurn (nullView η) (ctx, env) ch t = .next ({ ctx with stage := .bws .name }, env) t := by
          simp only [extensionsTurn, hstage, if_neg hws, if_pos hsemicolon]
        have hgap : Undefined { ctx with stage := .bws .name } env t ↔ GapFirst t := undefined_bwsName rfl hnil
        rw [undefined_next hturn, hgap, hsemicolon]
        constructor
        · exact fun h => ⟨t, rfl, h⟩
        · rintro ⟨u, h, hu⟩
          cases h
          exact hu
      · have hturn : extensionsTurn (nullView η) (ctx, env) ch t = .stop ({ ctx with stage := .done }, env) (ch :: t) := by
          simp only [extensionsTurn, hstage, if_neg hws, if_neg hsemicolon]
        refine iff_of_false (undefined_stop hturn) ?_
        rintro ⟨u, h, -⟩
        cases h
        exact hsemicolon rfl

/-! What the parser of extensions comes to otherwise. -/

theorem parseExtensions_undefined (env : η) (t : Bytes) :
    (parseChunkExtensions (nullView η) {} env t).error = some .undefined ↔ ExtensionFirst t := by
  have hcheck : Undefined {} env t ↔ ExtensionFirst t := undefined_check rfl rfl
  rw [← hcheck]
  change ((extensionsMachine (nullView η)).parse _ _ _ _).error = _ ↔ _
  rw [Machine.parse_error rfl, Undefined]

theorem parseExtensions_none (env : η) (hws : isHttpWs b = false) (hsemicolon : b ≠ 0x3b) (t : Bytes) :
    parseChunkExtensions (nullView η) {} env (b :: t) = ⟨({ stage := .done }, env), b :: t, none⟩ := by
  have hturn : (extensionsMachine (nullView η)).turn ({}, env) b t = .stop ({ stage := .done }, env) (b :: t) := by
    simp only [extensionsMachine_turn, extensionsTurn, hws, if_neg hsemicolon]
    rfl
  change (extensionsMachine (nullView η)).parse _ _ _ _ = _
  rw [Machine.parse, Machine.run_stop hturn]
  rfl

/-- A stage behind the beginning of an extension. -/
def ExtensionsStage.Inside (stage : ExtensionsStage) : Prop := stage ≠ .check ∧ stage ≠ .done

theorem extensions_inside (s : ParseChunkExtensionsContext × η) (ch : UInt8) (tail : Bytes) (h : s.1.stage.Inside) :
    (∃ s' rest e, extensionsTurn (nullView η) s ch tail = .fail s' rest e) ∨
      (extensionsTurn (nullView η) s ch tail).state.1.stage.Inside := by
  obtain ⟨ctx, env⟩ := s
  cases hstage : ctx.stage with
  | check => exact absurd hstage h.1
  | bws next =>
      simp only [extensionsTurn, hstage]
      split
      · exact .inr h
      · cases next <;> exact .inr ⟨(fun h => by cases h), (fun h => by cases h)⟩
  | colon =>
      simp only [extensionsTurn, hstage]
      split
      · exact .inl ⟨_, _, _, rfl⟩
      · exact .inr ⟨(fun h => by cases h), (fun h => by cases h)⟩
  | name =>
      simp only [extensionsTurn, hstage, callExtension_nullView]
      split
      · exact .inl ⟨_, _, _, rfl⟩
      · exact .inr ⟨(fun h => by cases h), (fun h => by cases h)⟩
      split
      · exact .inl ⟨_, _, _, rfl⟩
      split
      · exact .inl ⟨_, _, _, rfl⟩
      split
      · exact .inr ⟨(fun h => by cases h), (fun h => by cases h)⟩
      split
      · exact .inr ⟨(fun h => by cases h), (fun h => by cases h)⟩
      · exact .inl ⟨_, _, _, rfl⟩
  | eqOrColon =>
      simp only [extensionsTurn, hstage, callExtension_nullView]
      split
      · exact .inr ⟨(fun h => by cases h), (fun h => by cases h)⟩
      split <;> exact .inl ⟨_, _, _, rfl⟩
  | valueStart =>
      simp only [extensionsTurn, hstage]
      split
      · exact .inr ⟨(fun h => by cases h), (fun h => by cases h)⟩
      split
      · exact .inr ⟨(fun h => by cases h), (fun h => by cases h)⟩
      · exact .inl ⟨_, _, _, rfl⟩
  | tokenValue =>
      simp only [extensionsTurn, hstage]
      split
      · exact .inl ⟨_, _, _, rfl⟩
      · exact .inr ⟨(fun h => by cases h), (fun h => by cases h)⟩
      · exact .inr ⟨(fun h => by cases h), (fun h => by cases h)⟩
  | quotedValue =>
      simp only [extensionsTurn, hstage]
      split
      · exact .inl ⟨_, _, _, rfl⟩
      · exact .inr ⟨(fun h => by cases h), (fun h => by cases h)⟩
      · exact .inr ⟨(fun h => by cases h), (fun h => by cases h)⟩
  | reportNameValue =>
      simp only [extensionsTurn, hstage, callExtension_nullView]
      exact .inl ⟨_, _, _, rfl⟩
  | done => exact absurd hstage h.2
  | error =>
      simp only [extensionsTurn, hstage]
      exact .inr h
  | undefined =>
      simp only [extensionsTurn, hstage]
      exact .inr h

/-- Extensions that have begun are not done without a call. -/
theorem parseExtensions_some (env : η) (hbegins : isHttpWs b = true ∨ b = 0x3b) {t : Bytes}
    (herror : (parseChunkExtensions (nullView η) {} env (b :: t)).error = none) :
    (parseChunkExtensions (nullView η) {} env (b :: t)).state.1.stage ≠ .done ∧
      (parseChunkExtensions (nullView η) {} env (b :: t)).rest = [] := by
  have hturn : ∃ ctx : ParseChunkExtensionsContext, ctx.stage.Inside ∧
      (extensionsMachine (nullView η)).turn ({}, env) b t = .next (ctx, env) t := by
    by_cases hws : isHttpWs b = true
    · refine ⟨{ stage := .bws .colon }, ⟨(by simp), (by simp)⟩, ?_⟩
      simp only [extensionsMachine_turn, extensionsTurn, if_pos hws]
    · refine ⟨{ stage := .bws .name }, ⟨(by simp), (by simp)⟩, ?_⟩
      simp only [extensionsMachine_turn, extensionsTurn, if_neg hws, if_pos (hbegins.resolve_left hws)]
  obtain ⟨ctx, hinside, hturn⟩ := hturn
  have hrun : ((extensionsMachine (nullView η)).run (ctx, env) t).error = none := by
    change ((extensionsMachine (nullView η)).parse _ _ _ _).error = none at herror
    rwa [Machine.parse_error rfl, Machine.run_next hturn] at herror
  have hstage : ((extensionsMachine (nullView η)).run (ctx, env) t).state.1.stage.Inside :=
    Machine.run_preserves_of_none (I := fun s : ParseChunkExtensionsContext × η => s.1.stage.Inside) extensions_inside
      hinside hrun
  have hnot : (parseChunkExtensions (nullView η) {} env (b :: t)).state.1.stage ≠ .done := by
    change ((extensionsMachine (nullView η)).parse _ _ _ _).state.1.stage ≠ .done
    rw [Machine.parse_of_none rfl (by rwa [Machine.run_next hturn]), Machine.run_next hturn]
    exact hstage.2
  exact ⟨hnot, ((parseChunkExtensions_parses (nullView η)).all (s := ({}, env)) herror).resolve_right hnot⟩

end

end Rad.Http
