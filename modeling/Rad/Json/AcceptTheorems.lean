import Rad.Json.Accepted
import Rad.Json.Theorems

/-!
# Theorems: what is accepted

In an accepted text the strings are well-formed UTF-8, control characters in them are accepted, and the numbers are those of
the grammar but for a few that the checks let pass.
-/

namespace Rad.Json

variable {toDouble : Bool → Bytes → Except ErrorCode UInt64}

/-! ## Strings -/

section

variable {data : Bytes} {v : Value}

end

/-! ## The rest of a number -/

section

variable {p : Parser} {pointPos ePos : Nat} {hasMinus : Bool} {below : List Item}

/-- A number at the end of the text is no value of a document. -/
theorem outcome_number_fails (hstack : p.stack = .number pointPos ePos hasMinus :: below) (hlastEc : p.lastEc = none)
    (hstate : p.state = .parsing) (hroot : ∀ n, below = [.document n] → p.handler.stack = []) (v : Value) :
    p.outcome toDouble ≠ .ok v := by
  have hdone : p.state ≠ .done := by rw [hstate]; simp
  by_cases hreader : p.reader = []
  swap
  · rw [Parser.outcome, Parser.finish, hlastEc]
    dsimp only
    rw [if_neg hdone, if_pos hreader]
    simp
  by_cases hbelow : ∃ n, below = [.document n]
  · obtain ⟨n, rfl⟩ := hbelow
    have hrelease : p.handler.release = none := by rw [ValueStack.release, hroot n rfl]; rfl
    rw [Parser.outcome, Parser.finish, hlastEc]
    dsimp only
    rw [if_neg hdone, if_neg (not_not_intro hreader), hstack]
    dsimp only
    cases endsInDigit p.numberText with
    | true =>
        rw [if_pos rfl]
        cases (validateAndReportNumber toDouble p pointPos ePos hasMinus [.document n]).2 <;> simp
    | false =>
        rw [if_neg Bool.false_ne_true]
        dsimp only [Parser.release]
        rw [hrelease]
        simp
  · have hfinish : p.finish toDouble = (p.failWith .incomplete, some .incomplete) := by
      rw [Parser.finish, hlastEc]
      dsimp only
      rw [if_neg hdone, if_neg (not_not_intro hreader), hstack]
      split
      · rename_i hitem
        cases hitem
      · rename_i hitem
        cases hitem
        exact absurd ⟨_, rfl⟩ hbelow
      · rfl
    rw [Parser.outcome, hfinish]
    simp

theorem turn_number (hstack : p.stack = .number pointPos ePos hasMinus :: below) (t : Bytes) :
    turn toDouble p [] t = withCodepoint p t (numberCodepoint toDouble pointPos ePos hasMinus below) := by
  simp only [turn, hstack, parseNumber]

/-- The rest of a number in an accepted text. -/
theorem number_accepted {u post : Bytes} {v : Value} (hstack : p.stack = .number pointPos ePos hasMinus :: below)
    (hreader : p.reader = []) (hlastEc : p.lastEc = none) (hstate : p.state = .parsing)
    (hroot : ∀ n, below = [.document n] → p.handler.stack = []) (hne : p.numberText ≠ [])
    (hresult : p.result toDouble (u ++ post) = .ok v) (hu : ∀ b ∈ u, isNumberByte b = true)
    (hpost : ∀ b, post.head? = some b → isNumberByte b = false) :
    ∃ pointPos' ePos' hasMinus', endsInDigit (p.numberText ++ u) = true ∧
      (∃ v, parseJsonNumber toDouble pointPos' ePos' hasMinus' (p.numberText ++ u) = .ok v) ∧
      (Read p.numberText hasMinus → (p.numberText ++ u).Pairwise MayPrecede → Read (p.numberText ++ u) hasMinus') := by
  induction u generalizing p pointPos ePos hasMinus with
  | nil =>
      rw [List.nil_append] at hresult
      cases post with
      | nil =>
          rw [result_nil] at hresult
          exact absurd hresult (outcome_number_fails hstack hlastEc hstate hroot v)
      | cons b post =>
          have hec := turn_of_result (List.cons_ne_nil _ _) hstate hresult
          rw [turn_number hstack] at hec
          rw [List.append_nil]
          have hd := @decode_decodesAs p.reader (b :: post) (.inl hreader) (List.cons_ne_nil _ _)
          cases hcp : (decode p.reader (b :: post)).result with
          | error e => simp [withCodepoint, hcp] at hec
          | ok cp =>
              obtain ⟨-, hdecode, -⟩ := hd.ok cp hcp
              simp only [withCodepoint, hcp] at hec
              rcases numberCodepoint_cases (p := { p with reader := (decode p.reader (b :: post)).reader }) hne hec with
                ⟨-, -, hends, v, hv, -⟩ | ⟨b', -, -, -, rfl, hascii, hnumber, -⟩
              · exact ⟨_, _, _, hends, ⟨v, hv⟩, fun hread _ => hread⟩
              · rw [hreader, List.nil_append] at hdecode
                obtain ⟨c, -, htext, hc⟩ := utf8Decode_low hdecode (UInt8.lt_iff_toNat_lt.1 hascii)
                obtain rfl := UInt8.toNat_inj.1 hc
                obtain ⟨rfl, -⟩ := List.cons.inj htext
                rw [hpost b rfl] at hnumber
                cases hnumber
  | cons b u ih =>
      obtain ⟨hb, hu'⟩ := List.forall_mem_cons.1 hu
      rw [List.cons_append] at hresult
      have hec := turn_of_result (List.cons_ne_nil _ _) hstate hresult
      have hstep := @turn_number toDouble _ _ _ _ _ hstack (b :: (u ++ post))
      rw [withCodepoint_ascii hreader (isNumberByte_ascii hb)] at hstep
      rw [hstep] at hec
      rcases numberCodepoint_cases hne hec with ⟨hnot, -⟩ | ⟨b', pointPos', ePos', hasMinus', hb', -, -, hact, hread⟩
      · rw [hnot b rfl] at hb
        cases hb
      obtain rfl := UInt8.toNat_inj.1 hb'
      rw [hact] at hstep
      have hrun := run_step hreader hstate (List.cons_ne_nil _ _) hstep
      rw [flush_nil] at hrun
      rw [result_eq_of_run hrun] at hresult
      obtain ⟨pointPos'', ePos'', hasMinus'', hends, hv, hmore⟩ := @ih
        { p with numberText := p.numberText ++ [b'], stack := .number pointPos' ePos' hasMinus' :: below } pointPos' ePos'
        hasMinus' rfl hreader hlastEc hstate hroot (by simp) hresult hu'
      simp only [List.append_assoc, List.singleton_append] at hends hv hmore
      refine ⟨_, _, _, hends, hv, fun hthis hpairs => hmore (hread hthis ?_) hpairs⟩
      exact hpairs.sublist (by simp)

end

/-! ## The numbers of a text -/

/-- A number of a text is a longest piece of the characters of numbers, outside of the strings, that begins with a minus sign or
a digit. -/
structure NumberAt (data front token post : Bytes) : Prop where
  data : data = front ++ (token ++ post)
  outside : Lex.outside.scan front = .outside
  first : front.getLast?.any isNumberByte = false
  start : token.head?.any isNumberStart = true
  bytes : ∀ b ∈ token, isNumberByte b = true
  last : post.head?.any isNumberByte = false

section

variable {data front token post : Bytes} {v : Value}

/-- A number of an accepted text has passed the checks of the parser. -/
theorem NumberAt.accepted (h : NumberAt data front token post) (hparse : parse toDouble data = .ok v) :
    ∃ pointPos ePos hasMinus, endsInDigit token = true ∧
      (∃ v, parseJsonNumber toDouble pointPos ePos hasMinus token = .ok v) ∧
      (token.Pairwise MayPrecede → Read token hasMinus) := by
  obtain ⟨hdata, houtside, hfirst, hstart, hbytes, hlast⟩ := h
  rw [parse_ok_iff, hdata] at hparse
  obtain ⟨b, u, rfl⟩ : ∃ b u, token = b :: u := by
    cases token with
    | nil => cases hstart
    | cons b u => exact ⟨b, u, rfl⟩
  obtain ⟨-, -, hwhite, -⟩ := isNumberStart_facts hstart
  have hnotWhite : ∀ t : Bytes, (b :: t).dropWhile (fun b => isWhiteSpace b.toNat) ≠ [] := fun t hnil => by
    rw [List.dropWhile_cons, hwhite] at hnil
    cases hnil
  obtain ⟨hec, hlastEc, hresult, ⟨hdone, -⟩ | ⟨hstate, -, hreader, ⟨-, hbetween⟩ | ⟨hinside, -⟩⟩⟩ :=
    result_front lexOk_start rfl rfl (.inl houtside) hparse
  · exact absurd (white_of_result hdone hresult) (hnotWhite _)
  swap
  · exact absurd houtside hinside
  have hnot : (run toDouble ({} : Parser).start front).parser.state ≠ .done := by rw [hstate]; nofun
  have hbegun : NumberOk [] ({} : Parser).start := ⟨fun _ => rfl, nofun, fun _ => ⟨rfl, rfl⟩⟩
  obtain ⟨-, hok⟩ := (run_numberOk lexOk_start hbegun nofun hec).resolve_left hnot
  rw [List.nil_append] at hok
  generalize (run toDouble ({} : Parser).start front).parser = p at *
  have hin : p.inNumber = false := by
    by_contra hin
    rw [Bool.not_eq_false] at hin
    rw [(hok.number hin).2] at hfirst
    cases hfirst
  rw [List.cons_append] at hresult
  have hturn := turn_of_result (List.cons_ne_nil _ _) hstate hresult
  have hgoes : (turn toDouble p [] (b :: (u ++ post))).parser.state ≠ .done := by
    intro hdone
    have hturned := @turn_turned toDouble p [] (b :: (u ++ post)) (.inl hreader) (List.cons_ne_nil _ _)
    have hrest := (hturned.ends hdone).resolve_left hnot
    rw [result_eq_of_run (run_next (.inl hreader) (List.cons_ne_nil _ _) hnot hturn)] at hresult
    have hend : (eagerTurn toDouble p (b :: (u ++ post))).parser.state = .done := hdone
    have hwhite := white_of_result hend hresult
    rw [eagerTurn, flushed_rest, hrest] at hwhite
    exact hnotWhite _ hwhite
  obtain ⟨below, hbegin, hroot⟩ := turn_begin hbetween hok hin hstart hturn hgoes
  have hrun := run_step hreader hstate (List.cons_ne_nil _ _) hbegin
  rw [flush_nil] at hrun
  rw [result_eq_of_run hrun] at hresult
  obtain ⟨-, hu⟩ := List.forall_mem_cons.1 hbytes
  have hpost : ∀ c, post.head? = some c → isNumberByte c = false := fun c hc => by
    rw [hc] at hlast
    exact hlast
  have hstart' : b = 0x2d ∨ isDigit b = true := by simpa [isNumberStart] using hstart
  obtain ⟨pointPos, ePos, hasMinus, hends, hv, hread⟩ := number_accepted (p := p.begin b below) rfl hreader hlastEc hstate hroot
    (List.cons_ne_nil _ _) hresult hu hpost
  exact ⟨pointPos, ePos, hasMinus, hends, hv, hread (.start hstart')⟩

/-- The numbers of an accepted text that are numbers of the grammar. -/
theorem NumberAt.numberText_iff (h : NumberAt data front token post) (hparse : parse toDouble data = .ok v) :
    NumberText token ↔ ¬NumberSlip token := by
  refine ⟨NumberText.not_slip, fun hslip => ?_⟩
  obtain ⟨pointPos, ePos, hasMinus, hends, ⟨v, hv⟩, hread⟩ := h.accepted hparse
  have hpairs : token.Pairwise MayPrecede := by
    by_contra hpairs
    exact hslip (.inr (.inr hpairs))
  refine (hread hpairs).number hends (fun hminus d more htext => ?_) hslip
  subst hminus htext
  exact parseJsonNumber_zero hv

/-- In an accepted text the numbers are those of the grammar, unless one begins with a minus sign and a point, or with a minus
sign, a zero and another digit, or has a point or the letter of an exponent where there is one already. -/
theorem numbers_accepted_iff (h : parse toDouble data = .ok v) :
    (∀ front token post, NumberAt data front token post → NumberText token) ↔
      ∀ front token post, NumberAt data front token post → ¬NumberSlip token :=
  forall₃_congr fun _ _ _ => forall_congr' fun hat => hat.numberText_iff h

end

/-- `-01e-1`, in which the second minus sign hides the zero. -/
theorem numbers_accepted_zero :
    ¬∀ front token post, NumberAt (ascii "[-01e-1]") front token post → NumberText token := by
  have hparse : parse (fun _ _ => .ok 0xbfb999999999999a) (ascii "[-01e-1]") = .ok (.array [.double 0xbfb999999999999a]) := rfl
  have hat : NumberAt (ascii "[-01e-1]") (ascii "[") (ascii "-01e-1") (ascii "]") := ⟨rfl, rfl, rfl, rfl, by decide +kernel, rfl⟩
  exact fun h => (numbers_accepted_iff hparse).1 h _ _ _ hat (by decide)

/-- `-.5` is accepted, for a conversion that takes every number. -/
theorem number_point_accepted :
    ¬∀ toDouble : Bool → Bytes → Except ErrorCode UInt64,
      (∀ scientific text, NumberText text → ∃ d, toDouble scientific text = .ok d) →
      ∀ data v, parse toDouble data = .ok v → ∀ front token post, NumberAt data front token post → NumberText token := by
  intro h
  have hparse : parse (fun _ _ => .ok 0xbfe0000000000000) (ascii "[-.5]") = .ok (.array [.double 0xbfe0000000000000]) := rfl
  have hat : NumberAt (ascii "[-.5]") (ascii "[") (ascii "-.5") (ascii "]") := ⟨rfl, rfl, rfl, rfl, by decide +kernel, rfl⟩
  exact (h _ (fun _ _ _ => ⟨_, rfl⟩) _ _ hparse _ _ _ hat).not_slip (by decide)

end Rad.Json
