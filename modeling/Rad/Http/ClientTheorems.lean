import Rad.Http.Parser
import Rad.Http.Lemmas.Pieces
import Rad.Http.ParserTheorems

/-!
# When a response is read

`read_http_response` asks for bytes before it looks at those that it has. It ends with the last byte of the final
response if and only if each response comes with a read of its own, and no read ends in a token of a status line.
-/

namespace Rad.Http

/-- The reads bring the text, and the last byte of it comes with the last of them. -/
def Delivers (reads : List Bytes) (text : Bytes) : Prop :=
  ∃ before last tail, reads = before ++ [last] ∧ reads.flatten = text ++ tail ∧ tail.length < last.length

/-! ## The loops -/

section

variable {expects : Bool} {s : Reading} {reads rest : List Bytes} {read rbuf : Bytes} {res : Response}

theorem done_of_needMore (h : s.parser.needMore = true) : s.parser.done = false := by
  simp only [IncrementalParser.needMore, Bool.and_eq_true, Bool.not_eq_true'] at h
  exact h.1

theorem needMore_of_done (h : s.parser.done = true) : s.parser.needMore = false := by
  simp [IncrementalParser.needMore, h]

theorem readHttpResponse_read (h : s.parser.needMore = true) :
    ReadHttpResponse expects s (read :: reads) (.completed res rbuf rest) ↔
      ∃ r, s.parser.Parse (s.rbuf ++ read) r ∧ r.ec = none ∧
        ReadHttpResponse expects { s with parser := r.parser, rbuf := r.input } reads (.completed res rbuf rest) := by
  refine ⟨fun hread => ?_, fun ⟨r, hparse, hec, hnext⟩ => .read h hparse hec hnext⟩
  cases hread with
  | read _ hparse hec hnext => exact ⟨_, hparse, hec, hnext⟩
  | nextResponse hdone => simp [done_of_needMore h] at hdone
  | ends hdone => simp [done_of_needMore h] at hdone

/-- Behind a response, as `afterResponse` says. -/
theorem readHttpResponse_next {s' : Reading} {result : ReadResult} (h : s.parser.done = true)
    (hafter : s.afterResponse expects reads = .inl s') :
    ReadHttpResponse expects s reads result ↔ ReadHttpResponse expects s' reads result := by
  refine ⟨fun hread => ?_, .nextResponse h hafter⟩
  cases hread with
  | waits hmore => simp [needMore_of_done h] at hmore
  | read hmore => simp [needMore_of_done h] at hmore
  | fails hmore => simp [needMore_of_done h] at hmore
  | nextResponse _ hafter' hnext =>
      rw [hafter] at hafter'
      cases hafter'
      exact hnext
  | ends _ hafter' =>
      rw [hafter] at hafter'
      cases hafter'

theorem readHttpResponse_end {result : ReadResult} (result' : ReadResult) (h : s.parser.done = true)
    (hafter : s.afterResponse expects reads = .inr result') :
    ReadHttpResponse expects s reads result ↔ result = result' := by
  refine ⟨fun hread => ?_, ?_⟩
  · cases hread with
    | waits hmore => simp [needMore_of_done h] at hmore
    | read hmore => simp [needMore_of_done h] at hmore
    | fails hmore => simp [needMore_of_done h] at hmore
    | nextResponse _ hafter' =>
        rw [hafter] at hafter'
        cases hafter'
    | ends _ hafter' =>
        rw [hafter] at hafter'
        cases hafter'
        rfl
  · rintro rfl
    exact .ends h hafter

/-- Nothing comes back of a read. -/
theorem ReadHttpResponse.length_le {result : ReadResult} (h : ReadHttpResponse expects s reads result)
    (hresult : result = .completed res rbuf rest) : rest.length ≤ reads.length := by
  induction h with
  | waits => cases hresult
  | read _ _ _ _ ih => exact (ih hresult).trans (Nat.le_succ _)
  | fails => cases hresult
  | nextResponse _ _ _ ih => exact ih hresult
  | ends _ hafter =>
      subst hresult
      simp only [Reading.afterResponse] at hafter
      split at hafter
      · split at hafter <;> cases hafter
      split at hafter
      · cases hafter
      split at hafter <;> cases hafter
      exact le_rfl

/-- A parser that needs more has a read. -/
theorem not_readHttpResponse_rest (h : s.parser.needMore = true) :
    ¬ReadHttpResponse expects s reads (.completed res rbuf reads) := by
  intro hread
  cases hread with
  | read _ _ _ hnext =>
      have := hnext.length_le rfl
      simp only [List.length_cons] at this
      omega
  | nextResponse hdone => simp [done_of_needMore h] at hdone
  | ends hdone => simp [done_of_needMore h] at hdone

end

/-! ## One response -/

/-- The parser goes on as a new one would on the bytes that were read of the response, which are `data`. -/
structure Tracks (out : Response) (data : Bytes) (s : Reading) : Prop where
  needMore : s.parser.needMore = true
  longer (u : Bytes) {r : ParseState ParseStatusLineContext Response} (h : s.parser.Parse (s.rbuf ++ u) r) :
    ∃ r', (ResponseIncrementalParser.new out).Parse (data ++ u) r' ∧ r.Agrees r'
  shorter (u : Bytes) {r : ParseState ParseStatusLineContext Response}
    (h : (ResponseIncrementalParser.new out).Parse (data ++ u) r) : ∃ r', s.parser.Parse (s.rbuf ++ u) r' ∧ r'.Agrees r

theorem tracks_new (out : Response) (data : Bytes) (received : Bool) : Tracks out data ⟨.new out, data, received⟩ where
  needMore := rfl
  longer _ r h := ⟨r, h, .refl r⟩
  shorter _ r h := ⟨r, h, .refl r⟩

section

variable {out res : Response} {data head read : Bytes} {s : Reading} {r : ParseState ParseStatusLineContext Response}

/-- The head as a whole. -/
theorem Tracks.parse_head (h : Tracks out data s)
    (hhead : (ResponseIncrementalParser.new out).Parse head ⟨⟨res, .done⟩, [], none⟩) {v : Bytes}
    (hdata : data ++ read = head ++ v) :
    s.parser.Parse (s.rbuf ++ read) r ↔ r = ⟨⟨res, .done⟩, v, none⟩ := by
  have hwhole : (ResponseIncrementalParser.new out).Parse (data ++ read) ⟨⟨res, .done⟩, v, none⟩ := by
    rw [hdata]
    cases MessageFormat.parses_continues responseFormat_inPieces hhead with
    | fails hec => cases hec
    | ends _ _ hmore => exact hmore v
    | goesOn _ hdone => cases hdone
  obtain ⟨r', hr', hagrees⟩ := h.shorter read hwhole
  obtain rfl := hagrees.eq_of_none hagrees.ec
  refine ⟨fun hr => MessageFormat.Parses.unique hr hr', ?_⟩
  rintro rfl
  exact hr'

/-- A part of the head. -/
theorem Tracks.parse_part (h : Tracks out data s)
    (hhead : (ResponseIncrementalParser.new out).Parse head ⟨⟨res, .done⟩, [], none⟩) {w : Bytes} (hw : w ≠ [])
    (hdata : head = data ++ read ++ w) :
    ((∃ r, s.parser.Parse (s.rbuf ++ read) r) ↔ ¬ParseStatusLineContext.EndsInToken {} (data ++ read)) ∧
      ∀ r, s.parser.Parse (s.rbuf ++ read) r → r.ec = none ∧
        Tracks out (data ++ read) { s with parser := r.parser, rbuf := r.input } := by
  have htoken : (∃ r, (ResponseIncrementalParser.new out).Parse (data ++ read) r) ↔
      ¬ParseStatusLineContext.EndsInToken {} (data ++ read) := responseParse_iff (.new out) (data ++ read)
  refine ⟨⟨fun ⟨r, hr⟩ => htoken.1 ?_, fun hends => ?_⟩, fun r hr => ?_⟩
  · obtain ⟨r', hr', -⟩ := h.longer read hr
    exact ⟨r', hr'⟩
  · obtain ⟨r, hr⟩ := htoken.2 hends
    obtain ⟨r', hr', -⟩ := h.shorter read hr
    exact ⟨r', hr'⟩
  · obtain ⟨r', hr', hagrees⟩ := h.longer read hr
    subst hdata
    cases MessageFormat.parses_continues responseFormat_inPieces hr' with
    | fails _ hfails =>
        obtain ⟨r'', hr'', hec⟩ := hfails w
        obtain rfl := MessageFormat.Parses.unique hr'' hhead
        cases hec
    | ends _ _ hends =>
        have := MessageFormat.Parses.unique (hends w) hhead
        simp [hw] at this
    | goesOn hec hdone hinput hlonger hshorter =>
        obtain rfl := hagrees.eq_of_none (hagrees.ec.trans hec)
        obtain ⟨parser, input, ec⟩ := r
        dsimp only at hec hdone hinput hlonger hshorter
        subst hec hinput
        have herror : parser.hasError = false := by
          obtain ⟨r'', hr'', hagrees'⟩ := hshorter w _ hhead
          obtain rfl := hagrees'.eq_of_none hagrees'.ec
          obtain ⟨out', stage⟩ := parser
          cases stage with
          | error e => cases hr''
          | _ => rfl
        have hmore : parser.needMore = true := by simp [IncrementalParser.needMore, hdone, herror]
        exact ⟨rfl, hmore, fun u r => hlonger u r, fun u r => hshorter u r⟩

end

/-! ## All responses -/

/-- What the first response has to be. -/
def Expected (expects : Bool) (received : Bool) (heads : List (Bytes × Response)) : Prop :=
  expects = true → received = false → ∀ head, heads.head? = some head → head.2.status = 100

section

variable {expects received : Bool} {res : Response} {rbuf : Bytes} {reads rest : List Bytes}

/-- Behind a response that is not the one that was asked for. -/
theorem not_completes_unexpected {final : Response} {rbuf' : Bytes} (hexpects : expects = true)
    (hstatus : res.status ≠ 100) :
    ¬ReadHttpResponse expects ⟨⟨res, .done⟩, rbuf, false⟩ reads (.completed final rbuf' rest) := by
  rw [readHttpResponse_end .badResponseCode rfl (by simp [Reading.afterResponse, hexpects, hstatus])]
  nofun

/-- Behind an informational response a new parser reads the next. -/
theorem informational_iff {result : ReadResult} (hinfo : res.isInformational = true) (hstatus : res.status ≠ 101)
    (hexpected : expects = true → received = false → res.status = 100) :
    ReadHttpResponse expects ⟨⟨res, .done⟩, rbuf, received⟩ reads result ↔
      ReadHttpResponse expects ⟨.new res.clear, rbuf, received || expects⟩ reads result := by
  refine readHttpResponse_next rfl ?_
  cases expects <;> cases received <;> simp_all [Reading.afterResponse]

/-- Behind the final response. -/
theorem final_iff {result : ReadResult} (hfinal : res.isInformational = false)
    (hexpected : expects = true → received = true) :
    ReadHttpResponse expects ⟨⟨res, .done⟩, rbuf, received⟩ reads result ↔ result = .completed res rbuf reads := by
  have hstatus : res.status ≠ 101 := by
    intro h
    simp [Response.isInformational, h] at hfinal
  refine readHttpResponse_end _ rfl ?_
  cases expects <;> cases received <;> simp_all [Reading.afterResponse]

end

theorem completes_iff (expects : Bool) (final : Bytes × Response) (hfinal : final.2.isInformational = false)
    (later reads : List Bytes) :
    ∀ {s : Reading} {out : Response} {data tail : Bytes} {heads : List (Bytes × Response)}, Tracks out data s →
      AreHeads out (heads ++ [final]) → (∀ head ∈ heads, head.2.isInformational = true ∧ head.2.status ≠ 101) →
      data ++ reads.flatten = ((heads ++ [final]).map Prod.fst).flatten ++ tail →
    ((∃ rbuf, ReadHttpResponse expects s (reads ++ later) (.completed final.2 rbuf later)) ↔
      Arrives ((heads ++ [final]).map Prod.fst) data reads ∧
        Expected expects s.received100Continue (heads ++ [final])) := by
  induction reads with
  | nil =>
      intro s out data tail heads htracks _ _ _
      simp only [List.nil_append, Arrives, false_and, iff_false, not_exists]
      exact fun _ => not_readHttpResponse_rest htracks.needMore
  | cons read reads ih =>
      intro s out data tail heads htracks hheads hinfo htexts
      obtain ⟨head, more, hmore⟩ : ∃ head more, heads ++ [final] = head :: more := List.exists_cons_of_ne_nil (by simp)
      have hheads' := hheads
      rw [hmore] at hheads'
      obtain ⟨hhead, hmoreHeads⟩ := hheads'
      simp only [List.cons_append, readHttpResponse_read htracks.needMore, hmore, List.map_cons, Arrives]
      have hread : data ++ read ++ reads.flatten = head.1 ++ ((more.map Prod.fst).flatten ++ tail) := by
        simpa [hmore] using htexts
      have hprefix : head.1 <+: data ++ read ++ reads.flatten := ⟨_, hread.symm⟩
      by_cases hlength : head.1.length ≤ (data ++ read).length
      · obtain ⟨v, hv⟩ : head.1 <+: data ++ read :=
          List.prefix_of_prefix_length_le hprefix (List.prefix_append _ _) hlength
        rw [if_pos hlength, ← hv, List.drop_left]
        simp only [htracks.parse_head hhead hv.symm, exists_eq_left, true_and]
        by_cases hunexpected : expects = true ∧ s.received100Continue = false ∧ head.2.status ≠ 100
        · obtain ⟨hexpects, hreceived, hstatus⟩ := hunexpected
          refine iff_of_false (fun ⟨rbuf, hreads⟩ => ?_) fun ⟨_, hexpected⟩ => ?_
          · rw [hreceived] at hreads
            exact not_completes_unexpected hexpects hstatus hreads
          · exact hstatus (hexpected hexpects hreceived head rfl)
        have hstatus : expects = true → s.received100Continue = false → head.2.status = 100 := fun h h' =>
          not_not.1 fun hne => hunexpected ⟨h, h', hne⟩
        have hexpected : Expected expects s.received100Continue (head :: more) := fun h h' _ heq => by
          cases heq
          exact hstatus h h'
        rw [and_iff_left hexpected]
        cases heads with
        | nil =>
            obtain ⟨rfl, rfl⟩ : final = head ∧ [] = more := by simpa using hmore
            have hreceived : expects = true → s.received100Continue = true := by
              intro h
              by_contra hnone
              simp [Response.isInformational, hstatus h (by simpa using hnone)] at hfinal
            simp only [final_iff hfinal hreceived, ReadResult.completed.injEq, true_and, List.map_nil, if_true,
              exists_eq_left, List.self_eq_append_left]
        | cons _ heads =>
            obtain ⟨rfl, rfl⟩ : _ = head ∧ heads ++ [final] = more := by simpa using hmore
            obtain ⟨hinfoHead, hinfoMore⟩ := List.forall_mem_cons.1 hinfo
            have hlast : (heads ++ [final]).map Prod.fst ≠ [] := by simp
            simp only [informational_iff hinfoHead.1 hinfoHead.2 hstatus]
            have hrest : v ++ reads.flatten = ((heads ++ [final]).map Prod.fst).flatten ++ tail := by
              simpa [← hv] using hread
            rw [if_neg hlast, ih (tracks_new _ _ _) hmoreHeads hinfoMore hrest, and_iff_left]
            intro h hreceived
            simp [h] at hreceived
      · obtain ⟨w, hw⟩ : data ++ read <+: head.1 :=
          List.prefix_of_prefix_length_le (List.prefix_append _ _) hprefix (le_of_not_ge hlength)
        have hne : w ≠ [] := by
          rintro rfl
          simp [← hw] at hlength
        obtain ⟨htoken, hgoesOn⟩ := htracks.parse_part hhead hne hw.symm
        rw [if_neg hlength, ← htoken]
        have hnext {r} (hr : s.parser.Parse (s.rbuf ++ read) r) := ih (hgoesOn r hr).2 hheads hinfo
          (by simpa using htexts)
        constructor
        · rintro ⟨rbuf, r, hr, hec, hreads⟩
          obtain ⟨harrives, hexpected⟩ := (hnext hr).1 ⟨rbuf, hreads⟩
          rw [hmore] at harrives hexpected
          exact ⟨⟨⟨r, hr⟩, harrives⟩, hexpected⟩
        · rintro ⟨⟨⟨r, hr⟩, harrives⟩, hexpected⟩
          obtain ⟨rbuf, hreads⟩ := (hnext hr).2 (by rw [hmore]; exact ⟨harrives, hexpected⟩)
          exact ⟨rbuf, r, hr, (hgoesOn r hr).1, hreads⟩

/-- Informational responses and a final one, and the reads that bring them. -/
theorem readHttpResponse_completes_iff (expects100Continue : Bool) {res : Response} {heads : List (Bytes × Response)}
    {final : Bytes × Response} {reads : List Bytes} (later : List Bytes) (hheads : AreHeads res (heads ++ [final]))
    (hinfo : ∀ head ∈ heads, head.2.isInformational = true ∧ head.2.status ≠ 101)
    (hfinal : final.2.isInformational = false) (hreads : Delivers reads ((heads ++ [final]).map Prod.fst).flatten) :
    (∃ rbuf, ReadHttpResponse expects100Continue { parser := .new res } (reads ++ later)
        (.completed final.2 rbuf later)) ↔
      Arrives ((heads ++ [final]).map Prod.fst) [] reads ∧
        (expects100Continue = true → ∀ head, (heads ++ [final]).head? = some head → head.2.status = 100) := by
  obtain ⟨_, _, tail, -, htexts, -⟩ := hreads
  rw [completes_iff _ _ hfinal _ reads (tracks_new res [] false) hheads hinfo htexts]
  simp [Expected]

theorem areHeads_of_wellFormed (responses : List Response) (h : ∀ res ∈ responses, res.WellFormed) :
    AreHeads {} (responses.map fun res => (res.head, res)) := by
  induction responses with
  | nil => trivial
  | cons res responses ih =>
      obtain ⟨hres, hmore⟩ := List.forall_mem_cons.1 h
      refine ⟨?_, ih hmore⟩
      have hparse := parse_response_head hres []
      rwa [List.append_nil] at hparse

/-- `100` with no reason and no headers. -/
def continueResponse : Response := { status := 100, version := .v1_1 }

/-- `200` with no reason and no headers. -/
def okResponse : Response := { status := 200, version := .v1_1 }

theorem areHeads_continue_ok :
    AreHeads {} ([(continueResponse.head, continueResponse)] ++ [(okResponse.head, okResponse)]) := by
  refine areHeads_of_wellFormed [continueResponse, okResponse] fun res hres => ?_
  obtain rfl | rfl : res = continueResponse ∨ res = okResponse := by simpa using hres
  · exact ⟨by decide, by decide, nofun, ⟨nofun, nofun, .nil, nofun⟩⟩
  · exact ⟨by decide, by decide, nofun, ⟨nofun, nofun, .nil, nofun⟩⟩

/-- Each response in a read of its own. -/
theorem readHttpResponse_completes_two :
    ∃ rbuf, ReadHttpResponse true { parser := .new {} } [continueResponse.head, okResponse.head, ascii "x"]
      (.completed okResponse rbuf [ascii "x"]) := by
  refine (readHttpResponse_completes_iff true [ascii "x"] areHeads_continue_ok ?_ rfl
    ⟨[continueResponse.head], okResponse.head, [], rfl, by simp, by decide⟩).2 ⟨?_, ?_⟩
  · intro head hhead
    obtain rfl := List.mem_singleton.1 hhead
    decide
  · simp [Arrives]
  · rintro _ _ ⟨⟩
    rfl

/-- Both responses in one read: the second is in the buffer, and more is asked for. -/
theorem readHttpResponse_waits_two :
    AreHeads {} ([(continueResponse.head, continueResponse)] ++ [(okResponse.head, okResponse)]) ∧
      Delivers [continueResponse.head ++ okResponse.head] [continueResponse.head, okResponse.head].flatten ∧
      ReadHttpResponse false { parser := .new {} } [continueResponse.head ++ okResponse.head] .waits ∧
      ¬∃ rbuf, ReadHttpResponse false { parser := .new {} } [continueResponse.head ++ okResponse.head]
        (.completed okResponse rbuf []) := by
  refine ⟨areHeads_continue_ok, ⟨[], _, [], rfl, by simp, by decide⟩, ?_, fun hreads => ?_⟩
  · have hwell : continueResponse.WellFormed := ⟨by decide, by decide, nofun, ⟨nofun, nofun, .nil, nofun⟩⟩
    have hparse := parse_response_head hwell okResponse.head
    exact .read rfl hparse rfl (.nextResponse rfl rfl (.waits rfl))
  · have hinfo : ∀ head ∈ [(continueResponse.head, continueResponse)],
        head.2.isInformational = true ∧ head.2.status ≠ 101 := by
      intro head hhead
      obtain rfl := List.mem_singleton.1 hhead
      decide
    have htexts : [] ++ [continueResponse.head ++ okResponse.head].flatten =
        (([(continueResponse.head, continueResponse)] ++ [(okResponse.head, okResponse)]).map Prod.fst).flatten ++ [] := by
      simp
    have hiff := completes_iff false (okResponse.head, okResponse) rfl []
      [continueResponse.head ++ okResponse.head] (tracks_new {} [] false) areHeads_continue_ok hinfo htexts
    have harrives := (hiff.1 hreads).1
    simp [Arrives] at harrives

end Rad.Http
