import Rad.Http.Lemmas.BodyCalls

/-!
# Chunked bodies

A parser that is given a chunked body, in any pieces, appends the data to the output, reports the extensions and the trailers in
order, and leaves what follows the body.
-/

namespace Rad.Http

open Lib

section

variable {η : Type*} (f g : η → Bytes → Bytes → η)

/-- A chunked body in front of any text. -/
theorem parseChunks_body {data : Bytes} {extensions trailers : Headers} {body : Bytes}
    (h : ChunkedBody data extensions trailers body) (out : Bytes) (env : η) (rest : Bytes) :
    parseChunks (some fun env name value => some (f env name value, true)) (some g) { out, env } (body ++ rest) =
      ⟨⟨0, .done, out ++ data, trailers.foldl (fun env header => g env header.1 header.2)
        (extensions.foldl (fun env call => f env call.1 call.2) env)⟩, rest, none⟩ := by
  obtain ⟨chunks, fields, hchunks, hfields, rfl⟩ := h.text
  change (chunksMachine _ _).parse _ _ _ _ = _
  rw [Machine.parse, List.append_assoc, run_chunks (fun _ _ _ => rfl) hchunks, run_trailers h.wellFormed hfields]
  rfl

/-- In whatever pieces the body and what follows it arrive. -/
theorem chunked_body_decodes {data : Bytes} {extensions trailers : Headers} {body : Bytes}
    (h : ChunkedBody data extensions trailers body) (out : Bytes) (env : η) (rest : Bytes) (pieces : List Bytes)
    (hpieces : pieces.flatten = body ++ rest) :
    feed (parseChunks (some fun env name value => some (f env name value, true)) (some g)) ⟨{ out, env }, [], none⟩ pieces =
      ⟨⟨0, .done, out ++ data, trailers.foldl (fun env header => g env header.1 header.2)
        (extensions.foldl (fun env call => f env call.1 call.2) env)⟩, rest, none⟩ := by
  have hbody := parseChunks_body f g h out env rest
  have hfeed := parseChunks_feed (some fun env name value => some (f env name value, true)) (some g) out env pieces
  rw [hpieces, hbody] at hfeed
  exact hfeed.eq_of_none rfl

end

/-- Two octets in a chunk with an extension, a last chunk with zeros in front of its size, and one trailer. -/
theorem chunkedBody_two : ChunkedBody (ascii "hi") [(ascii "a", ascii "b")] [(ascii "T", ascii "v")]
    (ascii "2;a=b\r\nhi\r\n00\r\nT: v\r\n\r\n") where
  wellFormed := {
    name := by
      rintro header hheader
      obtain rfl := List.mem_singleton.1 hheader
      exact ⟨by decide, List.all_eq_true.1 rfl⟩
    value := by
      rintro header hheader
      obtain rfl := List.mem_singleton.1 hheader
      have hchars : (ascii "v").all isFieldVchar = true := rfl
      refine ⟨fun b hb => .inl (List.all_eq_true.1 hchars b hb), ?_, ?_⟩ <;> rintro b ⟨⟩ <;> rfl
    distinct := List.pairwise_singleton _ _
    length := by
      rintro header hheader hname
      obtain rfl := List.mem_singleton.1 hheader
      cases hname }
  text := by
    have hname : ∀ {b : UInt8}, isHttpTchar b = true → IsToken [b] := fun hb =>
      ⟨List.cons_ne_nil _ _, fun c hc => List.mem_singleton.1 hc ▸ hb⟩
    have hnames : ExtensionNames [(ascii "a", ascii "b")] (ascii "a=b") :=
      @ExtensionNames.value [] [] (ascii "a") [] [] (ascii "b") (ascii "b") [] nofun (hname rfl) nofun nofun
        (.token (hname rfl)) .nil
    have hextension : Extensions [(ascii "a", ascii "b")] (ascii ";a=b") := @Extensions.semicolon _ [] _ nofun hnames
    have hsize : SizeLine 2 [(ascii "a", ascii "b")] (ascii "2;a=b\r\n") :=
      @SizeLine.mk (ascii "2") _ _ (by decide) (by decide) (List.all_eq_true.1 rfl) hextension
    have hlast : SizeLine 0 [] (ascii "00\r\n") :=
      @SizeLine.mk (ascii "00") _ _ (by decide) (by decide) (List.all_eq_true.1 rfl) .nil
    have hfield : FieldLine (ascii "T") (ascii "v") (ascii "T: v\r\n") :=
      @FieldLine.mk _ _ (ascii " ") [] (List.all_eq_true.1 rfl) nofun
    exact ⟨_, _, @Chunks.chunk (ascii "hi") _ _ _ _ _ (by decide) hsize (.last hlast), .cons hfield .nil, rfl⟩

/-- The body in two pieces, of which the second goes on behind it. -/
theorem chunked_body_decodes_two :
    feed (parseChunks (some fun env name value => some (env ++ [(name, value)], true))
        (some fun env name value => env ++ [(name, value)])) ⟨{ out := [], env := [] }, [], none⟩
      [ascii "2;a=b\r\nh", ascii "i\r\n00\r\nT: v\r\n\r\nHTTP"] =
      ⟨⟨0, .done, ascii "hi", [(ascii "a", ascii "b"), (ascii "T", ascii "v")]⟩, ascii "HTTP", none⟩ :=
  chunked_body_decodes (fun env name value => env ++ [(name, value)]) (fun env name value => env ++ [(name, value)])
    chunkedBody_two [] [] (ascii "HTTP") [ascii "2;a=b\r\nh", ascii "i\r\n00\r\nT: v\r\n\r\nHTTP"] rfl

/-! ## Null callbacks -/

section

variable {η : Type*} (f g : η → Bytes → Bytes → η) (env : η) (out : Bytes) (pieces : List Bytes)

/-- The extensions and the trailers are dropped where there are no callbacks: none is called, and the data and the error are the
ones that there are with callbacks that accept everything. -/
def DropsWithoutCallbacks : Prop :=
  let dropped := feed (parseChunks none none) ⟨{ out, env }, [], none⟩ pieces
  let accepted := feed (parseChunks (some fun env name value => some (f env name value, true)) (some g)) ⟨{ out, env }, [], none⟩
    pieces
  dropped.error ≠ some .undefined ∧ dropped.state.out = accepted.state.out ∧ dropped.error = accepted.error

theorem drops_of_not_callsBack (h : ¬CallsBack pieces.flatten) : DropsWithoutCallbacks f g env out pieces := by
  have herror : (parseChunks none none { out, env } pieces.flatten).error ≠ some .undefined :=
    fun herror => h ((parseChunks_undefined out env _).1 herror)
  have hdropped := parseChunks_feed none none out env pieces
  have haccepted := parseChunks_feed (some fun env name value => some (f env name value, true)) (some g) out env pieces
  rw [← parseChunks_same herror] at haccepted
  have hagrees := hdropped.trans haccepted.symm
  exact ⟨by rwa [hdropped.error], congrArg ChunksState.out hagrees.state, hagrees.error⟩

theorem not_drops_of_callsBack (h : CallsBack pieces.flatten) : ¬DropsWithoutCallbacks f g env out pieces := by
  intro hdrops
  have herror := (parseChunks_undefined out env _).2 h
  exact hdrops.1 ((parseChunks_feed none none out env pieces).error.trans herror)

/-- Without callbacks a body is parsed as it is meant to be exactly where no extension and no trailer of it is there as a
whole. -/
theorem drops_without_callbacks_iff : DropsWithoutCallbacks f g env out pieces ↔ ¬CallsBack pieces.flatten :=
  ⟨fun hdrops h => not_drops_of_callsBack f g env out pieces h hdrops, drops_of_not_callsBack f g env out pieces⟩

end

/-- An empty body with a trailer, and one with an extension. -/
theorem calls_null_callback :
    ¬DropsWithoutCallbacks (fun (env : Unit) _ _ => env) (fun env _ _ => env) () [] [ascii "0\r\nA: b\r\n\r\n"] ∧
      ¬DropsWithoutCallbacks (fun (env : Unit) _ _ => env) (fun env _ _ => env) () [] [ascii "0;a\r\n\r\n"] := by
  have htoken : ∀ {b : UInt8}, isHttpTchar b = true → IsToken [b] := fun hb =>
    ⟨List.cons_ne_nil _ _, fun c hc => List.mem_singleton.1 hc ▸ hb⟩
  have hline : SizeLine 0 [] (ascii "0\r\n") :=
    @SizeLine.mk (ascii "0") _ _ (by decide) (by decide) (List.all_eq_true.1 rfl) .nil
  have hvalue : ∀ b ∈ ascii "b", isFieldVchar b = true ∨ isHttpWs b = true :=
    fun b hb => .inl (List.mem_singleton.1 hb ▸ rfl)
  have hfield : FieldFirst (ascii "A: b\r\n\r\n") :=
    @FieldFirst.mk (ascii "A") (ascii " ") (ascii "b") (ascii "\n\r\n") (htoken rfl) (List.all_eq_true.1 rfl) hvalue
      (fun b hb => by cases hb; rfl) nofun
  have hname : NameEnd (ascii "\r\n\r\n") := .last rfl rfl (by decide)
  have hextension : ExtensionFirst (ascii ";a\r\n\r\n") :=
    @ExtensionFirst.mk [] [] (ascii "a") _ nofun nofun (htoken rfl) hname
  refine ⟨not_drops_of_callsBack _ _ _ _ _ ?_, not_drops_of_callsBack _ _ _ _ _ ?_⟩
  · exact @CallsBack.trailer (ascii "0\r\n") (ascii "A: b\r\n\r\n") hline hfield
  · exact @CallsBack.extension (ascii "0") _ (by decide) (by decide) (List.all_eq_true.1 rfl) hextension

end Rad.Http
