import Rad.Hpack.Codec
import Rad.Hpack.Integer

/-!
# Decoding header blocks (src/net/http2/hpack.cpp)

The three overloads of `hpack_decoder::decode` share one loop over the block and differ in what they do with a field.
The loop ends because `decode_header` consumes at least one byte.
-/

namespace Rad.Hpack

open Http

/-! ## What is consumed -/

theorem decodeLengthString_bounds {input : Bytes} {n : Nat} {text : Bytes}
    (h : decodeLengthString input = .ok (n, text)) : 1 ≤ n ∧ n ≤ input.length := by
  cases input with
  | nil => simp [decodeLengthString] at h
  | cons b rest =>
      simp only [decodeLengthString] at h
      rcases hi : hpackDecodeInteger 7 (b :: rest) with _ | ⟨len, length⟩
      · simp [hi] at h
      · have hb := hpackDecodeInteger_bounds hi
        simp only [hi] at h
        split at h
        · cases h; exact hb
        · split at h
          · cases h
          · rename_i hlen
            rw [List.length_drop] at hlen
            split at h
            · cases h; omega
            · split at h
              · cases h
              · split at h
                · cases h
                · cases h; omega

theorem decodeHeaderName_bounds {t : DynamicTable} {input : Bytes} {r : NameRead}
    (h : decodeHeaderName t input = .ok r) : 1 ≤ r.consumed ∧ r.consumed ≤ input.length := by
  cases input with
  | nil => simp [decodeHeaderName] at h
  | cons b rest =>
      simp only [decodeHeaderName] at h
      split at h
      · cases h
      · split at h
        · cases h
        · rename_i len index hi
          have hb := hpackDecodeInteger_bounds hi
          split at h
          · split at h
            · cases h; exact hb
            · cases h
          · split at h
            · cases h
            · rename_i n name hs
              have hs' := decodeLengthString_bounds hs
              rw [List.length_drop] at hs'
              cases h
              simp only
              omega

theorem decodeHeader_bounds {t : DynamicTable} {input : Bytes} {r : HeaderRead}
    (h : decodeHeader t input = .ok r) : 1 ≤ r.consumed ∧ r.consumed ≤ input.length := by
  cases input with
  | nil => simp [decodeHeader] at h
  | cons b rest =>
      simp only [decodeHeader] at h
      split at h
      · split at h
        · cases h
        · rename_i len newSize hi
          have hb := hpackDecodeInteger_bounds hi
          split at h
          · cases h
          · cases h; exact hb
      · split at h
        · split at h
          · cases h
          · rename_i len index hi
            have hb := hpackDecodeInteger_bounds hi
            split at h
            · cases h
            · split at h
              · cases h; exact hb
              · cases h
        · split at h
          · cases h
          · rename_i nr hn
            have hn' := decodeHeaderName_bounds hn
            split at h
            · cases h
            · rename_i n value hs
              have hs' := decodeLengthString_bounds hs
              rw [List.length_drop] at hs'
              cases h
              simp only
              omega

/-! ## The loop -/

/-- An error code of `decode`: of the generic category or of the HTTP one. -/
inductive DecodeError where
  | errc (ec : Errc)
  | http (error : Error)
  deriving DecidableEq

/-- `while (!input.empty())`: decodes a header and hands it to `onField`, up to the first error. -/
def decodeLoop {σ : Type*} (onField : σ → Bytes → Bytes → σ × Option DecodeError) (t : DynamicTable) (input : Bytes)
    (s : σ) : σ × Option DecodeError × DynamicTable :=
  if input = [] then (s, none, t)
  else
    match hd : decodeHeader t input with
    | .error ec => (s, some (.errc ec), t)
    | .ok r =>
      have := decodeHeader_bounds hd
      match onField s r.name r.value with
      | (s, some error) => (s, some error, r.table)
      | (s, none) => decodeLoop onField r.table (input.drop r.consumed) s
termination_by input.length
decreasing_by rw [List.length_drop]; omega

/-! ## Header lists -/

/-- `decode(input, hdrs, ec)`. -/
def HpackDecoder.decode (d : HpackDecoder) (input : Bytes) (hdrs : Headers) :
    Headers × Option DecodeError × HpackDecoder :=
  let r := decodeLoop (fun hdrs name value => (hdrs.insert name value, none)) d.dynamicTable input hdrs
  (r.1, r.2.1, { d with dynamicTable := r.2.2 })

/-! ## Requests -/

/-- The locals of `decode(input, req, ec)` and the request. -/
structure RequestState where
  req : Request := { version := .v1_1 }
  scheme : Bytes := []
  authority : Bytes := []
  hasMethod : Bool := false
  hasAuthority : Bool := false
  hasPath : Bool := false
  hasScheme : Bool := false
  passedPseudo : Bool := false
  deriving DecidableEq

def validateRequestPseudoHeaders (st : RequestState) : Option Error :=
  if !st.hasMethod then some .badMethod
  else if st.req.method = .connect && (st.hasPath || st.hasScheme) then some .badTarget
  else if st.req.method = .connect && !st.hasAuthority then some .badTarget
  else if st.req.method ≠ .connect && (!st.hasPath || !st.hasScheme) then some .badTarget
  else if (st.scheme == ascii "http" || st.scheme == ascii "https") && st.req.target == [] then some .badTarget
  else none

/-- A pseudo header of a request. -/
def onRequestPseudo (st : RequestState) (name value : Bytes) : RequestState × Option Error :=
  if st.passedPseudo then (st, some .badField)
  else if name = ascii ":method" then
    if st.hasMethod then (st, some .badField)
    else
      let st := { st with hasMethod := true, req.method := stringToVerb value }
      (st, if st.req.method = .invalid then some .badMethod else none)
  else if name = ascii ":path" then
    if st.hasPath then (st, some .badField) else ({ st with hasPath := true, req.target := value }, none)
  else if name = ascii ":authority" then
    if st.hasAuthority then (st, some .badField) else ({ st with hasAuthority := true, authority := value }, none)
  else if name = ascii ":scheme" then
    if st.hasScheme then (st, some .badField)
    else
      ({ st with hasScheme := true, scheme := value, req.headers := st.req.headers.insert name value }, none)
  else (st, some .badField)

/-- What is done at the first regular header. The scheme of the block is compared with itself. -/
def onRequestPseudoEnd (decoderScheme : Bytes) (st : RequestState) : RequestState × Option Error :=
  match validateRequestPseudoHeaders st with
  | some error => (st, some error)
  | none =>
    if st.req.method = .connect then ({ st with req.target := st.authority, authority := [] }, none)
    else if decoderScheme ≠ [] ∧ st.scheme ≠ st.scheme then (st, some .badValue)
    else ({ st with req.headers := st.req.headers.insert hostField st.authority }, none)

/-- A cookie is appended to the cookies that the list has. -/
def insertRegular (hdrs : Headers) (name value : Bytes) : Headers :=
  if name = ascii "cookie" then
    match hdrs.find name with
    | some it => hdrs.modify it fun header => (header.1, header.2 ++ ascii "; " ++ value)
    | none => hdrs.insert name value
  else hdrs.insert name value

def onRequestField (decoderScheme : Bytes) (st : RequestState) (name value : Bytes) :
    RequestState × Option DecodeError :=
  match name with
  | [] => (st, some (.http .badField))
  | first :: _ =>
    if first = 0x3a then
      let r := onRequestPseudo st name value
      (r.1, r.2.map .http)
    else
      let r := if st.passedPseudo then (st, none) else onRequestPseudoEnd decoderScheme st
      match r with
      | (st, some error) => (st, some (.http error))
      | (st, none) =>
        ({ st with passedPseudo := true, req.headers := insertRegular st.req.headers name value }, none)

/-- `decode(input, req, ec)`. -/
def HpackDecoder.decodeRequest (d : HpackDecoder) (input : Bytes) : Request × Option DecodeError × HpackDecoder :=
  let r := decodeLoop (onRequestField d.scheme) d.dynamicTable input {}
  (r.1.req, r.2.1, { d with dynamicTable := r.2.2 })

/-! ## Responses -/

/-- The locals of `decode(input, res, ec)` and the response. -/
structure ResponseState where
  res : Response
  gotStatus : Bool := false
  passedPseudo : Bool := false
  deriving DecidableEq

def onResponsePseudo (st : ResponseState) (name value : Bytes) : ResponseState × Option Error :=
  if st.passedPseudo then (st, some .badField)
  else if name = ascii ":status" then
    if st.gotStatus then (st, some .badField)
    else
      let r := toUint32 value
      let st := { st with res.status := r.1 }
      if r.2 then ({ st with gotStatus := true }, none) else (st, some .badStatus)
  else (st, some .badField)

def onResponseField (st : ResponseState) (name value : Bytes) : ResponseState × Option DecodeError :=
  match name with
  | [] => (st, some (.http .badField))
  | first :: _ =>
    if first = 0x3a then
      let r := onResponsePseudo st name value
      (r.1, r.2.map .http)
    else
      let st := { st with passedPseudo := true }
      if !st.gotStatus then (st, some (.http .badField))
      else ({ st with res.headers := insertRegular st.res.headers name value }, none)

/-- `decode(input, res, ec)`. -/
def HpackDecoder.decodeResponse (d : HpackDecoder) (input : Bytes) (res : Response) :
    Response × Option DecodeError × HpackDecoder :=
  let r := decodeLoop onResponseField d.dynamicTable input { res := { res.clear with version := .v1_1 } }
  (r.1.res, r.2.1, { d with dynamicTable := r.2.2 })

end Rad.Hpack
