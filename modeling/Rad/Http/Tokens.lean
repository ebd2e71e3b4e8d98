import Rad.Http.Message

/-!
# Characters and tokens of HTTP/1.1 (src/net/http/http_parser.cpp)

The ring buffer that a parser reads from is the list of the bytes that it gives. A token is read as far as it is there, or it is left
where it is until it is there as a whole.
-/

namespace Rad.Http

/-! ## Characters -/

def isHttpSp (ch : UInt8) : Bool := ch == 0x20

def isHttpWs (ch : UInt8) : Bool := isHttpSp ch || ch == 0x09

def isHttpHexDigit (ch : UInt8) : Bool := isDigit ch || (0x61 ≤ ch && ch ≤ 0x66) || (0x41 ≤ ch && ch ≤ 0x46)

def isHttpTchar (ch : UInt8) : Bool :=
  (0x30 ≤ ch && ch ≤ 0x39) || (0x61 ≤ ch && ch ≤ 0x7a) || (0x41 ≤ ch && ch ≤ 0x5a) || (ascii "!#$%&'*+-.^_`|~").contains ch

def isHttpVchar (ch : UInt8) : Bool := 0x20 ≤ ch && ch ≤ 0x7e

def isHttpObsText (ch : UInt8) : Bool := 0x80 ≤ ch

def isHttpReasonPhrase (ch : UInt8) : Bool := ch == 0x09 || ch == 0x20 || isHttpVchar ch || isHttpObsText ch

def isFieldVchar (ch : UInt8) : Bool := isHttpVchar ch || isHttpObsText ch

def isFieldContent (previous : Bytes) (ch : UInt8) : Bool :=
  isFieldVchar ch || (previous != [] && (isHttpSp ch || ch == 0x09))

/-! ## Tokens that are there as a whole -/

def httpVersions : List (Bytes × Version) := [(ascii "1.0", .v1_0), (ascii "1.1", .v1_1)]

def versionToString (v : Version) : Bytes := ((httpVersions.find? fun e => e.2 == v).map Prod.fst).getD []

def stringToVersion (text : Bytes) : Version := ((httpVersions.find? fun e => e.1 == text).map Prod.snd).getD .invalid

def httpSlash : Bytes := ascii "HTTP/"

/-- `parse_http_method`: `none` for the beginning of a method. -/
def parseHttpMethod (input : Bytes) : Except Error (Option (Verb × Bytes)) :=
  let methodStr := input.take 7
  match httpVerbs.find? fun e => e.1.isPrefixOf methodStr with
  | some e => .ok (some (stringToVerb e.1, input.drop e.1.length))
  | none => if httpVerbs.any fun e => methodStr.isPrefixOf e.1 then .ok none else .error .badMethod

def parseHttpSlash (input : Bytes) : Except Error (Option Bytes) :=
  let httpSlashStr := input.take httpSlash.length
  if httpSlashStr.length < httpSlash.length then
    if httpSlashStr.isPrefixOf httpSlash then .ok none else .error .badVersion
  else if httpSlashStr ≠ httpSlash then .error .badVersion
  else .ok (some (input.drop httpSlash.length))

def parseHttpVersion (input : Bytes) : Except Error (Option (Version × Bytes)) :=
  let versionStr := input.take 3
  if versionStr.headD 0 ≠ 0x31 then .error .badVersion
  else if 2 ≤ versionStr.length ∧ versionStr.getD 1 0 ≠ 0x2e then .error .badVersion
  else if versionStr.length < 3 then .ok none
  else if stringToVersion versionStr = .invalid then .error .badVersion
  else .ok (some (stringToVersion versionStr, input.drop 3))

def parseHttpStatus (input : Bytes) : Except Error (Option (Nat × Bytes)) :=
  let statusBuff := input.take 3
  if statusBuff.headD 0 = 0x30 then .error .badStatus
  else if statusBuff.length < 3 then if statusBuff.all isDigit then .ok none else .error .badStatus
  else if (toUint32 statusBuff).2 = false then .error .badStatus
  else .ok (some ((toUint32 statusBuff).1, input.drop 3))

/-! ## Tokens that are read as far as they are there -/

/-- What a character comes to behind those that are read: it belongs to the token, or the token ends before it or with
it, or it must not be there. -/
inductive CharAct where
  | push
  | endsBefore
  | endsWith
  | refuse (e : Error)

/-- A token that is read, with the text behind it. -/
inductive Scan where
  | more (token : Bytes)
  | finished (token rest : Bytes)
  | failed (token : Bytes) (e : Error)

/-- The loops of the `validate_` functions over both of the buffers. -/
def scanToken (act : Bytes → UInt8 → CharAct) (token : Bytes) : Bytes → Scan
  | [] => .more token
  | ch :: text =>
    match act token ch with
    | .push => scanToken act (token ++ [ch]) text
    | .endsBefore => .finished token (ch :: text)
    | .endsWith => .finished token text
    | .refuse e => .failed token e

def parseTargetAndSp (target input : Bytes) : Scan :=
  scanToken
    (fun _ ch => if ch = 0x20 then .endsWith else if isHttpVchar ch then .push else .refuse .badTarget) target input

def parseReasonPhraseAndCr (phrase input : Bytes) : Scan :=
  scanToken
    (fun _ ch => if isHttpReasonPhrase ch then .push else if ch = 0x0d then .endsWith else .refuse .badReason) phrase input

def parseFieldNameAndColon (name input : Bytes) : Scan :=
  scanToken (fun _ ch => if isHttpTchar ch then .push else if ch = 0x3a then .endsWith else .refuse .badField) name input

def parseFieldValue (value input : Bytes) : Scan :=
  scanToken
    (fun value ch => if isFieldContent value ch then .push else if ch = 0x0d then .endsBefore else .refuse .badValue) value
    input

/-- No character is refused. -/
def parseExtTokenNameValue (name input : Bytes) : Scan :=
  scanToken (fun _ ch => if isHttpTchar ch then .push else .endsBefore) name input

def isQdtext (ch : UInt8) : Bool :=
  ch == 0x09 || ch == 0x20 || ch == 0x21 || (0x23 ≤ ch && ch ≤ 0x5b) || (0x5d ≤ ch && ch ≤ 0x7e) || isHttpObsText ch

def parseQdtext (out input : Bytes) : Scan :=
  scanToken
    (fun _ ch => if ch = 0x22 then .endsWith else if isQdtext ch then .push else .refuse .badChunkExtension) out input

/-- `consume_ows`: what is left, if it is not empty. -/
def consumeOws (input : Bytes) : Bytes := input.dropWhile isHttpWs

/-! ## What is consumed -/

theorem parseHttpMethod_rest {input rest : Bytes} {v : Verb} (h : parseHttpMethod input = .ok (some (v, rest))) :
    rest <:+ input ∧ rest.length < input.length := by
  rw [parseHttpMethod] at h
  split at h
  · rename_i e he
    cases h
    have hlen : ∀ e ∈ httpVerbs, 0 < e.1.length := by decide
    have hpos := hlen e (List.mem_of_find?_eq_some he)
    have hfound := List.find?_some he
    have hle := (List.isPrefixOf_iff_prefix.1 hfound).length_le
    rw [List.length_take] at hle
    refine ⟨List.drop_suffix _ _, ?_⟩
    rw [List.length_drop]
    omega
  · split at h <;> cases h

theorem parseHttpSlash_rest {input rest : Bytes} (h : parseHttpSlash input = .ok (some rest)) :
    rest <:+ input ∧ rest.length < input.length := by
  have hslash : httpSlash.length = 5 := rfl
  rw [parseHttpSlash] at h
  split at h
  · split at h <;> cases h
  · rename_i hlen
    split at h
    · cases h
    · cases h
      rw [List.length_take] at hlen
      refine ⟨List.drop_suffix _ _, ?_⟩
      rw [List.length_drop]
      omega

theorem parseHttpVersion_rest {input rest : Bytes} {v : Version} (h : parseHttpVersion input = .ok (some (v, rest))) :
    rest <:+ input ∧ rest.length < input.length := by
  rw [parseHttpVersion] at h
  split at h
  · cases h
  split at h
  · cases h
  split at h
  · cases h
  rename_i hlen
  split at h
  · cases h
  · cases h
    rw [List.length_take] at hlen
    refine ⟨List.drop_suffix _ _, ?_⟩
    rw [List.length_drop]
    omega

theorem parseHttpStatus_rest {input rest : Bytes} {n : Nat} (h : parseHttpStatus input = .ok (some (n, rest))) :
    rest <:+ input ∧ rest.length < input.length := by
  rw [parseHttpStatus] at h
  split at h
  · cases h
  split at h
  · split at h <;> cases h
  rename_i hlen
  split at h
  · cases h
  · cases h
    rw [List.length_take] at hlen
    refine ⟨List.drop_suffix _ _, ?_⟩
    rw [List.length_drop]
    omega

theorem scanToken_rest {act : Bytes → UInt8 → CharAct} {token input token' rest : Bytes}
    (h : scanToken act token input = .finished token' rest) :
    rest <:+ input ∧ ((∀ t ch, act t ch ≠ .endsBefore) → rest.length < input.length) := by
  induction input generalizing token with
  | nil => cases h
  | cons ch text ih =>
      rw [scanToken] at h
      rw [List.length_cons]
      split at h
      · obtain ⟨hsuffix, hlt⟩ := ih h
        exact ⟨hsuffix.trans (List.suffix_cons _ _), fun hact => Nat.lt_succ_of_lt (hlt hact)⟩
      · rename_i hends
        cases h
        exact ⟨List.suffix_refl _, fun hact => absurd hends (hact _ _)⟩
      · cases h
        exact ⟨List.suffix_cons _ _, fun _ => Nat.lt_succ_self _⟩
      · cases h

end Rad.Http
