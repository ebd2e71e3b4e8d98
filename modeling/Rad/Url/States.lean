import Mathlib.Data.List.DropRight
import Rad.Lib.Loop
import Rad.Url.Address
import Rad.Url.Record

/-!
# The states of the URL parser (src/net/url/url.cpp)

A state function gives the next state, the record, the context and what it does to the pointer.
-/

namespace Rad.Url

section

/-- `parse_state`. -/
inductive ParseState where
  | schemeStart
  | scheme
  | noScheme
  | specialRelativeOrAuthority
  | pathOrAuthority
  | relative
  | relativeSlash
  | specialAuthoritySlashes
  | specialAuthorityIgnoreSlashes
  | authority
  | host
  | port
  | file
  | fileSlash
  | fileHost
  | pathStart
  | path
  | opaquePath
  | query
  | fragment
  deriving DecidableEq

/-- `url_parse_context`. -/
structure UrlParseContext where
  buffer : Bytes := []
  path : List Bytes := []
  atSignSeen : Bool := false
  insideBrackets : Bool := false
  passwordTokenSeen : Bool := false
  deriving DecidableEq

/-- What a state function gives. -/
structure Turn where
  state : ParseState
  url : UrlRecord
  ctx : UrlParseContext
  move : Move := .keep

/-! ## Paths -/

def isWindowsDriveLetter (input : Bytes) : Bool :=
  match input with
  | [letter, mark] => (mark == 0x3a || mark == 0x7c) && isAsciiAlpha letter.toNat
  | _ => false

def startsWithWindowsDriveLetter (input : Bytes) : Bool :=
  isWindowsDriveLetter (input.take 2) &&
    (input.length == 2 || (input.drop 2).head?.any fun ch => ch == 0x2f || ch == 0x5c || ch == 0x3f || ch == 0x23)

def isWindowsNormalizedDriveLetter (input : Bytes) : Bool :=
  match input with
  | [letter, mark] => mark == 0x3a && isAsciiAlpha letter.toNat
  | _ => false

/-- `is_signle_dot_path_segment`. -/
def isSingleDotPathSegment (input : Bytes) : Bool := input == ascii "." || iequal input (ascii "%2e")

def isDoubleDotPathSegment (input : Bytes) : Bool :=
  input == ascii ".." || iequal input (ascii ".%2e") || iequal input (ascii "%2e.") || iequal input (ascii "%2e%2e")

def shortenUrlPath (scheme : Bytes) (path : List Bytes) : List Bytes :=
  if path.length = 1 ∧ path.head?.any isWindowsNormalizedDriveLetter = true ∧ scheme = ascii "file" then path
  else path.dropLast

def splitUrlPath (pathString : Bytes) : List Bytes :=
  if pathString = [] then []
  else
    let pathString := if pathString.head? = some 0x2f then pathString.drop 1 else pathString
    if pathString = [] then [[]] else pathString.splitOn 0x2f

def urlPathSerializer (path : List Bytes) : Bytes := path.flatMap fun segment => 0x2f :: segment

/-! ## Credentials -/

/-- `get_username_and_password_from_buffer`. -/
def getUsernameAndPasswordFromBuffer (buffer : Bytes) (url : UrlRecord) (passwordTokenSeen : Bool) : UrlRecord × Bool :=
  match _h : utf8DecodeUnchecked buffer with
  | none => (url, passwordTokenSeen)
  | some (c, rest) =>
    if c = 0x3a ∧ passwordTokenSeen = false then
      getUsernameAndPasswordFromBuffer rest { url with passwordPos := some url.userinfo.length } true
    else
      let flags :=
        if passwordTokenSeen then { url.flags with password := true } else { url.flags with username := true }
      let encoded := percentEncodeSet userinfoPercentEncodeSet (buffer.take (buffer.length - rest.length))
      getUsernameAndPasswordFromBuffer rest
        { url with flags := flags, userinfo := url.userinfo ++ encoded.toOption.getD [] } passwordTokenSeen
termination_by buffer.length
decreasing_by all_goals exact utf8DecodeUnchecked_lt _h

/-! ## Parts of states -/

/-- The query begins. -/
def beginQuery (url : UrlRecord) : UrlRecord := { url with flags := { url.flags with query := true }, query := [] }

/-- The fragment begins. -/
def beginFragment (url : UrlRecord) : UrlRecord :=
  { url with flags := { url.flags with fragment := true }, fragment := [] }

/-- The query is given up. -/
def dropQuery (url : UrlRecord) : UrlRecord := { url with flags := { url.flags with query := false }, query := [] }

/-- The end of what is in front of the path. -/
def endsAuthority (v : View) (url : UrlRecord) : Bool :=
  v.isEof || v.c == 0x2f || v.c == 0x3f || v.c == 0x23 || (v.c == 0x5c && isSpecialScheme url.scheme)

variable (v : View) (base : Option UrlRecord) (url : UrlRecord) (ctx : UrlParseContext)

/-! ## Schemes -/

def schemeStartState : Except UrlError Turn :=
  if isAsciiAlpha v.c then .ok ⟨.scheme, url, { ctx with buffer := ctx.buffer ++ [getAsciiLowercase v.c] }, .keep⟩
  else .ok ⟨.noScheme, url, ctx, .decrease⟩

def schemeState : Except UrlError Turn :=
  if isAsciiAlphanumeric v.c || v.c == 0x2b || v.c == 0x2d || v.c == 0x2e then
    .ok ⟨.scheme, url, { ctx with buffer := ctx.buffer ++ [getAsciiLowercase v.c] }, .keep⟩
  else if v.c = 0x3a then
    let special := url.flags.specialScheme || isSpecialScheme ctx.buffer
    let url := { url with scheme := ctx.buffer, flags := { url.flags with specialScheme := special } }
    let ctx := { ctx with buffer := [] }
    if url.scheme = ascii "file" then .ok ⟨.file, url, ctx, .keep⟩
    else if base.any (fun base => url.isSpecial && base.scheme == url.scheme) then
      .ok ⟨.specialRelativeOrAuthority, url, ctx, .keep⟩
    else if url.isSpecial then .ok ⟨.specialAuthoritySlashes, url, ctx, .keep⟩
    else if v.remaining.head? = some 0x2f then .ok ⟨.pathOrAuthority, url, ctx, .increase⟩
    else .ok ⟨.opaquePath, { url with flags := { url.flags with opaquePath := true } }, ctx, .keep⟩
  else .ok ⟨.noScheme, url, { ctx with buffer := [] }, .restart⟩

def noSchemeState : Except UrlError Turn :=
  match base with
  | none => .error .missingSchemeNonRelativeUrl
  | some base =>
    if base.isOpaquePath && v.c ≠ 0x23 then .error .missingSchemeNonRelativeUrl
    else if base.isOpaquePath && v.c = 0x23 then
      .ok ⟨.fragment,
        { url with
          scheme := base.scheme
          path := base.path
          query := base.query
          fragment := []
          flags := { base.flags.clearHost with port := false, fragment := true } }, ctx, .keep⟩
    else if base.scheme ≠ ascii "file" then .ok ⟨.relative, url, ctx, .decrease⟩
    else .ok ⟨.file, url, ctx, .decrease⟩

def specialRelativeOrAuthorityState : Except UrlError Turn :=
  if v.c = 0x2f ∧ v.remaining.head? = some 0x2f then .ok ⟨.specialAuthorityIgnoreSlashes, url, ctx, .increase⟩
  else .ok ⟨.relative, url, ctx, .decrease⟩

def pathOrAuthorityState : Except UrlError Turn :=
  if v.c = 0x2f then .ok ⟨.authority, url, ctx, .keep⟩ else .ok ⟨.path, url, ctx, .decrease⟩

/-! ## Relative references -/

/-- `relative_state`; it is entered with a base only. -/
def relativeState : Except UrlError Turn :=
  match base with
  | none => .error .invalidArgument
  | some base =>
    let url := { url with
      scheme := base.scheme
      flags := { url.flags with specialScheme := url.flags.specialScheme || base.flags.specialScheme } }
    if v.c = 0x2f then .ok ⟨.relativeSlash, url, ctx, .keep⟩
    else if url.isSpecial && v.c = 0x5c then .ok ⟨.relativeSlash, url, ctx, .keep⟩
    else
      let url := { url with
        userinfo := base.userinfo
        passwordPos := base.passwordPos
        host := base.host
        port := base.port
        query := base.query
        flags := url.flags.clearHost.union { base.flags with fragment := false, emptyFirstPathSegment := false } }
      let path := splitUrlPath base.path
      if v.c = 0x3f then .ok ⟨.query, beginQuery url, { ctx with path := path }, .keep⟩
      else if v.c = 0x23 then .ok ⟨.fragment, beginFragment url, { ctx with path := path }, .keep⟩
      else if !v.isEof then
        .ok ⟨.path, dropQuery url, { ctx with path := shortenUrlPath url.scheme path }, .decrease⟩
      else .ok ⟨.relative, url, { ctx with path := path }, .keep⟩

/-- `relative_slash_state`; it is entered with a base only. -/
def relativeSlashState : Except UrlError Turn :=
  match base with
  | none => .error .invalidArgument
  | some base =>
    if url.isSpecial && (v.c = 0x2f || v.c = 0x5c) then .ok ⟨.specialAuthorityIgnoreSlashes, url, ctx, .keep⟩
    else if v.c = 0x2f then .ok ⟨.authority, url, ctx, .keep⟩
    else
      let url := { url with
        userinfo := base.userinfo
        passwordPos := base.passwordPos
        host := base.host
        port := base.port
        flags := url.flags.union
          { base.flags with opaquePath := false, emptyFirstPathSegment := false, query := false, fragment := false } }
      .ok ⟨.path, url, ctx, .decrease⟩

/-! ## Authorities -/

def specialAuthoritySlashesState : Except UrlError Turn :=
  if v.c = 0x2f ∧ v.remaining.head? = some 0x2f then .ok ⟨.specialAuthorityIgnoreSlashes, url, ctx, .increase⟩
  else .ok ⟨.specialAuthorityIgnoreSlashes, url, ctx, .decrease⟩

def specialAuthorityIgnoreSlashesState : Except UrlError Turn :=
  if v.c ≠ 0x2f ∧ v.c ≠ 0x5c then .ok ⟨.authority, url, ctx, .decrease⟩
  else .ok ⟨.specialAuthorityIgnoreSlashes, url, ctx, .keep⟩

def authorityState : Except UrlError Turn :=
  if v.c = 0x40 then
    let buffer := if ctx.atSignSeen then ascii "%40" ++ ctx.buffer else ctx.buffer
    let (url, passwordTokenSeen) := getUsernameAndPasswordFromBuffer buffer url ctx.passwordTokenSeen
    .ok ⟨.authority, url, { ctx with atSignSeen := true, passwordTokenSeen := passwordTokenSeen, buffer := [] }, .keep⟩
  else if endsAuthority v url then
    if ctx.atSignSeen && ctx.buffer = [] then .error .hostMissing
    else .ok ⟨.host, url, { ctx with buffer := [] }, .decreaseByBytesPlus1Codepoint ctx.buffer.length⟩
  else .ok ⟨.authority, url, { ctx with buffer := ctx.buffer ++ v.encodedCodepoint }, .keep⟩

def hostState : Except UrlError Turn :=
  if v.c = 0x3a ∧ ctx.insideBrackets = false then
    if ctx.buffer = [] then .error .hostMissing
    else
      (parseHost ctx.buffer (!isSpecialScheme url.scheme) url).map fun url =>
        ⟨.port, url, { ctx with buffer := [] }, .keep⟩
  else if endsAuthority v url then
    if ctx.buffer = [] ∧ isSpecialScheme url.scheme = true then .error .hostMissing
    else
      (parseHost ctx.buffer (!isSpecialScheme url.scheme) url).map fun url =>
        ⟨.pathStart, url, { ctx with buffer := [] }, .decrease⟩
  else
    let insideBrackets := if v.c = 0x5b then true else ctx.insideBrackets
    let insideBrackets := if v.c = 0x5d then false else insideBrackets
    .ok ⟨.host, url, { ctx with insideBrackets := insideBrackets, buffer := ctx.buffer ++ v.encodedCodepoint }, .keep⟩

def portState : Except UrlError Turn :=
  if isAsciiNumeric v.c then .ok ⟨.port, url, { ctx with buffer := ctx.buffer ++ v.encodedCodepoint }, .keep⟩
  else if endsAuthority v url then
    if ctx.buffer = [] then .ok ⟨.pathStart, url, ctx, .decrease⟩
    else
      match toNumeric 16 10 ctx.buffer with
      | none => .error .portOutOfRange
      | some port =>
        let port := UInt16.ofNat port
        let url :=
          if defaultSchemePort url.scheme = some port then { url with flags := { url.flags with port := false } }
          else { url with flags := { url.flags with port := true }, port := port }
        .ok ⟨.pathStart, url, { ctx with buffer := [] }, .decrease⟩
  else .error .portInvalid

/-! ## Files -/

def fileState : Except UrlError Turn :=
  let url := { url with scheme := ascii "file", flags := { url.flags with specialScheme := true } }
  let url := { url.setHostFlag .empty with host := [] }
  if v.c = 0x2f ∨ v.c = 0x5c then .ok ⟨.fileSlash, url, ctx, .keep⟩
  else
    match base.filter fun base => base.scheme == ascii "file" with
    | some base =>
      let url := { url with
        host := base.host
        query := base.query
        flags := url.flags.union
          { base.flags with
            username := false
            password := false
            fragment := false
            port := false
            specialScheme := false
            emptyFirstPathSegment := false } }
      let path := splitUrlPath base.path
      if v.c = 0x3f then .ok ⟨.query, beginQuery url, { ctx with path := path }, .keep⟩
      else if v.c = 0x23 then .ok ⟨.fragment, beginFragment url, { ctx with path := path }, .keep⟩
      else if !v.isEof then
        let path :=
          if !startsWithWindowsDriveLetter v.codepointSubstring then shortenUrlPath url.scheme path else []
        .ok ⟨.path, dropQuery url, { ctx with path := path }, .decrease⟩
      else .ok ⟨.file, url, { ctx with path := path }, .keep⟩
    | none => .ok ⟨.path, url, ctx, .decrease⟩

def fileSlashState : Except UrlError Turn :=
  if v.c = 0x2f ∨ v.c = 0x5c then .ok ⟨.fileHost, url, ctx, .keep⟩
  else
    match base.filter fun base => base.scheme == ascii "file" with
    | some base =>
      let basePath := splitUrlPath base.path
      let drive :=
        if !startsWithWindowsDriveLetter v.codepointSubstring then
          (basePath.head?.filter isWindowsNormalizedDriveLetter).toList
        else []
      .ok ⟨.path, { url with host := base.host }, { ctx with path := ctx.path ++ drive }, .decrease⟩
    | none => .ok ⟨.path, url, ctx, .decrease⟩

def fileHostState : Except UrlError Turn :=
  if v.isEof || v.c == 0x2f || v.c == 0x5c || v.c == 0x3f || v.c == 0x23 then
    -- a drive letter is not reset and goes on in the path state
    if isWindowsDriveLetter ctx.buffer then .ok ⟨.path, url, ctx, .decrease⟩
    else if ctx.buffer = [] then .ok ⟨.pathStart, { url.setHostFlag .empty with host := [] }, ctx, .decrease⟩
    else
      (parseHost ctx.buffer (!isSpecialScheme url.scheme) url).map fun url =>
        let url := if url.host = ascii "localhost" then { url.setHostFlag .empty with host := [] } else url
        ⟨.pathStart, url, { ctx with buffer := [] }, .decrease⟩
  else .ok ⟨.fileHost, url, { ctx with buffer := ctx.buffer ++ v.encodedCodepoint }, .keep⟩

/-! ## Paths, queries and fragments -/

def pathStartState : Except UrlError Turn :=
  if isSpecialScheme url.scheme then
    .ok ⟨.path, url, ctx, if v.c ≠ 0x2f ∧ v.c ≠ 0x5c then .decrease else .keep⟩
  else if v.c = 0x3f then .ok ⟨.query, beginQuery url, ctx, .keep⟩
  else if v.c = 0x23 then .ok ⟨.fragment, beginFragment url, ctx, .keep⟩
  else if !v.isEof then .ok ⟨.path, url, ctx, if v.c ≠ 0x2f then .decrease else .keep⟩
  else .ok ⟨.pathStart, url, ctx, .keep⟩

/-- The segments with the one that is in the buffer when the path state comes to its end. -/
def endSegment : List Bytes :=
  if isDoubleDotPathSegment ctx.buffer then
    let path := shortenUrlPath url.scheme ctx.path
    if v.c ≠ 0x2f then path ++ [[]] else path
  else if isSingleDotPathSegment ctx.buffer && v.c ≠ 0x2f then ctx.path ++ [[]]
  else if !isSingleDotPathSegment ctx.buffer then
    let drive := url.scheme = ascii "file" ∧ ctx.path = [] ∧ isWindowsDriveLetter ctx.buffer = true
    ctx.path ++ [if drive then ctx.buffer.set 1 0x3a else ctx.buffer]
  else ctx.path

def pathState : Except UrlError Turn :=
  if v.isEof || v.c == 0x2f || (v.c == 0x5c && isSpecialScheme url.scheme) || v.c == 0x3f || v.c == 0x23 then
    let ctx := { ctx with path := endSegment v url ctx, buffer := [] }
    if v.c = 0x3f then .ok ⟨.query, beginQuery url, ctx, .keep⟩
    else if v.c = 0x23 then .ok ⟨.fragment, beginFragment url, ctx, .keep⟩
    else .ok ⟨.path, url, ctx, .keep⟩
  else
    (percentEncodeSet pathPercentEncodeSet v.encodedCodepoint).map fun encoded =>
      ⟨.path, url, { ctx with buffer := ctx.buffer ++ encoded }, .keep⟩

def opaquePathState : Except UrlError Turn :=
  if v.c = 0x3f then .ok ⟨.query, beginQuery url, ctx, .keep⟩
  else if v.c = 0x23 then .ok ⟨.fragment, beginFragment url, ctx, .keep⟩
  else if v.c = 0x20 then
    let encoded :=
      if v.remaining.length > 1 ∧ (v.remaining.head? = some 0x3f ∨ v.remaining.head? = some 0x23) then ascii "%20"
      else [0x20]
    .ok ⟨.opaquePath, { url with path := url.path ++ encoded }, ctx, .keep⟩
  else if !v.isEof then
    (percentEncodeSet c0ControlPercentEncodeSet v.encodedCodepoint).map fun encoded =>
      ⟨.opaquePath, { url with path := url.path ++ encoded }, ctx, .keep⟩
  else .ok ⟨.opaquePath, url, ctx, .keep⟩

def queryState : Except UrlError Turn :=
  if v.c = 0x23 ∨ v.isEof = true then
    let encodeSet := if isSpecialScheme url.scheme then specialQueryPercentEncodeSet else queryPercentEncodeSet
    (percentEncodeSet encodeSet ctx.buffer).map fun encoded =>
      let url := { url with query := url.query ++ encoded }
      let ctx := { ctx with buffer := [] }
      if v.c = 0x23 then ⟨.fragment, beginFragment url, ctx, .keep⟩ else ⟨.query, url, ctx, .keep⟩
  else .ok ⟨.query, url, { ctx with buffer := ctx.buffer ++ v.encodedCodepoint }, .keep⟩

def fragmentState : Except UrlError Turn :=
  if !v.isEof then
    (percentEncodeSet fragmentPercentEncodeSet v.encodedCodepoint).map fun encoded =>
      ⟨.fragment, { url with fragment := url.fragment ++ encoded }, ctx, .keep⟩
  else .ok ⟨.fragment, url, ctx, .keep⟩

/-- `run_state`. -/
def runState (state : ParseState) : Except UrlError Turn :=
  match state with
  | .schemeStart => schemeStartState v url ctx
  | .scheme => schemeState v base url ctx
  | .noScheme => noSchemeState v base url ctx
  | .specialRelativeOrAuthority => specialRelativeOrAuthorityState v url ctx
  | .pathOrAuthority => pathOrAuthorityState v url ctx
  | .relative => relativeState v base url ctx
  | .relativeSlash => relativeSlashState v base url ctx
  | .specialAuthoritySlashes => specialAuthoritySlashesState v url ctx
  | .specialAuthorityIgnoreSlashes => specialAuthorityIgnoreSlashesState v url ctx
  | .authority => authorityState v url ctx
  | .host => hostState v url ctx
  | .port => portState v url ctx
  | .file => fileState v base url ctx
  | .fileSlash => fileSlashState v base url ctx
  | .fileHost => fileHostState v url ctx
  | .pathStart => pathStartState v url ctx
  | .path => pathState v url ctx
  | .opaquePath => opaquePathState v url ctx
  | .query => queryState v url ctx
  | .fragment => fragmentState v url ctx

end

/-! ## The URL parser (`parse_url_record` of src/net/url/url.cpp) -/

def isC0OrSpace (ch : UInt8) : Bool := ch ≤ 0x1f || ch == 0x20

/-- `remove_leading_and_trailing_c0_and_space`. -/
def removeLeadingAndTrailingC0AndSpace (input : Bytes) : Bytes :=
  (input.dropWhile isC0OrSpace).rdropWhile isC0OrSpace

def isAsciiTabOrNewline (ch : UInt8) : Bool := ch == 0x09 || ch == 0x0a || ch == 0x0d

def removeTabsAndNewlines (input : Bytes) : Bytes := input.filter (!isAsciiTabOrNewline ·)

/-- The text that the states read. -/
def ownedInput (input : Bytes) : Bytes := removeTabsAndNewlines (removeLeadingAndTrailingC0AndSpace input)

/-- The variables of the loop. -/
structure Config where
  state : ParseState
  url : UrlRecord
  ctx : UrlParseContext
  pointer : UrlPointer

def Config.initial (input : Bytes) : Config := ⟨.schemeStart, {}, {}, .ofInput (ownedInput input)⟩

/-- The path of the context is written when there is no path yet. -/
def finish (url : UrlRecord) (ctx : UrlParseContext) : UrlRecord :=
  if url.path = [] ∧ ctx.path ≠ [] then
    { url with
      flags := { url.flags with emptyFirstPathSegment := url.flags.emptyFirstPathSegment || ctx.path.head? = some [] }
      path := urlPathSerializer ctx.path }
  else url

/-- One pass of the loop. -/
def pass (base : Option UrlRecord) (s : Config) : Lib.Pass Config (Except UrlError UrlRecord) :=
  match s.pointer.advance with
  | .error e => .done (.error e)
  | .ok (c, pointer) =>
    match runState (pointer.view c) base s.url s.ctx s.state with
    | .error e => .done (.error e)
    | .ok turn =>
      let pointer := pointer.move turn.move
      if pointer.isEof then .done (.ok (finish turn.url turn.ctx)) else .next ⟨turn.state, turn.url, turn.ctx, pointer⟩

/-- `parse_url_record` comes to a record or an error. -/
def Parses (base : Option UrlRecord) (input : Bytes) (r : Except UrlError UrlRecord) : Prop :=
  Lib.Returns (pass base) (.initial input) r

/-- The record of a `url` after a successful `parse`, with or without a base that comes from one. -/
inductive Parsed : UrlRecord → Prop where
  | absolute {input : Bytes} {url : UrlRecord} (h : Parses none input (.ok url)) : Parsed url
  | reference {base : UrlRecord} {input : Bytes} {url : UrlRecord} (hbase : Parsed base)
      (h : Parses (some base) input (.ok url)) : Parsed url

end Rad.Url
