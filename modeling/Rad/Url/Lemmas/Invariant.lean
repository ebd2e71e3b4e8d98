import Rad.Url.Lemmas.Parts
import Rad.Url.Lemmas.Steps

/-!
# The invariant of the parser

What is known in each state about the record, the context and the texts in front of the pointer and behind it.
-/

namespace Rad.Url

/-! ## Credentials -/

/-- A record of which nothing but the scheme and the credentials is known. -/
def credentialsOnly (scheme userinfo : Bytes) (passwordPos : Option Nat) (username password : Bool) : UrlRecord where
  scheme := scheme
  userinfo := userinfo
  passwordPos := passwordPos
  flags := { username := username, password := password, specialScheme := isSpecialScheme scheme }

/-- A record of which nothing but the scheme is known. -/
abbrev blank (scheme : Bytes) : UrlRecord := credentialsOnly scheme [] none false false

theorem blank_nil : blank [] = {} := by decide

/-- The credentials are put into the record, and nothing else. -/
theorem getUsernameAndPassword_credentials (scheme buffer userinfo : Bytes) (passwordPos : Option Nat)
    (username password seen : Bool) (h : ∀ b ∈ userinfo, keeps userinfoPercentEncodeSet b = true) :
    ∃ userinfo' passwordPos' username' password',
      (getUsernameAndPasswordFromBuffer buffer (credentialsOnly scheme userinfo passwordPos username password) seen).1 =
        credentialsOnly scheme userinfo' passwordPos' username' password' ∧
      ∀ b ∈ userinfo', keeps userinfoPercentEncodeSet b = true := by
  -- induction on the text that is still to be read
  induction hn : buffer.length using Nat.strongRecOn generalizing buffer userinfo passwordPos username password seen with
  | ind n ih =>
      rw [getUsernameAndPasswordFromBuffer]
      split
      · exact ⟨userinfo, passwordPos, username, password, rfl, h⟩
      · rename_i c rest hdecode
        have hlt : rest.length < n := hn ▸ utf8DecodeUnchecked_lt hdecode
        split
        · exact ih _ hlt rest userinfo _ username password true h rfl
        · have hencoded : ∀ b ∈ userinfo ++
              (percentEncodeSet userinfoPercentEncodeSet (buffer.take (buffer.length - rest.length))).toOption.getD [],
              keeps userinfoPercentEncodeSet b = true := by
            refine List.forall_mem_append.2 ⟨h, ?_⟩
            cases hencode : percentEncodeSet userinfoPercentEncodeSet (buffer.take (buffer.length - rest.length)) with
            | error e => (intro _ h; cases h)
            | ok encoded => exact keeps_encoded (by decide) hencode
          cases seen with
          | false => exact ih _ hlt rest _ passwordPos true password false hencoded rfl
          | true => exact ih _ hlt rest _ passwordPos username true true hencoded rfl

/-! ## Hosts -/

theorem Ipv4.toText_ne_nil (address : Ipv4) : address.toText ≠ [] := by
  have hne := toChars_ne_nil (n := address.toNat / 0x1000000) (show 1 < 10 by decide)
  rw [Ipv4.toText]
  simp only [List.map_cons, List.map_nil, List.intercalate_cons_cons, List.append_assoc]
  exact fun h => hne (List.append_eq_nil_iff.1 h).1

theorem parseOpaqueHost_ne_nil {input host : Bytes} (hne : input ≠ []) (h : parseOpaqueHost input = .ok host) :
    host ≠ [] := by
  rw [parseOpaqueHost, if_neg hne] at h
  split at h
  · cases h
  · exact percentEncodeSet_ne_nil holdsHigh_c0Control hne h

theorem urlDomainToAscii_ok {domain a : Bytes} (h : urlDomainToAscii domain = .ok a) :
    Idna.domainToAscii false domain = .ok a ∧ a ≠ [] ∧ containsForbiddenDomainCodePoint a = false := by
  rw [urlDomainToAscii] at h
  split at h
  · cases h
  · rename_i a' ha
    split at h
    · cases h
    · rename_i hne
      split at h
      · cases h
      · rename_i hforbidden
        cases h
        exact ⟨ha, hne, Bool.eq_false_iff.2 hforbidden⟩

/-- Where the text of a host comes from. -/
theorem parseHostText_cases {input host : Bytes} {isOpaque : Bool} {kind : UrlRecord.HostKind}
    (h : parseHostText input isOpaque = .ok (host, kind)) (hne : input ≠ []) :
    (∃ address, host = urlSerializeIpv6 address) ∨ (isOpaque = true ∧ parseOpaqueHost input = .ok host) ∨
      ∃ domain a, isOpaque = false ∧ urlDomainToAscii domain = .ok a ∧
        ((urlDomainEndsInNumber a = true ∧ ∃ address : Ipv4, host = address.toText) ∨
          (urlDomainEndsInNumber a = false ∧ host = a)) := by
  rw [parseHostText, if_neg hne] at h
  split at h
  · split at h
    · cases h
    · split at h
      · cases h
      · rename_i address haddress
        cases h
        exact .inl ⟨address, rfl⟩
  split at h
  · rename_i hopaquePath
    cases hparse : parseOpaqueHost input with
    | error e => rw [hparse] at h; cases h
    | ok host' =>
        rw [hparse] at h
        cases h
        exact .inr (.inl ⟨hopaquePath, rfl⟩)
  · rename_i hopaquePath
    dsimp only at h
    cases hascii : urlDomainToAscii ((percentDecode input).toOption.getD input) with
    | error e => rw [hascii] at h; cases h
    | ok a =>
        rw [hascii] at h
        simp only [Except.bind] at h
        refine .inr (.inr ⟨_, a, Bool.eq_false_iff.2 hopaquePath, hascii, ?_⟩)
        split at h
        · rename_i hnumber
          cases hparse : parseUrlIpv4Host a with
          | error e => rw [hparse] at h; cases h
          | ok address =>
              rw [hparse] at h
              cases h
              exact .inl ⟨hnumber, address, rfl⟩
        · rename_i hnumber
          cases h
          exact .inr ⟨Bool.eq_false_iff.2 hnumber, rfl⟩

theorem parseHostText_ne_nil {input host : Bytes} {isOpaque : Bool} {kind : UrlRecord.HostKind} (hne : input ≠ [])
    (h : parseHostText input isOpaque = .ok (host, kind)) : host ≠ [] := by
  rcases parseHostText_cases h hne with ⟨address, rfl⟩ | ⟨-, hparse⟩ | ⟨domain, a, -, ha, ⟨-, address, rfl⟩ | ⟨-, rfl⟩⟩
  · exact List.cons_ne_nil _ _
  · exact parseOpaqueHost_ne_nil hne hparse
  · exact address.toText_ne_nil
  · exact (urlDomainToAscii_ok ha).2.1

/-! The flags that the kind of the host leaves as they are. -/

section

variable (url : UrlRecord) (kind : UrlRecord.HostKind)

@[simp] theorem UrlRecord.setHostFlag_host : (url.setHostFlag kind).flags.host = true := by cases kind <;> rfl

@[simp] theorem UrlRecord.setHostFlag_username : (url.setHostFlag kind).flags.username = url.flags.username := by
  cases kind <;> rfl

@[simp] theorem UrlRecord.setHostFlag_password : (url.setHostFlag kind).flags.password = url.flags.password := by
  cases kind <;> rfl

@[simp] theorem UrlRecord.setHostFlag_port : (url.setHostFlag kind).flags.port = url.flags.port := by cases kind <;> rfl

@[simp] theorem UrlRecord.setHostFlag_special :
    (url.setHostFlag kind).flags.specialScheme = url.flags.specialScheme := by cases kind <;> rfl

@[simp] theorem UrlRecord.setHostFlag_opaquePath : (url.setHostFlag kind).flags.opaquePath = url.flags.opaquePath := by
  cases kind <;> rfl

@[simp] theorem UrlRecord.setHostFlag_emptyFirst :
    (url.setHostFlag kind).flags.emptyFirstPathSegment = url.flags.emptyFirstPathSegment := by cases kind <;> rfl

end

/-- The host of a record is a text that the parser gives. -/
theorem parseHost_ok {input : Bytes} {isOpaque : Bool} {url url' : UrlRecord} (h : parseHost input isOpaque url = .ok url') :
    ∃ host kind, parseHostText input isOpaque = .ok (host, kind) ∧ url' = { url.setHostFlag kind with host := host } := by
  rw [parseHost] at h
  cases hparse : parseHostText input isOpaque with
  | error e => rw [hparse] at h; cases h
  | ok r =>
      rw [hparse] at h
      cases h
      exact ⟨r.1, r.2, rfl, rfl⟩

/-! ## Parts of the invariant -/

/-- The byte ends the authority. -/
def isAuthorityEnd (scheme : Bytes) (b : UInt8) : Bool :=
  b == 0x2f || b == 0x3f || b == 0x23 || (b == 0x5c && isSpecialScheme scheme)

/-- The record that the file state begins with. -/
def fileRecord : UrlRecord := { blank (ascii "file") with flags := { host := true, emptyHost := true, specialScheme := true } }

/-- Nothing but the credentials has been read. -/
structure InAuthority (url : UrlRecord) (ctx : UrlParseContext) : Prop where
  record : ∃ scheme userinfo passwordPos username password,
    url = credentialsOnly scheme userinfo passwordPos username password
  scheme : IsScheme url.scheme
  notFile : url.scheme ≠ ascii "file"
  userinfo : ∀ b ∈ url.userinfo, keeps userinfoPercentEncodeSet b = true
  noCredentials : ctx.atSignSeen = false → url.flags.username = false ∧ url.flags.password = false
  path : ctx.path = []

/-- The path is still to be written. -/
structure InPath (url : UrlRecord) (path : List Bytes) : Prop extends url.Front, url.Rear where
  noPath : url.path = []
  list : url.flags.opaquePath = false
  emptyFirst : url.flags.emptyFirstPathSegment = false
  isPath : IsPath url.scheme path

/-- The path is known. -/
structure BehindPath (url : UrlRecord) (path : List Bytes) : Prop extends url.Front, url.Rear, url.PathPart path

/-- The base of a reference that is resolved with its path. -/
structure IsBase (base : Option UrlRecord) (b : UrlRecord) : Prop where
  base : base = some b
  list : b.flags.opaquePath = false
  notFile : b.scheme ≠ ascii "file"

/-- An opaque path ends with a space. -/
def EndsInSpace (url : UrlRecord) : Prop := url.flags.opaquePath = true ∧ url.path.getLast? = some 0x20

/-- The input is a fragment for a base with an opaque path. -/
def FragmentOnly (base : Option UrlRecord) (input : Bytes) : Prop :=
  (∃ b, base = some b ∧ b.flags.opaquePath = true) ∧ input.head? = some 0x23

/-! ## The invariant -/

/-- What is known in each state. -/
def Inv (base : Option UrlRecord) (input : Bytes) : Invariant := fun state url ctx before rest =>
  match state with
  | .schemeStart | .noScheme => url = {} ∧ ctx = {} ∧ before = []
  | .scheme => url = {} ∧ ∃ buffer, ctx = { buffer := buffer } ∧ IsScheme buffer
  | .specialRelativeOrAuthority =>
    ctx = {} ∧ ∃ b, base = some b ∧ url = blank b.scheme ∧ IsScheme b.scheme ∧ isSpecialScheme b.scheme = true ∧
      b.scheme ≠ ascii "file"
  | .pathOrAuthority => ctx = {} ∧ ∃ scheme, url = blank scheme ∧ IsScheme scheme ∧ isSpecialScheme scheme = false
  | .relative => ctx = {} ∧ ∃ b, IsBase base b ∧ (url = blank [] ∨ url = blank b.scheme)
  | .relativeSlash => ctx = {} ∧ ∃ b, IsBase base b ∧ url = blank b.scheme
  | .specialAuthoritySlashes | .specialAuthorityIgnoreSlashes =>
    ctx = {} ∧ ∃ scheme, url = blank scheme ∧ IsScheme scheme ∧ scheme ≠ ascii "file"
  | .authority =>
    InAuthority url ctx ∧ ctx.buffer <:+ before ∧ ∀ b ∈ ctx.buffer, isAuthorityEnd url.scheme b = false
  | .host =>
    InAuthority url ctx ∧
      (ctx.atSignSeen = true → ctx.buffer = [] → ∃ b tail, rest = b :: tail ∧ isAuthorityEnd url.scheme b = false)
  | .port =>
    InPath url ctx.path ∧ ctx.path = [] ∧ url.flags.host = true ∧ url.host ≠ [] ∧ url.scheme ≠ ascii "file" ∧
      url.flags.port = false
  | .file => ctx = {} ∧ (url = blank [] ∨ url = blank (ascii "file"))
  | .fileSlash => ctx = {} ∧ url = fileRecord
  | .fileHost => (∃ buffer, ctx = { buffer := buffer }) ∧ url = fileRecord
  | .pathStart => InPath url ctx.path ∧ ctx.path = [] ∧ ctx.buffer = [] ∧ url.flags.host = true
  | .path => InPath url ctx.path ∧ ∀ b ∈ ctx.buffer, isSegmentByte (isSpecialScheme url.scheme) b = true
  | .opaquePath =>
    ctx = {} ∧ ∃ scheme path, url = { blank scheme with path := path, flags := { opaquePath := true } } ∧ IsScheme scheme ∧
      isSpecialScheme scheme = false ∧ IsOpaquePath path ∧ (path = [] → rest.head? ≠ some 0x2f) ∧
      (path.getLast? = some 0x20 →
        rest ≠ [] ∧ (rest.length > 1 → rest.head? ≠ some 0x3f ∧ rest.head? ≠ some 0x23))
  | .query =>
    BehindPath url ctx.path ∧ url.flags.query = true ∧
      (EndsInSpace url → rest = [] ∧ ctx.buffer = [] ∧ url.query = [] ∧ url.flags.fragment = false)
  | .fragment =>
    BehindPath url ctx.path ∧ url.flags.fragment = true ∧
      (EndsInSpace url → ¬FragmentOnly base input → rest = [] ∧ url.fragment = [] ∧ url.flags.query = false)

/-- What the record at the end is. -/
def Final (base : Option UrlRecord) (input : Bytes) (url : UrlRecord) : Prop :=
  url.WellFormed ∧
    (EndsInSpace url → ¬FragmentOnly base input → (serializeQuery url ++ serializeFragment url).length = 1)

/-! ## Views -/

section

variable {I : Invariant} {F : UrlRecord → Prop} {v : View} {before unit rest : Bytes} {state : ParseState}
  {url : UrlRecord} {ctx : UrlParseContext}

theorem View.Shows.codepoint_of (hv : v.Shows unit rest) (hc : v.c ≠ 0) :
    v.isEof = false ∧ unit = utf8Encode v.c ∧ v.encodedCodepoint = unit ∧ v.remaining = rest := by
  cases hv with
  | eof => exact absurd rfl hc
  | codepoint => exact ⟨rfl, rfl, rfl, rfl⟩

theorem View.Shows.not_eof (hv : v.Shows unit rest) (hend : v.isEof = false) :
    unit = utf8Encode v.c ∧ v.encodedCodepoint = unit ∧ v.remaining = rest := by
  cases hv with
  | eof => cases hend
  | codepoint => exact ⟨rfl, rfl, rfl⟩

theorem View.Shows.is_eof (hv : v.Shows unit rest) (hend : v.isEof = true) : v.c = 0 ∧ unit = [] ∧ rest = [] := by
  cases hv with
  | eof => exact ⟨rfl, rfl, rfl⟩
  | codepoint => cases hend

theorem View.Shows.remaining (hv : v.Shows unit rest) : v.remaining = rest := by cases hv <;> rfl

/-- A state function keeps the pointer behind a code point. -/
theorem View.Shows.keep (hv : v.Shows unit rest) (hc : v.c ≠ 0) (h : I state url ctx (before ++ unit) rest) :
    Turn.Leads I F before unit rest v.isEof ⟨state, url, ctx, .keep⟩ := by
  rw [Turn.Leads]
  simp only [(hv.codepoint_of hc).1, Bool.false_eq_true, if_false]
  exact h

theorem View.Shows.keep_or_end (hnext : v.isEof = false → I state url ctx (before ++ unit) rest)
    (hend : v.isEof = true → F (finish url ctx)) : Turn.Leads I F before unit rest v.isEof ⟨state, url, ctx, .keep⟩ := by
  rw [Turn.Leads]
  cases h : v.isEof with
  | false => exact hnext h
  | true => exact hend h

/-- A solidus follows. -/
theorem View.Shows.increase {ch : UInt8} (hv : v.Shows unit rest) (hhead : v.remaining.head? = some ch)
    (h : ∀ tail, rest = ch :: tail → I state url ctx (before ++ unit ++ [ch]) tail) :
    Turn.Leads I F before unit rest v.isEof ⟨state, url, ctx, .increase⟩ := by
  rw [hv.remaining] at hhead
  cases rest with
  | nil => cases hhead
  | cons ch' tail =>
      cases hhead
      exact ⟨ch, tail, rfl, h tail rfl⟩

/-- A code point that is an ASCII character. -/
theorem View.Shows.unit_eq {b : UInt8} (hv : v.Shows unit rest) (hc : v.c = b.toNat) (hb : b < 0x80) (hb' : b ≠ 0) :
    unit = [b] := by
  have hne : v.c ≠ 0 := by
    rw [hc]
    exact fun h => hb' (UInt8.toNat_inj.1 h)
  rw [(hv.codepoint_of hne).2.1, hc, utf8Encode_toNat_of_ascii hb]

end

end Rad.Url
