import Rad.Url.Lemmas.Encode
import Rad.Url.States

/-!
# Well-formed records

What the records have in common that the parser gives: each part is a text that the parser leaves as it is.
-/

namespace Rad.Url

/-! ## Parts -/

def isSchemeHead (b : UInt8) : Bool := 0x61 ≤ b && b ≤ 0x7a

def isSchemeCharacter (b : UInt8) : Bool :=
  isSchemeHead b || (0x30 ≤ b && b ≤ 0x39) || b == 0x2b || b == 0x2d || b == 0x2e

/-- A letter in front of letters, digits and the marks of schemes. -/
structure IsScheme (scheme : Bytes) : Prop where
  head : scheme.head?.any isSchemeHead = true
  characters : ∀ b ∈ scheme, isSchemeCharacter b = true

/-- A text for the host, as the parser writes it. -/
structure IsHost (scheme host : Bytes) : Prop where
  text : host ≠ [] → ∃ input kind, parseHostText input (!isSpecialScheme scheme) = .ok (host, kind)
  special : host = [] → isSpecialScheme scheme = true → scheme = ascii "file"
  localhost : scheme = ascii "file" → host ≠ ascii "localhost"

/-- The byte does not end a segment. -/
def isSegmentByte (special : Bool) (b : UInt8) : Bool :=
  keeps pathPercentEncodeSet b && b != 0x2f && !(special && b == 0x5c)

/-- A segment of a path. -/
structure IsSegment (special : Bool) (segment : Bytes) : Prop where
  characters : ∀ b ∈ segment, isSegmentByte special b = true
  notSingleDot : isSingleDotPathSegment segment = false
  notDoubleDot : isDoubleDotPathSegment segment = false

/-- The segments of a path. -/
structure IsPath (scheme : Bytes) (path : List Bytes) : Prop where
  segments : ∀ segment ∈ path, IsSegment (isSpecialScheme scheme) segment
  drive : scheme = ascii "file" →
    ∀ segment, path.head? = some segment → isWindowsDriveLetter segment = true →
      isWindowsNormalizedDriveLetter segment = true

def isOpaquePathByte (b : UInt8) : Bool := keeps c0ControlPercentEncodeSet b && b != 0x3f && b != 0x23

/-- A path that is no list of segments. -/
structure IsOpaquePath (path : Bytes) : Prop where
  characters : ∀ b ∈ path, isOpaquePathByte b = true
  head : path.head? ≠ some 0x2f

def queryEncodeSet (scheme : Bytes) : List PerecentEncodeSetItem :=
  if isSpecialScheme scheme then specialQueryPercentEncodeSet else queryPercentEncodeSet

/-! ## Records -/

/-- There is neither a username nor a password nor a port. -/
structure UrlRecord.Bare (url : UrlRecord) : Prop where
  username : url.flags.username = false
  password : url.flags.password = false
  port : url.flags.port = false

/-- What is in front of the path. -/
structure UrlRecord.Front (url : UrlRecord) : Prop where
  scheme : IsScheme url.scheme
  special : url.flags.specialScheme = isSpecialScheme url.scheme
  userinfo : ∀ b ∈ url.userinfo, keeps userinfoPercentEncodeSet b = true
  host : url.flags.host = true → IsHost url.scheme url.host
  noHost : url.flags.host = false → isSpecialScheme url.scheme = false ∧ url.host = []
  bare : url.host = [] → url.Bare
  file : url.scheme = ascii "file" → url.Bare
  port : url.flags.port = true → defaultSchemePort url.scheme ≠ some url.port

/-- What is behind the path. -/
structure UrlRecord.Rear (url : UrlRecord) : Prop where
  query : ∀ b ∈ url.query, keeps (queryEncodeSet url.scheme) b = true
  fragment : ∀ b ∈ url.fragment, keeps fragmentPercentEncodeSet b = true

/-- The path is needed where there is no host and in special URLs. -/
def UrlRecord.NeedsPath (url : UrlRecord) : Prop := url.flags.host = false ∨ isSpecialScheme url.scheme = true

/-- The path that is still a list, or the opaque path. -/
structure UrlRecord.PathPart (url : UrlRecord) (path : List Bytes) : Prop where
  opaqueText : url.flags.opaquePath = true →
    path = [] ∧ url.flags.host = false ∧ isSpecialScheme url.scheme = false ∧ IsOpaquePath url.path
  segments : url.flags.opaquePath = false → url.path = [] ∧ IsPath url.scheme path
  needed : url.flags.opaquePath = false → url.NeedsPath → path ≠ []
  emptyFirst : url.flags.emptyFirstPathSegment = false

/-- A record that the parser gives. -/
structure UrlRecord.WellFormed (url : UrlRecord) : Prop extends url.Front, url.Rear where
  opaqueText : url.flags.opaquePath = true →
    url.flags.host = false ∧ isSpecialScheme url.scheme = false ∧ url.flags.emptyFirstPathSegment = false ∧
      IsOpaquePath url.path
  segments : url.flags.opaquePath = false →
    ∃ path, IsPath url.scheme path ∧ url.path = urlPathSerializer path ∧ (url.NeedsPath → path ≠ []) ∧
      url.flags.emptyFirstPathSegment = decide (path.head? = some [])

/-! ## Lemmas -/

theorem isSpecialScheme_file : isSpecialScheme (ascii "file") = true := by decide

theorem isSpecialScheme_nil : isSpecialScheme [] = false := by decide

theorem IsPath.nil (scheme : Bytes) : IsPath scheme [] := ⟨nofun, nofun⟩

theorem IsSegment.nil (special : Bool) : IsSegment special [] := ⟨nofun, rfl, rfl⟩

theorem urlPathSerializer_eq_nil {path : List Bytes} (h : urlPathSerializer path = []) : path = [] := by
  cases path with
  | nil => rfl
  | cons segment path => cases h

theorem holdsHigh_userinfo : HoldsHigh userinfoPercentEncodeSet := by decide

theorem holdsHigh_path : HoldsHigh pathPercentEncodeSet := by decide

theorem holdsHigh_c0Control : HoldsHigh c0ControlPercentEncodeSet := by decide

theorem holdsHigh_fragment : HoldsHigh fragmentPercentEncodeSet := by decide

theorem holdsHigh_query (scheme : Bytes) : HoldsHigh (queryEncodeSet scheme) := by
  rw [queryEncodeSet]
  split <;> decide

/-- What ends the parser gives a well-formed record. -/
theorem UrlRecord.PathPart.wellFormed {url : UrlRecord} {ctx : UrlParseContext} (hpath : url.PathPart ctx.path)
    (hfront : url.Front) (hrear : url.Rear) : (finish url ctx).WellFormed := by
  rw [finish]
  split
  · rename_i h
    have hlist : url.flags.opaquePath = false := by
      by_contra hopaquePath
      rw [Bool.not_eq_false] at hopaquePath
      exact h.2 (hpath.opaqueText hopaquePath).1
    exact
      { scheme := hfront.scheme
        special := hfront.special
        userinfo := hfront.userinfo
        host := hfront.host
        noHost := hfront.noHost
        bare := fun h => ⟨(hfront.bare h).username, (hfront.bare h).password, (hfront.bare h).port⟩
        file := fun h => ⟨(hfront.file h).username, (hfront.file h).password, (hfront.file h).port⟩
        port := hfront.port
        query := hrear.query
        fragment := hrear.fragment
        opaqueText := fun hopaquePath => by simp only [hlist, Bool.false_eq_true] at hopaquePath
        segments := fun _ => ⟨ctx.path, (hpath.segments hlist).2, rfl, fun _ => h.2, by
          simp only [hpath.emptyFirst, Bool.false_or]⟩ }
  · rename_i h
    exact
      { toFront := hfront
        toRear := hrear
        opaqueText := fun hopaquePath => by
          obtain ⟨-, hhost, hspecial, hpath'⟩ := hpath.opaqueText hopaquePath
          exact ⟨hhost, hspecial, hpath.emptyFirst, hpath'⟩
        segments := fun hlist => by
          obtain ⟨hnil, -⟩ := hpath.segments hlist
          have hctx : ctx.path = [] := by
            by_contra hne
            exact h ⟨hnil, hne⟩
          refine ⟨[], .nil _, hnil, fun hneeds => absurd hctx (hpath.needed hlist hneeds), ?_⟩
          rw [hpath.emptyFirst]
          rfl }

end Rad.Url
