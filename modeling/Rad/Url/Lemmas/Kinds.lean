import Rad.Url.Lemmas.HostText

/-!
# Hosts and their kinds

What a record says about its host, which references take over the host of a base, and which states come behind it.
-/

namespace Rad.Url

/-! ## What is said about a host -/

/-- The host of a record and the flags for it. -/
structure HostFacts where
  has : Bool
  empty : Bool
  ipv4 : Bool
  ipv6 : Bool
  domain : Bool
  opaqueText : Bool
  host : Bytes

namespace HostFacts

def kinds (f : HostFacts) : List Bool := [f.empty, f.ipv4, f.ipv6, f.domain, f.opaqueText]

/-- A host is of one kind, and the kind is that of its text; where there is no host, there is no kind. -/
structure Agrees (f : HostFacts) : Prop where
  one : f.has = true → f.kinds.count true = 1
  empty : f.has = true → (f.empty = true ↔ f.host = [])
  ipv6 : f.has = true → (f.ipv6 = true ↔ f.host.head? = some 0x5b)
  none : f.has = false → f.kinds.count true = 0

/-- A host that is said to be an address is the text of one. -/
structure IsAddress (f : HostFacts) : Prop where
  ipv4 : f.ipv4 = true → ∃ address : Ipv4, f.host = address.toText
  ipv6 : f.ipv6 = true → ∃ address, f.host = urlSerializeIpv6 address

end HostFacts

def UrlRecord.hostFacts (url : UrlRecord) : HostFacts where
  has := url.flags.host
  empty := url.flags.emptyHost
  ipv4 := url.flags.ipv4Host
  ipv6 := url.flags.ipv6Host
  domain := url.flags.domainHost
  opaqueText := url.flags.opaqueHost
  host := url.host

/-- No host. -/
def noHost : HostFacts := ⟨false, false, false, false, false, false, []⟩

/-- The empty host. -/
def emptyHost : HostFacts := ⟨true, true, false, false, false, false, []⟩

theorem noHost_agrees : noHost.Agrees := ⟨nofun, nofun, nofun, fun _ => rfl⟩

theorem emptyHost_agrees : emptyHost.Agrees :=
  ⟨fun _ => rfl, fun _ => ⟨fun _ => rfl, fun _ => rfl⟩, fun _ => ⟨nofun, nofun⟩, nofun⟩

/-- A host of a kind. -/
def factsOf (kind : UrlRecord.HostKind) (host : Bytes) : HostFacts :=
  ⟨true, kind = .empty, kind = .ipv4, kind = .ipv6, kind = .domain, kind = .opaqueText, host⟩

theorem setHostFlag_facts (url : UrlRecord) (kind : UrlRecord.HostKind) (host : Bytes) :
    UrlRecord.hostFacts { url.setHostFlag kind with host := host } = factsOf kind host := by
  cases kind <;> rfl

theorem factsOf_agrees {kind : UrlRecord.HostKind} {host : Bytes} (hempty : kind = .empty ↔ host = [])
    (hipv6 : kind = .ipv6 ↔ host.head? = some 0x5b) : (factsOf kind host).Agrees where
  one _ := by cases kind <;> rfl
  empty _ := decide_eq_true_iff.trans hempty
  ipv6 _ := decide_eq_true_iff.trans hipv6
  none := nofun

/-- The kind of a host that is parsed is that of its text. -/
theorem parseHostText_kind {input host : Bytes} {isOpaque : Bool} {kind : UrlRecord.HostKind}
    (h : parseHostText input isOpaque = .ok (host, kind)) :
    (factsOf kind host).Agrees ∧ (factsOf kind host).IsAddress := by
  by_cases hne : input = []
  · rw [parseHostText, if_pos hne] at h
    cases h
    exact ⟨emptyHost_agrees, (fun h => by cases h), (fun h => by cases h)⟩
  have hhost := parseHostText_ne_nil hne h
  rw [parseHostText, if_neg hne] at h
  -- a host that is none of the brackets
  have hplain (hbytes : ∀ b ∈ host, isHostByte b = true) (hempty : kind ≠ .empty) (hipv6 : kind ≠ .ipv6) :
      (factsOf kind host).Agrees :=
    factsOf_agrees ⟨fun h => absurd h hempty, fun h => absurd h hhost⟩
      ⟨fun h => absurd h hipv6, fun h => absurd h (head?_ne_bracket hbytes)⟩
  split at h
  · split at h
    · cases h
    split at h
    · cases h
    · rename_i address haddress
      cases h
      refine ⟨factsOf_agrees ⟨(fun h => by cases h), fun h => absurd h hhost⟩ ⟨fun _ => rfl, fun _ => rfl⟩, (fun h => by cases h), fun _ => ⟨address, rfl⟩⟩
  split at h
  · cases hparse : parseOpaqueHost input with
    | error e => rw [hparse] at h; cases h
    | ok host' =>
        rw [hparse] at h
        cases h
        obtain ⟨htext, -⟩ := parseHostText_opaque hne hparse
        exact ⟨hplain htext (fun h => by cases h) (fun h => by cases h), (fun h => by cases h), (fun h => by cases h)⟩
  · dsimp only at h
    cases hascii : urlDomainToAscii ((percentDecode input).toOption.getD input) with
    | error e => rw [hascii] at h; cases h
    | ok a =>
        rw [hascii] at h
        simp only [Except.bind] at h
        split at h
        · cases hparse : parseUrlIpv4Host a with
          | error e => rw [hparse] at h; cases h
          | ok address =>
              rw [hparse] at h
              cases h
              exact ⟨hplain (parseHostText_ipv4 address).1 (fun h => by cases h) (fun h => by cases h), fun _ => ⟨address, rfl⟩, (fun h => by cases h)⟩
        · cases h
          exact ⟨hplain (fun b hb => ((domain_bytes hascii).2 b hb).1) (fun h => by cases h) (fun h => by cases h), (fun h => by cases h), (fun h => by cases h)⟩

/-! ## References to files -/

def isSlash (b : UInt8) : Bool := b == 0x2f || b == 0x5c

def isSchemeByte (b : UInt8) : Bool := isAsciiAlphanumeric b.toNat || b == 0x2b || b == 0x2d || b == 0x2e

/-- The scheme of a text in small letters and the text behind its colon. -/
def splitScheme (text : Bytes) : Option (Bytes × Bytes) :=
  match text.dropWhile isSchemeByte with
  | 0x3a :: rest =>
    if text.head?.any (isAsciiAlpha ·.toNat) then some (toLower (text.takeWhile isSchemeByte), rest) else none
  | _ => none

/-- What a text refers to when it has the scheme file or none. -/
def fileReference (text : Bytes) : Option Bytes :=
  match splitScheme text with
  | none => some text
  | some (scheme, rest) => if scheme = ascii "file" then some rest else none

def beginsWithTwoSlashes : Bytes → Bool
  | a :: b :: _ => isSlash a && isSlash b
  | _ => false

/-- The host is that of a base with the scheme file, and it is not empty. -/
def CopiesFileHost (base : Option UrlRecord) (text : Bytes) : Prop :=
  ∃ b rest, base = some b ∧ b.scheme = ascii "file" ∧ b.host ≠ [] ∧ fileReference text = some rest ∧
    beginsWithTwoSlashes rest = false

theorem splitScheme_of_colon {name rest : Bytes} (hhead : name.head?.any (isAsciiAlpha ·.toNat) = true)
    (hname : ∀ b ∈ name, isSchemeByte b = true) : splitScheme (name ++ 0x3a :: rest) = some (toLower name, rest) := by
  have hne : name ≠ [] := by
    rintro rfl
    cases hhead
  have hcolon : ¬isSchemeByte 0x3a = true := by decide
  rw [splitScheme, List.dropWhile_append_of_pos hname, List.dropWhile_cons_of_neg hcolon,
    List.head?_append_of_ne_nil _ hne, List.takeWhile_append_of_pos hname, List.takeWhile_cons_of_neg hcolon,
    List.append_nil]
  exact if_pos hhead

theorem splitScheme_eq_none {name rest : Bytes} (hname : ∀ b ∈ name, isSchemeByte b = true)
    (hrest : ∀ b tail, rest = b :: tail → isSchemeByte b = false ∧ b ≠ 0x3a) : splitScheme (name ++ rest) = none := by
  rw [splitScheme, List.dropWhile_append_of_pos hname]
  cases rest with
  | nil => rfl
  | cons b tail =>
      obtain ⟨hb, hcolon⟩ := hrest b tail rfl
      rw [List.dropWhile_cons_of_neg (by rw [hb]; exact Bool.false_ne_true)]
      split
      · rename_i h
        cases h
        exact absurd rfl hcolon
      · rfl

theorem splitScheme_of_head {text : Bytes} (h : text.head?.any (isAsciiAlpha ·.toNat) = false) :
    splitScheme text = none := by
  rw [splitScheme]
  split
  · rw [h]
    rfl
  · rfl

/-! ## States behind the host -/

/-- The host is not changed any more. -/
def BehindHost (state : ParseState) : Prop :=
  state = .port ∨ state = .pathStart ∨ state = .path ∨ state = .opaquePath ∨ state = .query ∨ state = .fragment

/-- A turn keeps what is said about the host. -/
structure Turn.KeepsHost (t : Turn) (url : UrlRecord) : Prop where
  state : BehindHost t.state
  facts : t.url.hostFacts = url.hostFacts
  scheme : t.url.scheme = url.scheme
  move : t.move = .keep ∨ t.move = .decrease

section

variable {base : Option UrlRecord} {url : UrlRecord} {ctx ctx' : UrlParseContext} {v : View} {turn : Turn}
  {state : ParseState}

theorem keepsHost_query {move : Move} (hmove : move = .keep ∨ move = .decrease) :
    Turn.KeepsHost ⟨.query, beginQuery url, ctx, move⟩ url :=
  ⟨.inr (.inr (.inr (.inr (.inl rfl)))), rfl, rfl, hmove⟩

theorem keepsHost_fragment {move : Move} (hmove : move = .keep ∨ move = .decrease) :
    Turn.KeepsHost ⟨.fragment, beginFragment url, ctx, move⟩ url :=
  ⟨.inr (.inr (.inr (.inr (.inr rfl)))), rfl, rfl, hmove⟩

theorem keepsHost_same {move : Move} (hstate : BehindHost state) (hmove : move = .keep ∨ move = .decrease) :
    Turn.KeepsHost ⟨state, url, ctx, move⟩ url :=
  ⟨hstate, rfl, rfl, hmove⟩

theorem runState_keepsHost (hstate : BehindHost state) (hrun : runState v base url ctx state = .ok turn) :
    turn.KeepsHost url := by
  have hmap {α : Type} {r : Except UrlError α} {f : α → Turn} (hf : ∀ a, (f a).KeepsHost url) (h : r.map f = .ok turn) :
      turn.KeepsHost url := by
    cases r with
    | error e => cases h
    | ok a => cases h; exact hf a
  have hpathStart : BehindHost .pathStart := .inr (.inl rfl)
  have hpath : BehindHost .path := .inr (.inr (.inl rfl))
  have hopaquePath : BehindHost .opaquePath := .inr (.inr (.inr (.inl rfl)))
  have hquery : BehindHost .query := .inr (.inr (.inr (.inr (.inl rfl))))
  have hfragment : BehindHost .fragment := .inr (.inr (.inr (.inr (.inr rfl))))
  have hkeep {c : Prop} [Decidable c] :
      (if c then Move.decrease else .keep) = .keep ∨ (if c then Move.decrease else .keep) = .decrease := by
    split
    · exact .inr rfl
    · exact .inl rfl
  rcases hstate with rfl | rfl | rfl | rfl | rfl | rfl
  · simp only [runState, portState] at hrun
    split at hrun
    · cases hrun
      exact keepsHost_same (.inl rfl) (.inl rfl)
    split at hrun
    · split at hrun
      · cases hrun
        exact keepsHost_same hpathStart (.inr rfl)
      · split at hrun
        · cases hrun
        · cases hrun
          refine ⟨hpathStart, ?_, ?_, .inr rfl⟩
          all_goals
            simp only
            split <;> rfl
    · cases hrun
  · simp only [runState, pathStartState] at hrun
    split at hrun
    · cases hrun
      exact keepsHost_same hpath hkeep
    split at hrun
    · cases hrun
      exact keepsHost_query (.inl rfl)
    split at hrun
    · cases hrun
      exact keepsHost_fragment (.inl rfl)
    split at hrun
    · cases hrun
      exact keepsHost_same hpath hkeep
    · cases hrun
      exact keepsHost_same hpathStart (.inl rfl)
  · simp only [runState, pathState] at hrun
    split at hrun
    · split at hrun
      · cases hrun
        exact keepsHost_query (.inl rfl)
      split at hrun
      · cases hrun
        exact keepsHost_fragment (.inl rfl)
      · cases hrun
        exact keepsHost_same hpath (.inl rfl)
    · exact hmap (fun _ => keepsHost_same hpath (.inl rfl)) hrun
  · simp only [runState, opaquePathState] at hrun
    split at hrun
    · cases hrun
      exact keepsHost_query (.inl rfl)
    split at hrun
    · cases hrun
      exact keepsHost_fragment (.inl rfl)
    split at hrun
    · cases hrun
      exact ⟨hopaquePath, rfl, rfl, .inl rfl⟩
    split at hrun
    · exact hmap (fun _ => ⟨hopaquePath, rfl, rfl, .inl rfl⟩) hrun
    · cases hrun
      exact keepsHost_same hopaquePath (.inl rfl)
  · simp only [runState, queryState] at hrun
    split at hrun
    · refine hmap (fun encoded => ?_) hrun
      split
      · exact ⟨hfragment, rfl, rfl, .inl rfl⟩
      · exact ⟨hquery, rfl, rfl, .inl rfl⟩
    · cases hrun
      exact keepsHost_same hquery (.inl rfl)
  · simp only [runState, fragmentState] at hrun
    split at hrun
    · exact hmap (fun _ => ⟨hfragment, rfl, rfl, .inl rfl⟩) hrun
    · cases hrun
      exact keepsHost_same hfragment (.inl rfl)

theorem finish_facts (url : UrlRecord) (ctx : UrlParseContext) :
    (finish url ctx).hostFacts = url.hostFacts ∧ (finish url ctx).scheme = url.scheme := by
  rw [finish]
  split <;> exact ⟨rfl, rfl⟩

end

end Rad.Url
