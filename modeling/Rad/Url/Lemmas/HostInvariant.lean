import Rad.Url.Lemmas.Kinds
import Rad.Url.PathTheorems

/-!
# The host in each state

Which states come before the host is known, and that the parser gives a host of the kind that is said but where it takes
over the host of a file.
-/

namespace Rad.Url

/-! ## The invariant -/

/-- What the parser makes of the host of a base, or of a text. -/
structure RightHost (base : Option UrlRecord) (text : Bytes) (url : UrlRecord) : Prop where
  agrees : ¬CopiesFileHost base text → url.hostFacts.Agrees
  copied : CopiesFileHost base text →
    url.scheme = ascii "file" ∧ url.hostFacts.has = true ∧ url.hostFacts.empty = true ∧ url.hostFacts.host ≠ []
  address : url.hostFacts.IsAddress

theorem RightHost.congr {base : Option UrlRecord} {text : Bytes} {url url' : UrlRecord} (h : RightHost base text url)
    (hfacts : url'.hostFacts = url.hostFacts) (hscheme : url'.scheme = url.scheme) : RightHost base text url' := by
  refine ⟨?_, ?_, ?_⟩
  · rw [hfacts]
    exact h.agrees
  · rw [hfacts, hscheme]
    exact h.copied
  · rw [hfacts]
    exact h.address

/-- What is asked of a base: its flags are wrong only where it has taken a host over. -/
structure FairBase (b : UrlRecord) : Prop where
  agrees : b.scheme ≠ ascii "file" ∨ b.host = [] → b.hostFacts.Agrees
  address : b.hostFacts.IsAddress

/-- What is known of the host in each state. -/
def HostInv (base : Option UrlRecord) (text : Bytes) : Invariant := fun state url ctx before rest =>
  match state with
  | .schemeStart => True
  | .scheme =>
    before.head?.any (isAsciiAlpha ·.toNat) = true ∧ (∀ b ∈ before, isSchemeByte b = true) ∧ ctx.buffer = toLower before
  | .noScheme => splitScheme text = none
  | .file => fileReference text = some rest
  | .fileSlash => ∃ b, isSlash b = true ∧ fileReference text = some (b :: rest)
  | .specialRelativeOrAuthority | .pathOrAuthority | .relative | .relativeSlash | .specialAuthoritySlashes
  | .specialAuthorityIgnoreSlashes | .authority | .host | .fileHost => ¬CopiesFileHost base text
  | .port | .pathStart | .path | .opaquePath | .query | .fragment => RightHost base text url

theorem hostInv_behind {base : Option UrlRecord} {text : Bytes} {state : ParseState} (hstate : BehindHost state)
    (url : UrlRecord) (ctx : UrlParseContext) (before rest : Bytes) :
    HostInv base text state url ctx before rest ↔ RightHost base text url := by
  rcases hstate with rfl | rfl | rfl | rfl | rfl | rfl <;> exact Iff.rfl

/-- A turn to a state behind the host, or to the end. -/
theorem Turn.leads_right {base : Option UrlRecord} {text before unit rest : Bytes} {isEof : Bool} {t : Turn}
    (hmove : t.move = .keep ∧ (isEof = false → BehindHost t.state) ∨ t.move = .decrease ∧ BehindHost t.state)
    (h : RightHost base text t.url) : t.Leads (HostInv base text) (RightHost base text) before unit rest isEof := by
  rw [Turn.Leads]
  rcases hmove with ⟨hkeep, hstate⟩ | ⟨hdecrease, hstate⟩
  · simp only [hkeep]
    split
    · exact h.congr (finish_facts _ _).1 (finish_facts _ _).2
    · rename_i heof
      rw [Bool.not_eq_true] at heof
      exact (hostInv_behind (hstate heof) _ _ _ _).2 h
  · simp only [hdecrease]
    exact (hostInv_behind hstate _ _ _ _).2 h

/-- Two invariants, of which the second one is kept where the first one holds. -/
theorem Invariant.Kept.and {base : Option UrlRecord} {input : Bytes} {I J : Invariant} {F G : UrlRecord → Prop}
    (hI : Invariant.Kept base input I F)
    (hJ : ∀ state url ctx before unit rest v turn, before ++ (unit ++ rest) = input →
      I state url ctx before (unit ++ rest) → J state url ctx before (unit ++ rest) → v.Shows unit rest →
      runState v base url ctx state = .ok turn →
        turn.Leads J G before unit rest v.isEof) :
    Invariant.Kept base input (fun state url ctx before rest => I state url ctx before rest ∧ J state url ctx before rest)
      fun url => F url ∧ G url := by
  intro state url ctx before unit rest v turn hinput h hv hrun
  have hleadsI := hI state url ctx before unit rest v turn hinput h.1 hv hrun
  have hleadsJ := hJ state url ctx before unit rest v turn hinput h.1 h.2 hv hrun
  rw [Turn.Leads] at hleadsI hleadsJ ⊢
  cases hmove : turn.move with
  | keep =>
      rw [hmove] at hleadsI hleadsJ
      cases heof : v.isEof with
      | true =>
          rw [heof] at hleadsI hleadsJ
          exact ⟨hleadsI, hleadsJ⟩
      | false =>
          rw [heof] at hleadsI hleadsJ
          exact ⟨hleadsI, hleadsJ⟩
  | decrease =>
      rw [hmove] at hleadsI hleadsJ
      exact ⟨hleadsI, hleadsJ⟩
  | restart =>
      rw [hmove] at hleadsI hleadsJ
      exact ⟨hleadsI, hleadsJ⟩
  | increase =>
      rw [hmove] at hleadsI hleadsJ
      obtain ⟨ch, tail, rfl, hI⟩ := hleadsI
      obtain ⟨ch', tail', hsame, hJ⟩ := hleadsJ
      cases hsame
      exact ⟨ch, tail, rfl, hI, hJ⟩
  | decreaseByBytesPlus1Codepoint nbytes =>
      rw [hmove] at hleadsI hleadsJ
      obtain ⟨front, buffer, rfl, hlength, hI⟩ := hleadsI
      obtain ⟨front', buffer', hsame, hlength', hJ⟩ := hleadsJ
      obtain ⟨rfl, rfl⟩ := List.append_inj' hsame (hlength.trans hlength'.symm)
      exact ⟨front, buffer, rfl, hlength, hI, hJ⟩

section

variable {base : Option UrlRecord} {url : UrlRecord} {ctx : UrlParseContext} {v : View} {turn : Turn}
  {before unit rest input : Bytes}

theorem rightHost_noHost (hcopies : ¬CopiesFileHost base input) (hfacts : url.hostFacts = noHost) :
    RightHost base input url := by
  refine ⟨fun _ => ?_, fun h => absurd h hcopies, ?_⟩
  · rw [hfacts]
    exact noHost_agrees
  · rw [hfacts]
    exact ⟨nofun, nofun⟩

theorem not_copies_of_scheme {name tail : Bytes} (hsplit : splitScheme input = some (name, tail))
    (hname : name ≠ ascii "file") : ¬CopiesFileHost base input := by
  rintro ⟨b, rest, -, -, -, hreference, -⟩
  rw [fileReference, hsplit] at hreference
  simp only [if_neg hname] at hreference
  cases hreference

theorem not_copies_of_base (hbase : ∀ b, base = some b → b.scheme ≠ ascii "file") : ¬CopiesFileHost base input := by
  rintro ⟨b, rest, hb, hscheme, -⟩
  exact hbase b hb hscheme

/-! ### In front of the authority -/

theorem isSchemeByte_of_c {c : Nat} (h : (isAsciiAlphanumeric c || c == 0x2b || c == 0x2d || c == 0x2e) = true) :
    c < 0x80 ∧ isSchemeByte (UInt8.ofNat c) = true ∧ getAsciiLowercase c = tolowerCh (UInt8.ofNat c) := by
  have hlow : c < 0x80 := by
    simp only [isAsciiAlphanumeric, isAsciiAlpha, isAsciiLowercaseAlpha, isAsciiUppercaseAlpha, isAsciiNumeric,
      Bool.or_eq_true, Bool.and_eq_true, decide_eq_true_eq, beq_iff_eq] at h
    omega
  have hall : ∀ c < 0x80, (isAsciiAlphanumeric c || c == 0x2b || c == 0x2d || c == 0x2e) = true →
      isSchemeByte (UInt8.ofNat c) = true ∧ getAsciiLowercase c = tolowerCh (UInt8.ofNat c) := by decide +kernel
  exact ⟨hlow, hall c hlow h⟩

/-- The byte that comes next: it is the code point, or it begins one that is not ASCII. -/
theorem View.Shows.byte {b : UInt8} {tail : Bytes} (hv : v.Shows unit rest) (h : unit ++ rest = b :: tail) :
    (v.c = b.toNat ∧ unit = [b] ∧ rest = tail) ∨ (0x80 ≤ b ∧ 0x80 ≤ v.c) := by
  cases hv with
  | eof => cases h
  | @codepoint c rest hvalid =>
      rcases Nat.lt_or_ge c 0x80 with hlow | hhigh
      · have hc : c = (UInt8.ofNat c).toNat := by rw [UInt8.toNat_ofNat', Nat.mod_eq_of_lt (by omega)]
        rw [Idna.utf8Encode_low hlow] at h ⊢
        cases h
        exact .inl ⟨hc, rfl, rfl⟩
      · right
        refine ⟨Idna.utf8Encode_high hhigh b ?_, hhigh⟩
        cases hunit : utf8Encode c with
        | nil => exact absurd hunit (utf8Encode_ne_nil c)
        | cons b' conts =>
            rw [hunit] at h
            cases h
            exact List.mem_cons_self

theorem high_byte {b : UInt8} (h : 0x80 ≤ b) :
    isSchemeByte b = false ∧ b ≠ 0x3a ∧ isSlash b = false ∧ isAsciiAlpha b.toNat = false := by
  have hall : ∀ b : UInt8, (!decide (0x80 ≤ b) ||
      (!isSchemeByte b && b != 0x3a && !isSlash b && !isAsciiAlpha b.toNat)) = true := forall_byte (by decide +kernel)
  have hb := hall b
  simp only [decide_eq_true h, Bool.not_true, Bool.false_or, Bool.and_eq_true, Bool.not_eq_true', bne_iff_ne] at hb
  exact ⟨hb.1.1.1, hb.1.1.2, hb.1.2, hb.2⟩

theorem View.Shows.ascii {b : UInt8} (hv : v.Shows unit rest) (hc : v.c = b.toNat) (hb : b < 0x80) (hb' : b ≠ 0) :
    unit = [b] ∧ v.isEof = false := by
  have hne : v.c ≠ 0 := by
    rw [hc]
    exact fun h => hb' (UInt8.toNat_inj.1 h)
  exact ⟨hv.unit_eq hc hb hb', (hv.codepoint_of hne).1⟩

theorem schemeStartState_host (hinv : Inv base input .schemeStart url ctx before (unit ++ rest))
    (hinput : before ++ (unit ++ rest) = input) (hv : v.Shows unit rest) (hrun : schemeStartState v url ctx = .ok turn) :
    turn.Leads (HostInv base input) (RightHost base input) before unit rest v.isEof := by
  obtain ⟨rfl, rfl, rfl⟩ := hinv
  rw [List.nil_append] at hinput
  rw [schemeStartState] at hrun
  split at hrun
  · rename_i halpha
    cases hrun
    obtain ⟨hlow, hbyte, hlower⟩ := isSchemeByte_of_c (c := v.c) (by rw [isAsciiAlphanumeric, halpha]; rfl)
    have hne := (isSchemeHead_lower halpha).1
    refine hv.keep hne ?_
    rw [(hv.codepoint_of hne).2.1, Idna.utf8Encode_low hlow]
    refine ⟨?_, List.forall_mem_singleton.2 hbyte, ?_⟩
    · rw [List.nil_append, List.head?_cons, Option.any_some, UInt8.toNat_ofNat', Nat.mod_eq_of_lt (by omega), halpha]
    · show [] ++ [getAsciiLowercase v.c] = _
      rw [hlower]
      rfl
  · rename_i halpha
    cases hrun
    show splitScheme input = none
    refine splitScheme_of_head ?_
    cases hhead : input with
    | nil => rfl
    | cons b tail =>
        rw [hhead] at hinput
        rcases hv.byte hinput with ⟨hc, -, -⟩ | ⟨hhigh, -⟩
        · rw [hc] at halpha
          exact Bool.eq_false_iff.2 halpha
        · exact (high_byte hhigh).2.2.2

/-- What comes behind a code point that is neither a character of schemes nor a colon. -/
theorem View.Shows.no_scheme (hv : v.Shows unit rest)
    (hc : ¬(isAsciiAlphanumeric v.c || v.c == 0x2b || v.c == 0x2d || v.c == 0x2e) = true) (hcolon : v.c ≠ 0x3a) :
    ∀ b tail, unit ++ rest = b :: tail → isSchemeByte b = false ∧ b ≠ 0x3a := by
  intro b tail htext
  rcases hv.byte htext with ⟨hb, -, -⟩ | ⟨hhigh, -⟩
  · rw [hb] at hc hcolon
    have hall : ∀ b : UInt8, (isSchemeByte b == (isAsciiAlphanumeric b.toNat || b.toNat == 0x2b || b.toNat == 0x2d ||
        b.toNat == 0x2e)) = true := forall_byte (by decide +kernel)
    refine ⟨?_, fun h => hcolon (by rw [h]; rfl)⟩
    rw [beq_iff_eq.1 (hall b)]
    exact Bool.eq_false_iff.2 hc
  · exact ⟨(high_byte hhigh).1, (high_byte hhigh).2.1⟩

theorem schemeState_host (hinv : Inv base input .scheme url ctx before (unit ++ rest))
    (hinput : before ++ (unit ++ rest) = input) (h : HostInv base input .scheme url ctx before (unit ++ rest))
    (hv : v.Shows unit rest) (hrun : schemeState v base url ctx = .ok turn) :
    turn.Leads (HostInv base input) (RightHost base input) before unit rest v.isEof := by
  obtain ⟨rfl, buffer, rfl, -⟩ := hinv
  obtain ⟨hhead, hbytes, hbuffer⟩ := h
  have hne : before ≠ [] := by
    rintro rfl
    cases hhead
  rw [schemeState] at hrun
  split at hrun
  · rename_i hc
    cases hrun
    obtain ⟨hlow, hbyte, hlower⟩ := isSchemeByte_of_c hc
    refine hv.keep (isSchemeCharacter_lower hc).1 ?_
    rw [(hv.codepoint_of (isSchemeCharacter_lower hc).1).2.1, Idna.utf8Encode_low hlow]
    refine ⟨?_, List.forall_mem_append.2 ⟨hbytes, List.forall_mem_singleton.2 hbyte⟩, ?_⟩
    · rwa [List.head?_append_of_ne_nil _ hne]
    · show buffer ++ [getAsciiLowercase v.c] = _
      rw [show buffer = toLower before from hbuffer, hlower, toLower, toLower, List.map_append]
      rfl
  rename_i hc
  split at hrun
  · rename_i hcolon
    have hzero : v.c ≠ 0 := by rw [hcolon]; decide
    have hunit := (hv.ascii (b := 0x3a) hcolon (by decide) (by decide)).1
    have hsplit : splitScheme input = some (buffer, rest) := by
      rw [← hinput, hunit, show buffer = toLower before from hbuffer]
      exact splitScheme_of_colon hhead hbytes
    simp only [Bool.false_or] at hrun
    split at hrun
    · rename_i hfile
      cases hrun
      refine hv.keep hzero ?_
      show fileReference input = some rest
      rw [fileReference, hsplit]
      exact if_pos hfile
    rename_i hfile
    have hcopies : ¬CopiesFileHost base input := not_copies_of_scheme hsplit hfile
    split at hrun
    · cases hrun
      exact hv.keep hzero hcopies
    split at hrun
    · cases hrun
      exact hv.keep hzero hcopies
    split at hrun
    · rename_i hslash
      cases hrun
      exact hv.increase hslash fun _ _ => hcopies
    · cases hrun
      exact hv.keep hzero (rightHost_noHost hcopies rfl)
  · rename_i hcolon
    cases hrun
    show splitScheme input = none
    rw [← hinput]
    exact splitScheme_eq_none hbytes (hv.no_scheme hc hcolon)

theorem noSchemeState_host (hbase : ∀ b, base = some b → b.WellFormed)
    (hinv : Inv base input .noScheme url ctx before (unit ++ rest)) (hinput : before ++ (unit ++ rest) = input)
    (h : HostInv base input .noScheme url ctx before (unit ++ rest)) (hv : v.Shows unit rest)
    (hrun : noSchemeState v base url ctx = .ok turn) :
    turn.Leads (HostInv base input) (RightHost base input) before unit rest v.isEof := by
  obtain ⟨rfl, rfl, rfl⟩ := hinv
  cases base with
  | none => cases hrun
  | some b =>
      simp only [noSchemeState] at hrun
      split at hrun
      · cases hrun
      split at hrun
      · rename_i hfragment
        cases hrun
        rw [Bool.and_eq_true, decide_eq_true_eq] at hfragment
        obtain ⟨hopaquePath, hc⟩ := hfragment
        obtain ⟨hhost, hspecial, -⟩ := (hbase b rfl).opaqueText hopaquePath
        have hcopies : ¬CopiesFileHost (some b) input := not_copies_of_base fun b' hb' => by
          cases hb'
          exact ne_file_of_not_special hspecial
        refine hv.keep (by rw [hc]; decide) (rightHost_noHost hcopies ?_)
        rw [UrlRecord.hostFacts, noHost]
        simp only [UrlRecordFlags.clearHost, hhost]
      split at hrun
      · rename_i hfile
        cases hrun
        exact not_copies_of_base fun b' hb' => by
          cases hb'
          exact hfile
      · cases hrun
        show fileReference input = some (unit ++ rest)
        rw [fileReference, show splitScheme input = none from h, ← hinput, List.nil_append]

/-! ### References -/

theorem relativeState_host (hbase : ∀ b, base = some b → b.WellFormed ∧ FairBase b)
    (hinv : Inv base input .relative url ctx before (unit ++ rest))
    (h : HostInv base input .relative url ctx before (unit ++ rest)) (hv : v.Shows unit rest)
    (hrun : relativeState v base url ctx = .ok turn) :
    turn.Leads (HostInv base input) (RightHost base input) before unit rest v.isEof := by
  obtain ⟨rfl, b, ⟨rfl, hlist, hfile⟩, hurl⟩ := hinv
  obtain ⟨hwell, hfair⟩ := hbase b rfl
  have hright {url' : UrlRecord} (hfacts : url'.hostFacts = b.hostFacts) : RightHost (some b) input url' := by
    refine ⟨fun _ => ?_, fun hcopies => absurd hcopies h, ?_⟩
    · rw [hfacts]
      exact hfair.agrees (.inl hfile)
    · rw [hfacts]
      exact hfair.address
  rw [relativeState_eq hwell hurl] at hrun
  cases hrun
  split
  · rename_i hc
    refine hv.keep (fun hzero => ?_) h
    rw [hzero] at hc
    exact hc.elim (absurd · (by decide)) fun h => absurd h.2 (by decide)
  rw [relativeParts]
  split
  · exact Turn.leads_right (.inl ⟨rfl, fun _ => .inr (.inr (.inr (.inr (.inl rfl))))⟩) (hright rfl)
  split
  · exact Turn.leads_right (.inl ⟨rfl, fun _ => .inr (.inr (.inr (.inr (.inr rfl))))⟩) (hright rfl)
  split
  · exact Turn.leads_right (.inr ⟨rfl, .inr (.inr (.inl rfl))⟩) (hright rfl)
  · rename_i heof
    refine Turn.leads_right (.inl ⟨rfl, fun hnot => ?_⟩) (hright rfl)
    rw [hnot] at heof
    exact absurd rfl heof

theorem relativeSlashState_host (hbase : ∀ b, base = some b → b.WellFormed ∧ FairBase b)
    (hinv : Inv base input .relativeSlash url ctx before (unit ++ rest))
    (h : HostInv base input .relativeSlash url ctx before (unit ++ rest)) (hv : v.Shows unit rest)
    (hrun : relativeSlashState v base url ctx = .ok turn) :
    turn.Leads (HostInv base input) (RightHost base input) before unit rest v.isEof := by
  obtain ⟨rfl, b, ⟨rfl, hlist, hfile⟩, rfl⟩ := hinv
  obtain ⟨hwell, hfair⟩ := hbase b rfl
  simp only [relativeSlashState] at hrun
  split at hrun
  · rename_i hc
    cases hrun
    rw [Bool.and_eq_true, Bool.or_eq_true, decide_eq_true_eq, decide_eq_true_eq] at hc
    refine hv.keep (fun hzero => ?_) h
    rw [hzero] at hc
    exact absurd hc.2 (by decide)
  split at hrun
  · rename_i hc
    cases hrun
    exact hv.keep (by rw [hc]; decide) h
  · cases hrun
    refine Turn.leads_right (.inr ⟨rfl, .inr (.inr (.inl rfl))⟩) ?_
    have hfacts : UrlRecord.hostFacts { blank b.scheme with
        userinfo := b.userinfo
        passwordPos := b.passwordPos
        host := b.host
        port := b.port
        flags := (blank b.scheme).flags.union
          { b.flags with opaquePath := false, emptyFirstPathSegment := false, query := false, fragment := false } } =
        b.hostFacts := by
      simp only [UrlRecord.hostFacts, UrlRecordFlags.union, credentialsOnly, Bool.false_or]
    refine ⟨fun _ => ?_, fun hcopies => absurd hcopies h, ?_⟩
    · rw [hfacts]
      exact hfair.agrees (.inl hfile)
    · rw [hfacts]
      exact hfair.address

/-! ### Hosts -/

theorem rightHost_parsed {host text : Bytes} {isOpaque : Bool} {kind : UrlRecord.HostKind}
    (hcopies : ¬CopiesFileHost base input) (htext : parseHostText text isOpaque = .ok (host, kind)) (url : UrlRecord) :
    RightHost base input { url.setHostFlag kind with host := host } := by
  obtain ⟨hagrees, haddress⟩ := parseHostText_kind htext
  refine ⟨fun _ => ?_, fun h => absurd h hcopies, ?_⟩
  · rw [setHostFlag_facts]
    exact hagrees
  · rw [setHostFlag_facts]
    exact haddress

theorem rightHost_empty (hcopies : ¬CopiesFileHost base input) (hfacts : url.hostFacts = emptyHost) :
    RightHost base input url := by
  refine ⟨fun _ => ?_, fun h => absurd h hcopies, ?_⟩
  · rw [hfacts]
    exact emptyHost_agrees
  · rw [hfacts]
    exact ⟨nofun, nofun⟩

theorem hostState_host (h : HostInv base input .host url ctx before (unit ++ rest))
    (hrun : hostState v url ctx = .ok turn) :
    turn.Leads (HostInv base input) (RightHost base input) before unit rest v.isEof := by
  rw [hostState] at hrun
  split at hrun
  · split at hrun
    · cases hrun
    · cases hparse : parseHost ctx.buffer (!isSpecialScheme url.scheme) url with
      | error e => rw [hparse] at hrun; cases hrun
      | ok url' =>
          rw [hparse] at hrun
          cases hrun
          obtain ⟨host, kind, htext, rfl⟩ := parseHost_ok hparse
          exact Turn.leads_right (.inl ⟨rfl, fun _ => .inl rfl⟩) (rightHost_parsed h htext url)
  split at hrun
  · split at hrun
    · cases hrun
    · cases hparse : parseHost ctx.buffer (!isSpecialScheme url.scheme) url with
      | error e => rw [hparse] at hrun; cases hrun
      | ok url' =>
          rw [hparse] at hrun
          cases hrun
          obtain ⟨host, kind, htext, rfl⟩ := parseHost_ok hparse
          exact Turn.leads_right (.inr ⟨rfl, .inr (.inl rfl)⟩) (rightHost_parsed h htext url)
  · rename_i hend
    rw [Bool.not_eq_true] at hend
    cases hrun
    exact View.Shows.keep_or_end (fun _ => h) fun heof => Bool.noConfusion ((not_eof_of_not_ends hend).symm.trans heof)

theorem authorityState_host (hinv : Inv base input .authority url ctx before (unit ++ rest))
    (h : HostInv base input .authority url ctx before (unit ++ rest)) (hv : v.Shows unit rest)
    (hrun : authorityState v url ctx = .ok turn) :
    turn.Leads (HostInv base input) (RightHost base input) before unit rest v.isEof := by
  rw [authorityState] at hrun
  split at hrun
  · rename_i hc
    cases hrun
    exact hv.keep (by rw [hc]; decide) h
  split at hrun
  · split at hrun
    · cases hrun
    · cases hrun
      obtain ⟨front, hfront⟩ := hinv.2.1
      exact ⟨front, ctx.buffer, hfront.symm, rfl, h⟩
  · rename_i hend
    rw [Bool.not_eq_true] at hend
    cases hrun
    exact View.Shows.keep_or_end (fun _ => h) fun heof => Bool.noConfusion ((not_eof_of_not_ends hend).symm.trans heof)

/-! ### Files -/

theorem HostFacts.Agrees.eq_emptyHost {f : HostFacts} (h : f.Agrees) (hnil : f.host = []) :
    { f with has := true, empty := true } = emptyHost := by
  obtain ⟨has, empty, ipv4, ipv6, domain, opaqueText, host⟩ := f
  cases hnil
  -- there is no flag but that for the empty host
  have hflags : ipv4 = false ∧ ipv6 = false ∧ domain = false ∧ opaqueText = false := by
    have hcount : [empty, ipv4, ipv6, domain, opaqueText].count true ≤ if empty then 1 else 0 := by
      cases has with
      | false => exact Nat.le_trans (Nat.le_of_eq (h.none rfl)) (Nat.zero_le _)
      | true =>
          rw [if_pos ((h.empty rfl).2 rfl)]
          exact Nat.le_of_eq (h.one rfl)
    revert hcount
    clear h
    cases empty <;> cases ipv4 <;> cases ipv6 <;> cases domain <;> cases opaqueText <;> decide
  obtain ⟨rfl, rfl, rfl, rfl⟩ := hflags
  rfl

/-- A host that is taken over is empty, or it is said to be empty though it is not. -/
theorem rightHost_copied {b : UrlRecord} (hb : base = some b) (hfile : b.scheme = ascii "file") (hfair : FairBase b)
    (hreference : fileReference input = some rest) (hslashes : beginsWithTwoSlashes rest = false)
    (hscheme : url.scheme = ascii "file")
    (hfacts : url.hostFacts = { emptyHost with host := b.host } ∨
      url.hostFacts = { b.hostFacts with has := true, empty := true }) :
    RightHost base input url := by
  have hhost : url.hostFacts.host = b.host := by
    rcases hfacts with h | h
    · rw [h]
    · rw [h]
      rfl
  have hhas : url.hostFacts.has = true ∧ url.hostFacts.empty = true := by
    rcases hfacts with h | h <;> rw [h] <;> exact ⟨rfl, rfl⟩
  refine ⟨fun hcopies => ?_, fun hcopies => ⟨hscheme, hhas.1, hhas.2, ?_⟩, ?_⟩
  · have hnil : b.host = [] := by
      by_contra hne
      exact hcopies ⟨b, rest, hb, hfile, hne, hreference, hslashes⟩
    have hempty : url.hostFacts = emptyHost := by
      rcases hfacts with h | h
      · rw [h, hnil]
        rfl
      · rw [h]
        exact (hfair.agrees (.inr hnil)).eq_emptyHost hnil
    rw [hempty]
    exact emptyHost_agrees
  · obtain ⟨b', rest', hb', -, hne, -⟩ := hcopies
    rw [hb] at hb'
    cases hb'
    rwa [hhost]
  · rcases hfacts with h | h
    · rw [h]
      exact ⟨nofun, nofun⟩
    · rw [h]
      exact ⟨hfair.address.ipv4, hfair.address.ipv6⟩

/-- A slash of either kind. -/
theorem View.Shows.slash (hv : v.Shows unit rest) (hc : v.c = 0x2f ∨ v.c = 0x5c) :
    v.c ≠ 0 ∧ ∃ b, isSlash b = true ∧ unit = [b] := by
  rcases hc with hc | hc
  · exact ⟨by rw [hc]; decide, 0x2f, rfl, (hv.ascii (b := 0x2f) hc (by decide) (by decide)).1⟩
  · exact ⟨by rw [hc]; decide, 0x5c, rfl, (hv.ascii (b := 0x5c) hc (by decide) (by decide)).1⟩

theorem View.Shows.no_slash {b : UInt8} {tail : Bytes} (hv : v.Shows unit rest) (hc : ¬(v.c = 0x2f ∨ v.c = 0x5c))
    (htext : unit ++ rest = b :: tail) : isSlash b = false := by
  rcases hv.byte htext with ⟨hb, -, -⟩ | ⟨hhigh, -⟩
  · rw [hb] at hc
    rw [isSlash, Bool.or_eq_false_iff, beq_eq_false_iff_ne, beq_eq_false_iff_ne]
    exact ⟨fun h => hc (.inl (by rw [h]; rfl)), fun h => hc (.inr (by rw [h]; rfl))⟩
  · exact (high_byte hhigh).2.2.1

theorem not_copies_of_filter (h : (base.filter fun b => b.scheme == ascii "file") = none) :
    ¬CopiesFileHost base input := by
  rintro ⟨b, rest, rfl, hfile, -⟩
  rw [Option.filter_some, if_pos (beq_iff_eq.2 hfile)] at h
  cases h

theorem fileState_host (hbase : ∀ b, base = some b → b.WellFormed ∧ FairBase b)
    (hinv : Inv base input .file url ctx before (unit ++ rest))
    (h : HostInv base input .file url ctx before (unit ++ rest)) (hv : v.Shows unit rest)
    (hrun : fileState v base url ctx = .ok turn) :
    turn.Leads (HostInv base input) (RightHost base input) before unit rest v.isEof := by
  obtain ⟨rfl, hurl⟩ := hinv
  rw [fileState_eq hurl] at hrun
  cases hrun
  split
  · rename_i hc
    obtain ⟨hne, b, hb, hunit⟩ := hv.slash hc
    exact hv.keep hne ⟨b, hb, by rw [show fileReference input = some (unit ++ rest) from h, hunit]; rfl⟩
  rename_i hc
  have hslashes : beginsWithTwoSlashes (unit ++ rest) = false := by
    match htext : unit ++ rest with
    | [] => rfl
    | [_] => rfl
    | a :: _ :: _ =>
      rw [beginsWithTwoSlashes, hv.no_slash hc htext]
      rfl
  split
  · rename_i b hfilter
    obtain ⟨hb, hfile⟩ := filter_eq_some hfilter
    have hright {url' : UrlRecord} (hscheme : url'.scheme = ascii "file")
        (hfacts : url'.hostFacts = { b.hostFacts with has := true, empty := true }) : RightHost base input url' :=
      rightHost_copied hb hfile (hbase b hb).2 h hslashes hscheme (.inr hfacts)
    rw [fileParts]
    split
    · exact Turn.leads_right (.inl ⟨rfl, fun _ => .inr (.inr (.inr (.inr (.inl rfl))))⟩) (hright rfl rfl)
    split
    · exact Turn.leads_right (.inl ⟨rfl, fun _ => .inr (.inr (.inr (.inr (.inr rfl))))⟩) (hright rfl rfl)
    split
    · exact Turn.leads_right (.inr ⟨rfl, .inr (.inr (.inl rfl))⟩) (hright rfl rfl)
    · rename_i heof
      refine Turn.leads_right (.inl ⟨rfl, fun hnot => ?_⟩) (hright rfl rfl)
      rw [hnot] at heof
      exact absurd rfl heof
  · rename_i hfilter
    exact Turn.leads_right (.inr ⟨rfl, .inr (.inr (.inl rfl))⟩) (rightHost_empty (not_copies_of_filter hfilter) rfl)

theorem fileSlashState_host (hbase : ∀ b, base = some b → b.WellFormed ∧ FairBase b)
    (hinv : Inv base input .fileSlash url ctx before (unit ++ rest))
    (h : HostInv base input .fileSlash url ctx before (unit ++ rest)) (hv : v.Shows unit rest)
    (hrun : fileSlashState v base url ctx = .ok turn) :
    turn.Leads (HostInv base input) (RightHost base input) before unit rest v.isEof := by
  obtain ⟨rfl, rfl⟩ := hinv
  obtain ⟨slash, hslash, hreference⟩ := h
  rw [fileSlashState] at hrun
  split at hrun
  · rename_i hc
    cases hrun
    obtain ⟨hne, b, hb, hunit⟩ := hv.slash hc
    refine hv.keep hne ?_
    rintro ⟨b', rest', -, -, -, hreference', hslashes⟩
    rw [hreference, hunit] at hreference'
    cases hreference'
    rw [List.singleton_append, beginsWithTwoSlashes, hslash, hb] at hslashes
    cases hslashes
  rename_i hc
  have hslashes : beginsWithTwoSlashes (slash :: (unit ++ rest)) = false := by
    cases htext : unit ++ rest with
    | nil => rfl
    | cons b _ =>
        rw [beginsWithTwoSlashes, hv.no_slash hc htext]
        exact Bool.and_false _
  split at hrun
  · rename_i b hfilter
    obtain ⟨hb, hfile⟩ := filter_eq_some hfilter
    cases hrun
    exact Turn.leads_right (.inr ⟨rfl, .inr (.inr (.inl rfl))⟩)
      (rightHost_copied hb hfile (hbase b hb).2 hreference hslashes rfl (.inl rfl))
  · rename_i hfilter
    cases hrun
    exact Turn.leads_right (.inr ⟨rfl, .inr (.inr (.inl rfl))⟩) (rightHost_empty (not_copies_of_filter hfilter) rfl)

theorem fileHostState_host (hinv : Inv base input .fileHost url ctx before (unit ++ rest))
    (h : HostInv base input .fileHost url ctx before (unit ++ rest))
    (hrun : fileHostState v url ctx = .ok turn) :
    turn.Leads (HostInv base input) (RightHost base input) before unit rest v.isEof := by
  obtain ⟨⟨buffer, rfl⟩, rfl⟩ := hinv
  have hempty {url' : UrlRecord} (hfacts : url'.hostFacts = emptyHost) : RightHost base input url' :=
    rightHost_empty h hfacts
  rw [fileHostState] at hrun
  split at hrun
  · split at hrun
    · cases hrun
      exact Turn.leads_right (.inr ⟨rfl, .inr (.inr (.inl rfl))⟩) (hempty rfl)
    split at hrun
    · cases hrun
      exact Turn.leads_right (.inr ⟨rfl, .inr (.inl rfl)⟩) (hempty rfl)
    · cases hparse : parseHost buffer (!isSpecialScheme fileRecord.scheme) fileRecord with
      | error e => rw [hparse] at hrun; cases hrun
      | ok url' =>
          rw [hparse] at hrun
          cases hrun
          obtain ⟨host, kind, htext, rfl⟩ := parseHost_ok hparse
          refine Turn.leads_right (.inr ⟨rfl, .inr (.inl rfl)⟩) ?_
          simp only
          split
          · exact hempty rfl
          · exact rightHost_parsed h htext _
  · rename_i hc
    cases hrun
    refine View.Shows.keep_or_end (fun _ => h) fun hend => absurd ?_ hc
    rw [hend]
    rfl

/-! ### Runs -/

theorem hostInv_kept (hbase : ∀ b, base = some b → b.WellFormed ∧ FairBase b) (hlast : input.getLast? ≠ some 0x20) :
    Invariant.Kept base input
      (fun state url ctx before rest => Inv base input state url ctx before rest ∧
        HostInv base input state url ctx before rest)
      fun url => Final base input url ∧ RightHost base input url := by
  refine (inv_kept (fun b hb => (hbase b hb).1) hlast).and ?_
  intro state url ctx before unit rest v turn hinput hinv h hv hrun
  have hbehind (hstate : BehindHost state) :
      turn.Leads (HostInv base input) (RightHost base input) before unit rest v.isEof := by
    have hkeeps := runState_keepsHost hstate hrun
    refine Turn.leads_right ?_ (((hostInv_behind hstate _ _ _ _).1 h).congr hkeeps.facts hkeeps.scheme)
    exact hkeeps.move.imp (fun hmove => ⟨hmove, fun _ => hkeeps.state⟩) fun hmove => ⟨hmove, hkeeps.state⟩
  cases state with
  | schemeStart => exact schemeStartState_host hinv hinput hv hrun
  | scheme => exact schemeState_host hinv hinput h hv hrun
  | noScheme => exact noSchemeState_host (fun b hb => (hbase b hb).1) hinv hinput h hv hrun
  | specialRelativeOrAuthority =>
      simp only [runState, specialRelativeOrAuthorityState] at hrun
      split at hrun
      · rename_i hslash
        cases hrun
        exact hv.increase hslash.2 fun _ _ => h
      · cases hrun
        exact h
  | pathOrAuthority =>
      simp only [runState, pathOrAuthorityState] at hrun
      split at hrun
      · rename_i hslash
        cases hrun
        exact hv.keep (by rw [hslash]; decide) h
      · cases hrun
        obtain ⟨-, scheme, rfl, -⟩ := hinv
        exact rightHost_noHost h rfl
  | relative => exact relativeState_host hbase hinv h hv hrun
  | relativeSlash => exact relativeSlashState_host hbase hinv h hv hrun
  | specialAuthoritySlashes =>
      simp only [runState, specialAuthoritySlashesState] at hrun
      split at hrun
      · rename_i hslash
        cases hrun
        exact hv.increase hslash.2 fun _ _ => h
      · cases hrun
        exact h
  | specialAuthorityIgnoreSlashes =>
      simp only [runState, specialAuthorityIgnoreSlashesState] at hrun
      split at hrun
      · cases hrun
        exact h
      · rename_i hslash
        cases hrun
        refine hv.keep (fun hzero => hslash ?_) h
        rw [hzero]
        decide
  | authority => exact authorityState_host hinv h hv hrun
  | host => exact hostState_host h hrun
  | file => exact fileState_host hbase hinv h hv hrun
  | fileSlash => exact fileSlashState_host hbase hinv h hv hrun
  | fileHost => exact fileHostState_host hinv h hrun
  | port => exact hbehind (.inl rfl)
  | pathStart => exact hbehind (.inr (.inl rfl))
  | path => exact hbehind (.inr (.inr (.inl rfl)))
  | opaquePath => exact hbehind (.inr (.inr (.inr (.inl rfl))))
  | query => exact hbehind (.inr (.inr (.inr (.inr (.inl rfl)))))
  | fragment => exact hbehind (.inr (.inr (.inr (.inr (.inr rfl)))))

theorem parses_rightHost {text : Bytes} (hbase : ∀ b, base = some b → b.WellFormed ∧ FairBase b)
    (h : Parses base text (.ok url)) : RightHost base (ownedInput text) url :=
  (h.holds (hostInv_kept hbase (ownedInput_getLast text)) ⟨⟨rfl, rfl, rfl⟩, trivial⟩).2

theorem RightHost.fair {text : Bytes} (h : RightHost base text url) : FairBase url := by
  refine ⟨fun hcases => h.agrees fun hcopies => ?_, h.address⟩
  obtain ⟨hscheme, -, -, hne⟩ := h.copied hcopies
  exact hcases.elim (fun hnot => hnot hscheme) hne

theorem Parsed.fair (h : Parsed url) : FairBase url := by
  induction h with
  | absolute h => exact (parses_rightHost (fun _ hb => by cases hb) h).fair
  | reference hbase h ih => exact (parses_rightHost (fun b hb => by cases hb; exact ⟨hbase.wellFormed, ih⟩) h).fair

end

end Rad.Url
