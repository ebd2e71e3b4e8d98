import Rad.Url.Lemmas.ReadFront
import Rad.Url.PathTheorems

/-!
# URLs are read back from their text
-/

namespace Rad.Url

variable {base : Option UrlRecord} {input text : Bytes} {u url url' : UrlRecord}

/-! ## Hosts -/

/-- There is no host, or an empty one, an address, an opaque one or a domain without Punycode. -/
def PlainHost (url : UrlRecord) : Prop :=
  url.hasHost = false ∨ url.host = [] ∨ (∃ address : Ipv4, url.host = address.toText) ∨
    (∃ address, url.host = urlSerializeIpv6 address) ∨ isSpecialScheme url.scheme = false ∨
      ∀ label ∈ Idna.labels url.host, Idna.IsAscii label ∧ ¬Idna.punycodePrefix <+: label

theorem isHostText_ipv6 (address : Ipv6) : IsHostText (urlSerializeIpv6 address) := by
  obtain ⟨text, htext, hbytes, -⟩ := urlSerializeIpv6_text address
  exact .inr ⟨text, htext, hbytes⟩

/-- Such a host is parsed to itself. -/
theorem host_again (hwell : u.WellFormed) (hplain : PlainHost u) (hhost : u.flags.host = true) :
    ∃ kind, parseHostText u.host (!isSpecialScheme u.scheme) = .ok (u.host, kind) ∧ IsHostText u.host := by
  by_cases hne : u.host = []
  · rw [hne]
    exact ⟨.empty, rfl, .inl nofun⟩
  obtain ⟨input, kind, hparse⟩ := (hwell.host hhost).text hne
  have hinput : input ≠ [] := by
    rintro rfl
    rw [parseHostText, if_pos rfl] at hparse
    simp only [Except.ok.injEq, Prod.mk.injEq] at hparse
    exact hne hparse.1.symm
  rcases parseHostText_cases hparse hinput with ⟨address, haddress⟩ | ⟨hopaquePath, htext⟩ |
    ⟨domain, a, hopaquePath, hdomain, ⟨-, address, haddress⟩ | ⟨hnumber, ha⟩⟩
  · rw [haddress]
    exact ⟨.ipv6, parseHostText_ipv6 address _, isHostText_ipv6 address⟩
  · obtain ⟨hbytes, -, hagain⟩ := parseHostText_opaque hinput htext
    rw [hopaquePath]
    exact ⟨.opaqueText, hagain, .inl hbytes⟩
  · obtain ⟨hbytes, hagain⟩ := parseHostText_ipv4 address
    rw [haddress, hopaquePath]
    exact ⟨.ipv4, hagain, .inl hbytes⟩
  · rcases hplain with hnone | hnil | ⟨address, haddress⟩ | ⟨address, haddress⟩ | hspecial | hlabels
    · rw [UrlRecord.hasHost, hhost] at hnone
      cases hnone
    · exact absurd hnil hne
    · obtain ⟨hbytes, hagain⟩ := parseHostText_ipv4 address
      rw [haddress, hopaquePath]
      exact ⟨.ipv4, hagain, .inl hbytes⟩
    · rw [haddress]
      exact ⟨.ipv6, parseHostText_ipv6 address _, isHostText_ipv6 address⟩
    · rw [hspecial] at hopaquePath
      cases hopaquePath
    · rw [ha] at hlabels hne ⊢
      have hbytes := (domain_bytes hdomain).2
      have hagain := urlDomainToAscii_again hdomain fun label hlabel => (hlabels label hlabel).2
      refine ⟨.domain, ?_, .inl fun b hb => (hbytes b hb).1⟩
      rw [hopaquePath, parseHostText_of_domain hne hbytes hagain, hnumber]
      rfl

/-! ## The text -/

theorem href_eq (u : UrlRecord) : href u = u.scheme ++ 0x3a :: (serializeHost u ++ (serializePath u ++ rearText u)) := by
  simp only [href, serializeUrl, rearText, Bool.false_eq_true, if_false, List.append_assoc, List.cons_append,
    List.nil_append]

/-- A text without controls and spaces is read as it is, and so is one with spaces between other characters. -/
theorem ownedInput_eq (hhead : ∀ b, text.head? = some b → isC0OrSpace b = false)
    (hlast : ∀ b, text.getLast? = some b → isC0OrSpace b = false) (hbytes : ∀ b ∈ text, isAsciiTabOrNewline b = false) :
    ownedInput text = text := by
  have hdrop : text.dropWhile isC0OrSpace = text := by
    cases text with
    | nil => rfl
    | cons b text => rw [List.dropWhile_cons, hhead b rfl, if_neg Bool.false_ne_true]
  have hrdrop : text.rdropWhile isC0OrSpace = text := by
    rw [List.rdropWhile_eq_self_iff]
    intro hne
    rw [hlast _ (List.getLast?_eq_some_getLast hne)]
    exact Bool.false_ne_true
  rw [ownedInput, removeLeadingAndTrailingC0AndSpace, hdrop, hrdrop, removeTabsAndNewlines, List.filter_eq_self]
  intro b hb
  rw [hbytes b hb, Bool.not_false]

/-- What the characters of a URL are but for the ones of an opaque path. -/
def isUrlByte (b : UInt8) : Bool := 0x21 ≤ b && b ≤ 0x7e

theorem urlByte_facts {b : UInt8} (h : isUrlByte b = true) : isC0OrSpace b = false ∧ isAsciiTabOrNewline b = false := by
  grind [isUrlByte, isC0OrSpace, isAsciiTabOrNewline]

theorem urlByte_scheme (h : IsScheme u.scheme) : ∀ b ∈ u.scheme, isUrlByte b = true := by
  intro b hb
  have hb' := h.characters b hb
  grind [isUrlByte, isSchemeCharacter, isSchemeHead]

theorem urlByte_keeps {encodeSet : List PerecentEncodeSetItem} {b : UInt8}
    (hset : encodeSet ∈ [userinfoPercentEncodeSet, fragmentPercentEncodeSet, queryPercentEncodeSet,
      specialQueryPercentEncodeSet, pathPercentEncodeSet]) (h : keeps encodeSet b = true) : isUrlByte b = true := by
  obtain ⟨hcontrol, hhigh, hspace⟩ : .upto 0x1f ∈ encodeSet ∧ .greaterThan 0x7e ∈ encodeSet ∧ .codepoint 0x20 ∈ encodeSet := by
    simp only [List.mem_cons, List.not_mem_nil, or_false] at hset
    rcases hset with rfl | rfl | rfl | rfl | rfl <;> decide
  rw [keeps, isUnreservedCharacterSet, Bool.not_eq_true', List.any_eq_false] at h
  have hlow := h _ hcontrol
  have htop := h _ hhigh
  have hblank := h _ hspace
  simp only [PerecentEncodeSetItem.toEncode, decide_eq_true_eq, beq_iff_eq] at hlow htop hblank
  rw [isUrlByte, Bool.and_eq_true, decide_eq_true_eq, decide_eq_true_eq, UInt8.le_iff_toNat_le, UInt8.le_iff_toNat_le]
  exact ⟨show 0x21 ≤ b.toNat by omega, show b.toNat ≤ 0x7e by omega⟩

theorem urlByte_opaquePath {b : UInt8} (h : isOpaquePathByte b = true) : isUrlByte b = true ∨ b = 0x20 := by
  simp only [isOpaquePathByte, keeps, isUnreservedCharacterSet, c0ControlPercentEncodeSet, Bool.and_eq_true,
    Bool.not_eq_true', List.any_cons, List.any_nil, PerecentEncodeSetItem.toEncode, Bool.or_eq_false_iff,
    decide_eq_false_iff_not] at h
  rw [isUrlByte, Bool.and_eq_true, decide_eq_true_eq, decide_eq_true_eq, UInt8.le_iff_toNat_le, UInt8.le_iff_toNat_le,
    ← UInt8.toNat_inj]
  simp only [UInt8.reduceToNat]
  omega

theorem urlByte_hexDigit {b : UInt8} (h : isHexDigit b = true) : isUrlByte b = true := by
  simp only [isUrlByte, isHexDigit, isAsciiNumeric, Bool.or_eq_true, Bool.and_eq_true, decide_eq_true_eq,
    UInt8.le_iff_toNat_le, UInt8.reduceToNat] at h ⊢
  omega

theorem urlByte_host (htext : IsHostText u.host) : ∀ b ∈ u.host, isUrlByte b = true := by
  rcases htext with h | ⟨text, hbrackets, h⟩
  · intro b hb
    have hb' := h b hb
    grind [isUrlByte, isHostByte]
  · rw [hbrackets]
    refine List.forall_mem_append.2 ⟨List.forall_mem_cons.2 ⟨by decide, fun b hb => ?_⟩,
      List.forall_mem_singleton.2 (by decide)⟩
    have hb' := h b hb
    rw [isAddressByte, Bool.or_eq_true, beq_iff_eq] at hb'
    rcases hb' with rfl | hdigit
    · decide
    · exact urlByte_hexDigit hdigit

theorem urlByte_serializeHost (hwell : u.WellFormed) (htext : u.flags.host = true → IsHostText u.host) :
    ∀ b ∈ serializeHost u, isUrlByte b = true := by
  have huserinfo {b : UInt8} (hb : b ∈ u.userinfo) : isUrlByte b = true :=
    urlByte_keeps (by decide) (hwell.userinfo b hb)
  have hport : ∀ b ∈ serializePort u, isUrlByte b = true := by
    rw [serializePort]
    split
    · refine List.forall_mem_cons.2 ⟨by decide, fun b hb => ?_⟩
      have hdigit := (digit_facts (List.all_eq_true.1 (toChars_digits (by decide) (by decide)) b hb)).2.1
      exact urlByte_hexDigit (by rw [isHexDigit, hdigit, Bool.true_or, Bool.true_or])
    · simp
  have hcredentials : ∀ b ∈ serializeCredentials u, isUrlByte b = true := by
    rw [serializeCredentials]
    split
    · refine List.forall_mem_append.2 ⟨List.forall_mem_append.2 ⟨fun b hb => huserinfo ((credentials_sub u).1 hb), ?_⟩,
        List.forall_mem_singleton.2 (by decide)⟩
      split
      · exact List.forall_mem_cons.2 ⟨by decide, fun b hb => huserinfo ((credentials_sub u).2 hb)⟩
      · simp
    · simp
  rw [serializeHost]
  split
  · rename_i hhost
    exact List.forall_mem_append.2 ⟨List.forall_mem_append.2
      ⟨List.forall_mem_append.2 ⟨List.all_eq_true.1 (by decide), hcredentials⟩,
      urlByte_host (htext hhost)⟩, hport⟩
  · simp

theorem urlByte_rearText (hwell : u.WellFormed) : ∀ b ∈ rearText u, isUrlByte b = true := by
  have hquery : ∀ b ∈ u.query, isUrlByte b = true := fun b hb => by
    have hkeeps := hwell.query b hb
    rw [queryEncodeSet] at hkeeps
    split at hkeeps
    · exact urlByte_keeps (by decide) hkeeps
    · exact urlByte_keeps (by decide) hkeeps
  have hfragment : ∀ b ∈ u.fragment, isUrlByte b = true := fun b hb => urlByte_keeps (by decide) (hwell.fragment b hb)
  rw [rearText, serializeQuery, serializeFragment]
  refine List.forall_mem_append.2 ⟨?_, ?_⟩
  · split
    · exact List.forall_mem_cons.2 ⟨by decide, hquery⟩
    · simp
  · split
    · exact List.forall_mem_cons.2 ⟨by decide, hfragment⟩
    · simp

theorem urlByte_serializePath (hwell : u.WellFormed) (hlist : u.flags.opaquePath = false) :
    ∀ b ∈ serializePath u, isUrlByte b = true := by
  obtain ⟨path, hpath, htext, -, -⟩ := hwell.segments hlist
  rw [serializePath, htext]
  refine List.forall_mem_append.2 ⟨?_, fun b hb => ?_⟩
  · split
    · exact List.all_eq_true.1 (by decide)
    · simp
  · obtain ⟨segment, hsegment, hb⟩ := List.mem_flatMap.1 hb
    rcases List.mem_cons.1 hb with rfl | hb
    · rfl
    · exact urlByte_keeps (by decide) (segmentByte_facts ((hpath.segments segment hsegment).characters b hb)).2.1

/-- The text of a URL is read as it is. -/
theorem ownedInput_href_eq (hwell : u.WellFormed) (htext : u.flags.host = true → IsHostText u.host)
    (hspace : EndsInSpace u → rearText u ≠ []) : ownedInput (href u) = href u := by
  have hhost := urlByte_serializeHost hwell htext
  have hrear := urlByte_rearText hwell
  have hscheme : ∀ b ∈ u.scheme ++ [0x3a], isUrlByte b = true :=
    List.forall_mem_append.2 ⟨urlByte_scheme hwell.scheme, List.forall_mem_singleton.2 (by decide)⟩
  have hfront : ∀ b ∈ u.scheme ++ [0x3a] ++ serializeHost u, isUrlByte b = true :=
    List.forall_mem_append.2 ⟨hscheme, hhost⟩
  have hhref : href u = u.scheme ++ [0x3a] ++ serializeHost u ++ serializePath u ++ rearText u := by
    rw [href_eq]
    simp only [List.append_assoc, List.cons_append, List.nil_append]
  have hpath : ∀ b ∈ serializePath u, isUrlByte b = true ∨ b = 0x20 := by
    cases hlist : u.flags.opaquePath with
    | false => exact fun b hb => .inl (urlByte_serializePath hwell hlist b hb)
    | true =>
        obtain ⟨hnone, -, -, hopaquePath⟩ := hwell.opaqueText hlist
        rw [serializePath, UrlRecord.isOpaquePath, hlist]
        intro b hb
        simp only [Bool.not_true, Bool.and_false, Bool.false_and, Bool.false_eq_true, if_false, List.nil_append] at hb
        exact urlByte_opaquePath (hopaquePath.characters b hb)
  refine ownedInput_eq ?_ ?_ ?_
  · intro b hb
    cases hs : u.scheme with
    | nil => exact absurd hs hwell.scheme.ne_nil
    | cons ch scheme =>
        rw [href_eq, hs] at hb
        cases hb
        exact (urlByte_facts (urlByte_scheme hwell.scheme b (by rw [hs]; exact List.mem_cons_self))).1
  · intro b hb
    rw [hhref, List.getLast?_append] at hb
    cases hr : (rearText u).getLast? with
    | some b' =>
        rw [hr, Option.some_or, Option.some_inj] at hb
        exact (urlByte_facts (hrear b (hb ▸ List.mem_of_getLast? hr))).1
    | none =>
        have hnil : rearText u = [] := List.getLast?_eq_none_iff.1 hr
        rw [hr, Option.none_or, List.getLast?_append] at hb
        cases hp : (serializePath u).getLast? with
        | some b' =>
            rw [hp, Option.some_or, Option.some_inj] at hb
            rcases hpath b (hb ▸ List.mem_of_getLast? hp) with hb' | rfl
            · exact (urlByte_facts hb').1
            · -- only an opaque path ends with a space
              exfalso
              cases hlist : u.flags.opaquePath with
              | false =>
                  have hbyte := urlByte_serializePath hwell hlist 0x20 (hb ▸ List.mem_of_getLast? hp)
                  exact absurd hbyte (by decide)
              | true =>
                  refine hspace ⟨hlist, ?_⟩ hnil
                  rw [serializePath, UrlRecord.isOpaquePath, hlist] at hp
                  simp only [Bool.not_true, Bool.and_false, Bool.false_and, Bool.false_eq_true, if_false,
                    List.nil_append] at hp
                  rw [hp, hb]
        | none =>
            rw [hp, Option.none_or] at hb
            exact (urlByte_facts (hfront b (List.mem_of_getLast? hb))).1
  · rw [hhref]
    intro b hb
    rcases List.mem_append.1 hb with hb | hb
    · rcases List.mem_append.1 hb with hb | hb
      · exact (urlByte_facts (hfront b hb)).2
      · rcases hpath b hb with hb | rfl
        · exact (urlByte_facts hb).2
        · rfl
    · exact (urlByte_facts (hrear b hb)).2

/-! ## Reading a URL back -/

section

variable {path : List Bytes}

/-- The run that reads the text comes to a record that shows the same as the one that was written. -/
def ReadsList (u : UrlRecord) (path : List Bytes) : Prop :=
  ∃ (front : UrlRecord) (ctx : UrlParseContext), ctx.path = path ∧ front.components = u.components.front ∧
    Ends none ⟨.schemeStart, {}, {}, [], href u⟩ (.ok (finish (front.withRear u) ctx))

theorem reads_noHost (hwell : u.WellFormed) (hlist : u.flags.opaquePath = false) (hhost : u.flags.host = false)
    (hpath : IsPath u.scheme path) (htext : u.path = urlPathSerializer path) (hne : path ≠ [])
    (hempty : u.flags.emptyFirstPathSegment = decide (path.head? = some [])) : ReadsList u path := by
  obtain ⟨hspecial, hnil⟩ := hwell.noHost hhost
  have hbare := hwell.bare hnil
  refine ⟨blank u.scheme, { path := path }, rfl, ?_, ?_⟩
  · have husername : u.username = [] := username_eq_nil_iff.2 (by rw [UrlRecord.hasUsername, hbare.username]; rfl)
    have hpassword : u.password = [] := password_eq_nil_iff.2 (by rw [UrlRecord.hasPassword, hbare.password]; rfl)
    simp only [UrlRecord.components, Components.front, husername, hpassword, UrlRecord.hasHost, UrlRecord.isOpaquePath,
      hhost, hlist, UrlRecord.hasPort, UrlRecord.portNumber, hbare.port, hnil]
    rfl
  · rw [href_eq, serializeHost, UrlRecord.hasHost, hhost, if_neg Bool.false_ne_true, List.nil_append]
    exact ends_serializePath hwell.scheme hspecial hwell.toRear hpath hne htext hhost hlist hempty

theorem href_host (hhost : u.flags.host = true) (htext : u.path = urlPathSerializer path) :
    href u = u.scheme ++ 0x3a :: 0x2f :: 0x2f ::
      (serializeCredentials u ++ (u.host ++ (serializePort u ++ (urlPathSerializer path ++ rearText u)))) := by
  rw [href_eq, serializeHost, UrlRecord.hasHost, hhost, if_pos rfl, serializePath, UrlRecord.hasHost, hhost, htext,
    show ascii "//" = [0x2f, 0x2f] by decide]
  simp only [Bool.not_true, Bool.false_and, Bool.false_eq_true, if_false, List.nil_append, List.append_assoc,
    List.cons_append]

theorem ends_front {front : UrlRecord} {ctx : UrlParseContext} {before : Bytes} (hwell : u.WellFormed)
    (hctx : InsideAuthority ctx) (hfront : front.components = u.components.front) (hpath : IsPath u.scheme path)
    (hneeds : isSpecialScheme u.scheme = true → path ≠ []) :
    Ends base ⟨.pathStart, front, ctx, before, urlPathSerializer path ++ rearText u⟩
      (.ok (finish (front.withRear u) { ctx with path := path })) := by
  have hscheme : u.scheme = front.scheme := (congrArg Components.scheme hfront).symm
  rw [hscheme] at hpath hneeds
  have hends : Ends base
      ⟨.pathStart, front, { ctx with path := [], buffer := [] }, before, urlPathSerializer path ++ rearText u⟩ _ :=
    ends_pathStart ctx hscheme hwell.toRear hpath hneeds
  have hsame : { ctx with path := [], buffer := [] } = ctx := by rw [← hctx.path, ← hctx.buffer]
  have hsame' : { ctx with path := path, buffer := [] } = { ctx with path := path } := by rw [← hctx.buffer]
  rwa [hsame, hsame'] at hends

theorem reads_file (hwell : u.WellFormed) (hlist : u.flags.opaquePath = false) (hhost : u.flags.host = true)
    (hfile : u.scheme = ascii "file") {kind : UrlRecord.HostKind}
    (hparse : parseHostText u.host (!isSpecialScheme u.scheme) = .ok (u.host, kind)) (hhostText : IsHostText u.host)
    (hpath : IsPath u.scheme path) (htext : u.path = urlPathSerializer path)
    (hneeds : isSpecialScheme u.scheme = true → path ≠ []) : ReadsList u path := by
  have hbare := hwell.file hfile
  have hcredentials : serializeCredentials u = [] := by
    rw [serializeCredentials, UrlRecord.hasUsername, UrlRecord.hasPassword, hbare.username, hbare.password]
    rfl
  have hport : serializePort u = [] := by
    rw [serializePort, UrlRecord.hasPort, hbare.port]
    rfl
  have hfront := components_file kind hfile hbare hhost hlist
  refine ⟨fileRecord.withHost kind u.host, { path := path }, rfl, hfront, ?_⟩
  rw [href_host hhost htext, hcredentials, hport, List.nil_append, List.nil_append]
  have hscheme : Reaches none ⟨.schemeStart, {}, {}, [],
      ascii "file" ++ 0x3a :: 0x2f :: 0x2f :: (u.host ++ (urlPathSerializer path ++ rearText u))⟩
      ⟨.scheme, {}, { buffer := ascii "file" }, ascii "file",
        0x3a :: 0x2f :: 0x2f :: (u.host ++ (urlPathSerializer path ++ rearText u))⟩ :=
    reaches_scheme isScheme_file
  have hread := reaches_fileRecord none (ascii "file" ++ [0x3a] ++ [0x2f] ++ [0x2f]) hfile
    ((hwell.host hhost).localhost hfile) hparse hhostText (isBehindAuthority_path path u)
  rw [hfile]
  exact ((hscheme.trans reaches_fileHost).trans hread).ends (ends_front hwell ⟨rfl, rfl, rfl⟩ hfront hpath hneeds)

theorem reads_authority (hwell : u.WellFormed) (hlist : u.flags.opaquePath = false) (hhost : u.flags.host = true)
    (hfile : u.scheme ≠ ascii "file") {kind : UrlRecord.HostKind}
    (hparse : parseHostText u.host (!isSpecialScheme u.scheme) = .ok (u.host, kind)) (hhostText : IsHostText u.host)
    (hpath : IsPath u.scheme path) (htext : u.path = urlPathSerializer path)
    (hneeds : isSpecialScheme u.scheme = true → path ≠ []) : ReadsList u path := by
  have hfront := components_frontRecord hhost hlist kind
  have hhead : isSpecialScheme u.scheme = true → ∀ ch,
      (serializeCredentials u ++ (u.host ++ (serializePort u ++ (urlPathSerializer path ++ rearText u)))).head? = some ch →
        isAuthorityByte ch = true ∨ ch = 0x40 := by
    intro hspecial ch hch
    have hne : u.host ≠ [] := fun hnil => hfile ((hwell.host hhost).special hnil hspecial)
    rw [List.head?_append] at hch
    cases hc : (serializeCredentials u).head? with
    | some ch' =>
        rw [hc, Option.some_or, Option.some_inj] at hch
        exact credentials_bytes hwell.userinfo ch (hch ▸ List.mem_of_mem_head? hc)
    | none =>
        cases hh : u.host with
        | nil => exact absurd hh hne
        | cons b host =>
            rw [hc, hh] at hch
            cases hch
            exact .inl (hhostText.authority ch (by rw [hh]; exact List.mem_cons_self))
  obtain ⟨ctx, before, hctx, hread⟩ := reaches_frontRecord none (u.scheme ++ [0x3a] ++ [0x2f] ++ [0x2f]) hwell.toFront hhost
    hfile hparse hhostText (isBehindAuthority_path path u)
  refine ⟨frontRecord u kind, { ctx with path := path }, rfl, hfront, ?_⟩
  rw [href_host hhost htext]
  exact ((reaches_authority hwell.scheme hfile hhead).trans hread).ends (ends_front hwell hctx hfront hpath hneeds)

end

/-- The text of a URL with a list for its path. -/
theorem reads_list (hwell : u.WellFormed) (hplain : PlainHost u) (hlist : u.flags.opaquePath = false) :
    ∃ url, Parses none (href u) (.ok url) ∧ url.components = u.components := by
  obtain ⟨path, hpath, htext, hneeds, hempty⟩ := hwell.segments hlist
  have hhostText : u.flags.host = true → IsHostText u.host := fun hhost => by
    obtain ⟨kind, -, hhostText⟩ := host_again hwell hplain hhost
    exact hhostText
  have howned := ownedInput_href_eq hwell hhostText fun hspace => by
    rw [EndsInSpace, hlist] at hspace
    cases hspace.1
  have hreads : ReadsList u path := by
    cases hhost : u.flags.host with
    | false => exact reads_noHost hwell hlist hhost hpath htext (hneeds (.inl hhost)) hempty
    | true =>
        obtain ⟨kind, hparse, hhostText⟩ := host_again hwell hplain hhost
        have hneeds' : isSpecialScheme u.scheme = true → path ≠ [] := fun hspecial => hneeds (.inr hspecial)
        by_cases hfile : u.scheme = ascii "file"
        · exact reads_file hwell hlist hhost hfile hparse hhostText hpath htext hneeds'
        · exact reads_authority hwell hlist hhost hfile hparse hhostText hpath htext hneeds'
  obtain ⟨front, ctx, hctx, hfront, hends⟩ := hreads
  rw [← howned] at hends
  exact ⟨_, hends.parses, components_read hfront htext hctx⟩

/-- The text of a URL with an opaque path, of which the last space may be read as an escape. -/
theorem reads_opaque (hwell : u.WellFormed) (hopaquePath : u.flags.opaquePath = true)
    (hspace : EndsInSpace u → rearText u ≠ []) :
    ∃ url, Parses none (href u) (.ok url) ∧
      url.components = { u.components with pathname := readOpaquePath u.path (rearText u) } := by
  obtain ⟨hhost, hspecial, -, hpath⟩ := hwell.opaqueText hopaquePath
  have hnil := (hwell.noHost hhost).2
  have hbare := hwell.bare hnil
  have howned := ownedInput_href_eq hwell (fun h => by rw [hhost] at h; cases h) hspace
  have hends : Ends none ⟨.schemeStart, {}, {}, [], u.scheme ++ 0x3a :: (u.path ++ rearText u)⟩
      (.ok ((opaqueRecord u).withRear u)) := ends_opaquePath hwell.scheme hspecial hwell.toRear hpath
  have htext : href u = u.scheme ++ 0x3a :: (u.path ++ rearText u) := by
    rw [href_eq, serializeHost, UrlRecord.hasHost, hhost, serializePath, UrlRecord.isOpaquePath, hopaquePath]
    simp only [Bool.false_eq_true, if_false, Bool.not_true, Bool.and_false, Bool.false_and, List.nil_append]
  rw [← htext, ← howned] at hends
  refine ⟨_, hends.parses, ?_⟩
  have husername : u.username = [] := username_eq_nil_iff.2 (by rw [UrlRecord.hasUsername, hbare.username]; rfl)
  have hpassword : u.password = [] := password_eq_nil_iff.2 (by rw [UrlRecord.hasPassword, hbare.password]; rfl)
  rw [components_withRear rfl rfl]
  simp only [UrlRecord.components, husername, hpassword, UrlRecord.hasHost, UrlRecord.isOpaquePath, hhost, hopaquePath,
    UrlRecord.hasPort, UrlRecord.portNumber, hbare.port, hnil]
  rfl

/-! ## What is shown gives the text -/

theorem serializeCredentials_eq (u : UrlRecord) : serializeCredentials u =
    if u.username ≠ [] ∨ u.password ≠ [] then
      u.username ++ (if u.password ≠ [] then 0x3a :: u.password else []) ++ [0x40]
    else [] := by
  rw [serializeCredentials]
  refine if_congr ?_ rfl rfl
  rw [Bool.or_eq_true, ne_eq, username_eq_nil_iff, ne_eq, password_eq_nil_iff, Bool.not_eq_false, Bool.not_eq_false]

/-- Records that show the same have the same text. -/
theorem href_of_components (hwell : u.WellFormed) (hwell' : url.WellFormed) (h : url.components = u.components) :
    href url = href u := by
  have hhasHost : url.hasHost = u.hasHost := congrArg Components.hasHost h
  have hopaquePath : url.isOpaquePath = u.isOpaquePath := congrArg Components.hasOpaquePath h
  have hpath : url.path = u.path := congrArg Components.pathname h
  have hcredentials : serializeCredentials url = serializeCredentials u := by
    rw [serializeCredentials_eq, serializeCredentials_eq, show url.username = u.username from congrArg Components.username h,
      show url.password = u.password from congrArg Components.password h]
  have hport : serializePort url = serializePort u := by
    have hhasPort : url.hasPort = u.hasPort := congrArg Components.hasPort h
    have hnumber : url.portNumber = u.portNumber := congrArg Components.port h
    rw [serializePort, serializePort, hhasPort]
    cases hu : u.hasPort with
    | false => rfl
    | true =>
        rw [UrlRecord.portNumber, UrlRecord.portNumber, hhasPort, hu, if_pos rfl, if_pos rfl] at hnumber
        rw [hnumber]
  have hserializePath : serializePath url = serializePath u := by
    rw [serializePath, serializePath, hhasHost, hopaquePath, hpath]
    cases hu : u.isOpaquePath with
    | true => simp only [Bool.not_true, Bool.and_false, Bool.false_and]
    | false =>
        obtain ⟨path, hsegments, htext, -, hempty⟩ := hwell.segments hu
        obtain ⟨path', hsegments', htext', -, hempty'⟩ := hwell'.segments (hopaquePath.trans hu)
        have hsame : path' = path := by rw [← hsegments'.split, ← htext', hpath, htext, hsegments.split]
        rw [UrlRecord.isEmptyFirstPathSegment, UrlRecord.isEmptyFirstPathSegment, hempty, hempty', hsame]
  have hquery : serializeQuery url = serializeQuery u := by
    have hhasQuery : url.hasQuery = u.hasQuery := congrArg Components.hasQuery h
    have htext : url.queryText = u.queryText := congrArg Components.query h
    rw [UrlRecord.queryText, UrlRecord.queryText, hhasQuery] at htext
    rw [serializeQuery, serializeQuery, hhasQuery]
    cases hu : u.hasQuery with
    | false => rfl
    | true =>
        rw [hu, if_pos rfl, if_pos rfl] at htext
        rw [htext]
  have hfragment : serializeFragment url = serializeFragment u := by
    have hhasFragment : url.hasFragment = u.hasFragment := congrArg Components.hasFragment h
    have htext : url.fragmentText = u.fragmentText := congrArg Components.fragment h
    rw [UrlRecord.fragmentText, UrlRecord.fragmentText, hhasFragment] at htext
    rw [serializeFragment, serializeFragment, hhasFragment]
    cases hu : u.hasFragment with
    | false => rfl
    | true =>
        rw [hu, if_pos rfl, if_pos rfl] at htext
        rw [htext]
  rw [href_eq, href_eq, rearText, rearText, hserializePath, hquery, hfragment, serializeHost, serializeHost, hhasHost,
    hcredentials, hport, show url.scheme = u.scheme from congrArg Components.scheme h,
    show url.host = u.host from congrArg Components.hostname h]

/-! ## References that are a fragment -/

/-- The record of an opaque path with another fragment. -/
def fragmentOf (b : UrlRecord) (fragment : Bytes) : UrlRecord where
  scheme := b.scheme
  path := b.path
  query := b.query
  fragment := fragment
  flags := { b.flags.clearHost with port := false, fragment := true }

theorem ends_fragmentOf {b : UrlRecord} (hopaquePath : b.flags.opaquePath = true) (f : Bytes) :
    Ends (some b) ⟨.schemeStart, {}, {}, [], 0x23 :: f⟩
      (match utf8DecodeAll f with
        | .ok _ => .ok (fragmentOf b (f.flatMap (encodeByte fragmentPercentEncodeSet)))
        | .error _ => .error .invalidUrlUnit) := by
  have hstart : Reaches (some b) ⟨.schemeStart, {}, {}, [], 0x23 :: f⟩ ⟨.noScheme, {}, {}, [], 0x23 :: f⟩ :=
    .decrease_ascii (by decide) rfl
  have hfragment : Reaches (some b) ⟨.noScheme, {}, {}, [], 0x23 :: f⟩ ⟨.fragment, fragmentOf b [], {}, [] ++ [0x23], f⟩ := by
    refine .keep_ascii (by decide) ?_
    rw [runState, noSchemeState]
    simp only [UrlRecord.isOpaquePath, hopaquePath]
    rfl
  refine (hstart.trans hfragment).ends ?_
  have hends : Ends (some b) ⟨.fragment, fragmentOf b [], {}, [] ++ [0x23], f⟩ _ := ends_fragment _ _ _ _
  cases hdecode : utf8DecodeAll f with
  | ok cps =>
      rw [hdecode] at hends
      simp only [finish_of_nil] at hends
      exact hends
  | error e =>
      rw [hdecode] at hends
      exact hends

/-- The input is a fragment for a base whose opaque path ends with a space, and more than one character follows this. -/
def EndsBase (base : Option UrlRecord) (input : Bytes) : Prop :=
  ∃ b f, base = some b ∧ b.isOpaquePath = true ∧ b.path.getLast? = some 0x20 ∧ ownedInput input = 0x23 :: f ∧
    (b.hasQuery = true ∨ f ≠ [])

/-- When a space is read as an escape. -/
theorem endsBase_iff (hbase : ∀ b, base = some b → Parsed b) (h : Parses base input (.ok url)) :
    (EndsInSpace url → rearText url ≠ []) ∧ (EndsInSpace url ∧ (rearText url).length > 1 ↔ EndsBase base input) := by
  by_cases honly : FragmentOnly base (ownedInput input)
  · obtain ⟨⟨b, rfl, hopaquePath⟩, hhead⟩ := honly
    obtain ⟨f, hf⟩ : ∃ f, ownedInput input = 0x23 :: f := by
      cases hinput : ownedInput input with
      | nil => rw [hinput] at hhead; cases hhead
      | cons ch f =>
          rw [hinput] at hhead
          cases hhead
          exact ⟨f, rfl⟩
    have hends := ends_fragmentOf hopaquePath f
    rw [← hf] at hends
    have hsame := h.unique hends.parses
    split at hsame
    · cases hsame
      have hrear : rearText (fragmentOf b (f.flatMap (encodeByte fragmentPercentEncodeSet))) =
          serializeQuery b ++ 0x23 :: f.flatMap (encodeByte fragmentPercentEncodeSet) := rfl
      have hempty : (f.flatMap (encodeByte fragmentPercentEncodeSet)).length = 0 ↔ f = [] := by
        have hle := length_le_flatMap fragmentPercentEncodeSet f
        refine ⟨fun hzero => List.eq_nil_of_length_eq_zero (by omega), ?_⟩
        rintro rfl
        rfl
      have hlong : (rearText (fragmentOf b (f.flatMap (encodeByte fragmentPercentEncodeSet)))).length > 1 ↔
          b.hasQuery = true ∨ f ≠ [] := by
        rw [hrear, List.length_append, List.length_cons, ← not_iff_not, not_or, not_not, ← hempty, serializeQuery]
        cases b.hasQuery with
        | true =>
            rw [if_pos rfl, List.length_cons]
            simp only [not_true_eq_false, false_and, iff_false]
            omega
        | false =>
            rw [if_neg Bool.false_ne_true, List.length_nil]
            simp only [Bool.false_eq_true, not_false_eq_true, true_and]
            omega
      refine ⟨fun _ => by rw [hrear]; exact List.append_ne_nil_of_right_ne_nil _ (List.cons_ne_nil _ _), ?_⟩
      rw [hlong]
      constructor
      · rintro ⟨⟨-, hspace⟩, hmore⟩
        exact ⟨b, f, rfl, hopaquePath, hspace, hf, hmore⟩
      · rintro ⟨b', f', hb', -, hspace, hf', hmore⟩
        cases hb'
        cases hf.symm.trans hf'
        exact ⟨⟨hopaquePath, hspace⟩, hmore⟩
    · cases hsame
  · have hfinal := (parses_final (fun b hb => (hbase b hb).wellFormed) h).2
    have hone (hspace : EndsInSpace url) : (rearText url).length = 1 := hfinal hspace honly
    refine ⟨fun hspace hnil => ?_, ?_⟩
    · have hlength := hone hspace
      rw [hnil] at hlength
      cases hlength
    · constructor
      · rintro ⟨hspace, hlong⟩
        rw [hone hspace] at hlong
        exact absurd hlong (by decide)
      · rintro ⟨b, f, hb, hopaquePath, -, hf, -⟩
        exact absurd ⟨⟨b, hb, hopaquePath⟩, by rw [hf]; rfl⟩ honly

/-! ## Round trip -/

/-- The text of the URL is parsed without a base, and what is read shows the same and has the same text. -/
def ReadsBack (url : UrlRecord) : Prop :=
  ∃ url', Parses none (href url) (.ok url') ∧ url'.components = url.components ∧ href url' = href url

theorem readOpaquePath_eq_iff {path rear : Bytes} :
    readOpaquePath path rear = path ↔ ¬(path.getLast? = some 0x20 ∧ rear.length > 1) := by
  rw [readOpaquePath]
  split
  · rename_i h
    have hne : path ≠ [] := by
      rintro rfl
      cases h.1
    refine ⟨fun hsame => ?_, fun hnot => absurd h hnot⟩
    have hlength := congrArg List.length hsame
    have := List.length_pos_iff.2 hne
    rw [List.length_append, List.length_dropLast, show (ascii "%20").length = 3 by decide] at hlength
    omega
  · rename_i h
    exact ⟨fun _ => h, fun _ => rfl⟩

/-- A URL is read back from its text, but for one that is the fragment of a base whose opaque path ends with a space. -/
theorem href_round_trip (hbase : ∀ b, base = some b → Parsed b) (h : Parses base input (.ok url)) (hhost : PlainHost url) :
    ReadsBack url ↔ ¬EndsBase base input := by
  have hwell := parses_wellFormed hbase h
  obtain ⟨hspace, hends⟩ := endsBase_iff hbase h
  rw [← hends]
  have hreads (hcomponents : ∃ url', Parses none (href url) (.ok url') ∧ url'.components = url.components) :
      ReadsBack url := by
    obtain ⟨url', hparses, hsame⟩ := hcomponents
    exact ⟨url', hparses, hsame, href_of_components hwell (parses_wellFormed (fun _ hb => by cases hb) hparses) hsame⟩
  cases hopaquePath : url.flags.opaquePath with
  | false =>
      refine ⟨fun _ hescape => ?_, fun _ => hreads (reads_list hwell hhost hopaquePath)⟩
      rw [EndsInSpace, hopaquePath] at hescape
      cases hescape.1.1
  | true =>
      obtain ⟨url', hparses, hshown⟩ := reads_opaque hwell hopaquePath hspace
      have hpath : (EndsInSpace url ∧ (rearText url).length > 1) ↔
          url.path.getLast? = some 0x20 ∧ (rearText url).length > 1 := by
        rw [EndsInSpace, hopaquePath]
        simp only [true_and]
      rw [hpath, ← readOpaquePath_eq_iff]
      constructor
      · rintro ⟨url'', hparses', hsame, -⟩
        cases hparses.unique hparses'
        exact congrArg Components.pathname (hshown.symm.trans hsame)
      · intro hsame
        rw [hsame] at hshown
        exact hreads ⟨url', hparses, hshown⟩

/-- Credentials, a port, a query and a fragment. -/
theorem href_round_trip_credentials :
    ∃ url, Parses none (ascii "http://u:p@h:8080/a?q#f") (.ok url) ∧ url.username = ascii "u" ∧ ReadsBack url := by
  have hrun : (Lib.runLoop (pass none) 60 (.initial (ascii "http://u:p@h:8080/a?q#f"))).map
      (fun r => r.toOption.map fun url => (url.host, url.username)) = some (some (ascii "h", ascii "u")) := by decide +kernel
  obtain ⟨r, hr, hshown⟩ := Lib.returns_of_map_runLoop hrun
  cases r with
  | error e => cases hshown
  | ok url =>
      simp only [Except.toOption, Option.map_some, Option.some.injEq, Prod.mk.injEq] at hshown
      have hhost : PlainHost url := by
        rw [PlainHost, hshown.1]
        exact .inr (.inr (.inr (.inr (.inr (by decide)))))
      refine ⟨url, hr, hshown.2, (href_round_trip (fun _ hb => by cases hb) hr hhost).2 ?_⟩
      rintro ⟨b, f, hb, -⟩
      cases hb

/-- A base with a space at the end of its path, in front of an empty query. -/
theorem not_readsBack_fragment :
    ¬∀ (base : Option UrlRecord) (input : Bytes) (url : UrlRecord), (∀ b, base = some b → Parsed b) →
      Parses base input (.ok url) → PlainHost url → ReadsBack url := by
  intro hall
  have hrun : (Lib.runLoop (pass none) 20 (.initial (ascii "foo:a ?"))).map Except.toOption =
      some (some { scheme := ascii "foo", path := ascii "a ", flags := { opaquePath := true, query := true } }) := by
    decide +kernel
  obtain ⟨r, hr, hb⟩ := Lib.returns_of_map_runLoop hrun
  cases r with
  | error e => cases hb
  | ok b =>
      cases hb
      have hrun' : (Lib.runLoop (pass (some
          { scheme := ascii "foo", path := ascii "a ", flags := { opaquePath := true, query := true } })) 20
          (.initial (ascii "#f"))).map
            (fun r => r.toOption.map fun url => (url.hasHost, url.path, href url)) =
          some (some (false, ascii "a ", ascii "foo:a ?#f")) := by
        decide +kernel
      obtain ⟨r', hr', hurl⟩ := Lib.returns_of_map_runLoop hrun'
      cases r' with
      | error e => cases hurl
      | ok url =>
          simp only [Except.toOption, Option.map_some, Option.some.injEq, Prod.mk.injEq] at hurl
          obtain ⟨hhost, hpath, hhref⟩ := hurl
          obtain ⟨url', hparses, hshown, -⟩ := hall _ _ url (fun b hb => by cases hb; exact .absolute hr) hr' (.inl hhost)
          have hrun'' : (Lib.runLoop (pass none) 20 (.initial (ascii "foo:a ?#f"))).map
              (fun r => r.toOption.map UrlRecord.path) = some (some (ascii "a%20")) := by
            decide +kernel
          obtain ⟨r'', hr'', hescape⟩ := Lib.returns_of_map_runLoop hrun''
          rw [hhref] at hparses
          cases hparses.unique hr''
          have hsame := congrArg Components.pathname hshown
          simp only [Except.toOption, Option.map_some, Option.some.injEq] at hescape
          rw [show url'.components.pathname = url'.path from rfl, show url.components.pathname = url.path from rfl, hescape,
            hpath] at hsame
          exact absurd hsame (by decide)

end Rad.Url
