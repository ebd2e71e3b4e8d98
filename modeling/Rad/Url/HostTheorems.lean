import Rad.Url.Lemmas.Decode
import Rad.Url.Lemmas.HostInvariant

/-!
# Hosts that the parser gives

The kind of a host is that of its text but where the host of a file is taken over, and escapes in a host are seen through.
-/

namespace Rad.Url

/-! ## Kinds -/

/-- The flags of a host are right where it does not come from a base with the scheme file that has a host. -/
theorem hostFacts_agree {base : Option UrlRecord} {input : Bytes} {url : UrlRecord}
    (hbase : ∀ b, base = some b → Parsed b) (h : Parses base input (.ok url)) :
    url.hostFacts.Agrees ↔ ¬CopiesFileHost base (ownedInput input) := by
  have hright := parses_rightHost (fun b hb => ⟨(hbase b hb).wellFormed, (hbase b hb).fair⟩) h
  refine ⟨fun hagrees hcopies => ?_, hright.agrees⟩
  obtain ⟨-, hhas, hempty, hne⟩ := hright.copied hcopies
  exact hne ((hagrees.empty hhas).1 hempty)

/-- A URL without a base. -/
theorem hostFacts_agree_http :
    ∃ url, Parses none (ascii "http://h/") (.ok url) ∧ url.host = ascii "h" ∧ url.hostFacts.Agrees := by
  have hrun : (Lib.runLoop (pass none) 20 (.initial (ascii "http://h/"))).map
      (fun r => r.toOption.map UrlRecord.host) = some (some (ascii "h")) := by decide +kernel
  obtain ⟨r, hr, hhost⟩ := Lib.returns_of_map_runLoop hrun
  cases r with
  | error e => cases hhost
  | ok url =>
      refine ⟨url, hr, Option.some.inj hhost, (hostFacts_agree (fun _ hb => by cases hb) hr).2 ?_⟩
      rintro ⟨b, rest, hb, -⟩
      cases hb

/-- The file "file://h/a". -/
def hostFile : UrlRecord :=
  { scheme := ascii "file", host := ascii "h", path := ascii "/a"
    flags := { host := true, domainHost := true, specialScheme := true } }

/-- A file beside the one of a base with a host. -/
theorem hostFacts_disagree :
    ¬∀ (base : Option UrlRecord) (input : Bytes) (url : UrlRecord), (∀ b, base = some b → Parsed b) →
      Parses base input (.ok url) → url.hostFacts.Agrees := by
  intro hall
  have hrun : (Lib.runLoop (pass none) 20 (.initial (ascii "file://h/a"))).map Except.toOption =
      some (some hostFile) := by decide +kernel
  obtain ⟨r, hr, hb⟩ := Lib.returns_of_map_runLoop hrun
  cases r with
  | error e => cases hb
  | ok b =>
      cases hb
      have hrun' : (Lib.runLoop (pass (some hostFile)) 20 (.initial (ascii "b"))).map
          (fun r => r.toOption.map fun url => (url.hostFacts.has, url.hostFacts.empty, url.hostFacts.host)) =
          some (some (true, true, ascii "h")) := by
        decide +kernel
      obtain ⟨r', hr', hurl⟩ := Lib.returns_of_map_runLoop hrun'
      cases r' with
      | error e => cases hurl
      | ok url =>
          simp only [Except.toOption, Option.map_some, Option.some.injEq, Prod.mk.injEq] at hurl
          obtain ⟨hhas, hempty, hhost⟩ := hurl
          have hagrees := hall _ _ url (fun b hb => by cases hb; exact .absolute hr) hr'
          have hnil := (hagrees.empty hhas).1 hempty
          rw [hhost] at hnil
          cases hnil

/-! ## Escapes -/

/-- A text with some of its characters in escapes; those that are left as they are have the property. -/
inductive PartlyEncoded (left : Nat → Prop) : List Nat → Bytes → Prop where
  | nil : PartlyEncoded left [] []
  | plain {cp : Nat} {cps : List Nat} {t : Bytes} (hleft : left cp) (h : PartlyEncoded left cps t) :
      PartlyEncoded left (cp :: cps) (utf8Encode cp ++ t)
  | escaped {cp : Nat} {cps : List Nat} {t : Bytes} {escapes : List Bytes}
      (hescapes : List.Forall₂ IsEscape (utf8Encode cp) escapes) (h : PartlyEncoded left cps t) :
      PartlyEncoded left (cp :: cps) (escapes.flatten ++ t)

variable {cps : List Nat} {t host : Bytes} {kind : UrlRecord.HostKind}

/-- The escapes are decoded where nothing but unreserved characters is beside them. -/
theorem percentDecode_partlyEncoded (hvalid : ∀ cp ∈ cps, isValidCodepoint cp = true)
    (h : PartlyEncoded (isUnreservedCharacter · = true) cps t) : percentDecode t = .ok (cps.flatMap utf8Encode) := by
  rw [percentDecode]
  induction h with
  | nil =>
      rw [doPercentDecode]
      rfl
  | @plain cp cps t hleft _ ih =>
      obtain ⟨-, hvalid⟩ := List.forall_mem_cons.1 hvalid
      obtain ⟨b, hb, htoNat⟩ := toNat_utf8Encode_low (isUnreservedCharacter_low hleft).1
      rw [List.flatMap_cons, hb, List.singleton_append, doPercentDecode_unreserved (by rwa [htoNat]), ih hvalid]
      rfl
  | escaped hescapes _ ih =>
      obtain ⟨hcp, hvalid⟩ := List.forall_mem_cons.1 hvalid
      rw [doPercentDecode_escapes hcp hescapes, ih hvalid]
      rfl

/-- An encoded text begins with an unreserved character or with an escape. -/
theorem head_partlyEncoded (h : PartlyEncoded (isUnreservedCharacter · = true) cps t) :
    t.head? ≠ some 0x5b ∧ (t = [] → cps = []) := by
  cases h with
  | nil => exact ⟨nofun, fun _ => rfl⟩
  | @plain cp cps t hleft _ =>
      obtain ⟨b, hb, htoNat⟩ := toNat_utf8Encode_low (isUnreservedCharacter_low hleft).1
      rw [hb]
      refine ⟨fun hhead => ?_, nofun⟩
      cases hhead
      rw [← htoNat] at hleft
      exact absurd hleft (by decide)
  | @escaped cp cps t escapes hescapes _ =>
      cases hunit : utf8Encode cp with
      | nil => exact absurd hunit (utf8Encode_ne_nil cp)
      | cons v vs =>
          rw [hunit] at hescapes
          cases hescapes with
          | cons hfirst _ =>
              obtain ⟨x, y, hi, lo, rfl, -⟩ := hfirst
              exact ⟨nofun, nofun⟩

/-- A host without brackets is what it is with escapes for some of its characters, if they are all of those that are not
unreserved or more. -/
theorem parseHostText_partlyEncoded (hvalid : ∀ cp ∈ cps, isValidCodepoint cp = true) (hpercent : 0x25 ∉ cps)
    (hbracket : cps.head? ≠ some 0x5b) (haccepted : parseHostText (cps.flatMap utf8Encode) false = .ok (host, kind))
    (h : PartlyEncoded (isUnreservedCharacter · = true) cps t) : parseHostText t false = .ok (host, kind) := by
  by_cases hnil : cps = []
  · subst hnil
    cases h
    exact haccepted
  have ht : t ≠ [] := fun h' => hnil ((head_partlyEncoded h).2 h')
  have htext : cps.flatMap utf8Encode ≠ [] ∧ (cps.flatMap utf8Encode).head? ≠ some 0x5b ∧
      0x25 ∉ cps.flatMap utf8Encode := by
    refine ⟨fun h' => ?_, fun h' => ?_, fun h' => ?_⟩
    · cases cps with
      | nil => exact hnil rfl
      | cons cp cps => exact utf8Encode_ne_nil cp (List.append_eq_nil_iff.1 h').1
    · cases cps with
      | nil => exact hnil rfl
      | cons cp cps =>
          rw [List.flatMap_cons, List.head?_append_of_ne_nil _ (utf8Encode_ne_nil cp)] at h'
          exact hbracket (congrArg some (eq_toNat_of_mem_utf8Encode (by decide) (List.mem_of_mem_head? h')))
    · obtain ⟨cp, hcp, hmem⟩ := List.mem_flatMap.1 h'
      rw [eq_toNat_of_mem_utf8Encode (by decide) hmem] at hcp
      exact hpercent hcp
  obtain ⟨hne, hhead, hplain⟩ := htext
  rw [← haccepted, parseHostText, parseHostText, if_neg ht, if_neg hne, if_neg (head_partlyEncoded h).1, if_neg hhead]
  rw [percentDecode_plain hplain, percentDecode_partlyEncoded hvalid h]
  rfl

/-- A text with a letter in an escape. -/
theorem parseHostText_partlyEncoded_letter :
    parseHostText (ascii "%61b") false = .ok (ascii "ab", .domain) := by
  have haccepted : parseHostText ([0x61, 0x62].flatMap utf8Encode) false = .ok (ascii "ab", .domain) := by decide +kernel
  have hescapes : List.Forall₂ IsEscape (utf8Encode 0x61) [ascii "%61"] :=
    .cons ⟨0x36, 0x31, 6, 1, rfl, rfl, rfl, rfl⟩ .nil
  exact parseHostText_partlyEncoded (by decide) (by decide) (by decide) haccepted
    (.escaped hescapes (.plain (by decide) .nil))

/-- The brackets of an address are not seen behind escapes. -/
theorem parseHostText_encodedBrackets :
    ¬∀ (cps : List Nat) (t host : Bytes) (kind : UrlRecord.HostKind), (∀ cp ∈ cps, isValidCodepoint cp = true) →
      0x25 ∉ cps → parseHostText (cps.flatMap utf8Encode) false = .ok (host, kind) →
        PartlyEncoded (fun _ => True) cps t → parseHostText t false = .ok (host, kind) := by
  intro hall
  have haccepted : parseHostText ([0x5b, 0x3a, 0x3a, 0x31, 0x5d].flatMap utf8Encode) false =
      .ok (ascii "[::1]", .ipv6) := by decide +kernel
  have hencoded : PartlyEncoded (fun _ => True) [0x5b, 0x3a, 0x3a, 0x31, 0x5d]
      ((utf8Encode 0x5b).flatMap percentByte ++ ((utf8Encode 0x3a).flatMap percentByte ++
        ((utf8Encode 0x3a).flatMap percentByte ++ ((utf8Encode 0x31).flatMap percentByte ++
          ((utf8Encode 0x5d).flatMap percentByte ++ []))))) :=
    .escaped (forall₂_percentByte _) (.escaped (forall₂_percentByte _) (.escaped (forall₂_percentByte _)
      (.escaped (forall₂_percentByte _) (.escaped (forall₂_percentByte _) .nil))))
  have h := hall _ _ _ _ (by decide) (by decide) haccepted hencoded
  revert h
  decide +kernel

end Rad.Url
