import Rad.Url.Lemmas.Invariant

/-!
# The states in front of the authority keep the invariant
-/

namespace Rad.Url

variable {base : Option UrlRecord} {input : Bytes} {v : View} {url : UrlRecord} {ctx : UrlParseContext}
  {before unit rest : Bytes} {turn : Turn}

/-! ## Schemes -/

theorem isSchemeCharacter_lower {c : Nat} (h : (isAsciiAlphanumeric c || c == 0x2b || c == 0x2d || c == 0x2e) = true) :
    c ≠ 0 ∧ isSchemeCharacter (getAsciiLowercase c) = true := by
  have hall : ∀ c < 0x80, (isAsciiAlphanumeric c || c == 0x2b || c == 0x2d || c == 0x2e) = true →
      c ≠ 0 ∧ isSchemeCharacter (getAsciiLowercase c) = true := by decide
  refine hall c ?_ h
  simp only [isAsciiAlphanumeric, isAsciiAlpha, isAsciiLowercaseAlpha, isAsciiUppercaseAlpha, isAsciiNumeric,
    Bool.or_eq_true, Bool.and_eq_true, decide_eq_true_eq, beq_iff_eq] at h
  omega

theorem isSchemeHead_lower {c : Nat} (h : isAsciiAlpha c = true) : c ≠ 0 ∧ isSchemeHead (getAsciiLowercase c) = true := by
  have hall : ∀ c < 0x80, isAsciiAlpha c = true → c ≠ 0 ∧ isSchemeHead (getAsciiLowercase c) = true := by decide
  refine hall c ?_ h
  simp only [isAsciiAlpha, isAsciiLowercaseAlpha, isAsciiUppercaseAlpha, Bool.or_eq_true, Bool.and_eq_true,
    decide_eq_true_eq] at h
  omega

theorem isSchemeCharacter_head {b : UInt8} (h : isSchemeHead b = true) : isSchemeCharacter b = true := by
  rw [isSchemeCharacter, h]
  rfl

theorem IsScheme.singleton {b : UInt8} (h : isSchemeHead b = true) : IsScheme [b] :=
  ⟨h, fun b' hb' => by
    rw [List.mem_singleton] at hb'
    rw [hb']
    exact isSchemeCharacter_head h⟩

theorem IsScheme.ne_nil {scheme : Bytes} (h : IsScheme scheme) : scheme ≠ [] := by
  rintro rfl
  cases h.head

theorem IsScheme.concat {scheme : Bytes} {b : UInt8} (h : IsScheme scheme) (hb : isSchemeCharacter b = true) :
    IsScheme (scheme ++ [b]) := by
  refine ⟨?_, List.forall_mem_append.2 ⟨h.characters, by rwa [List.forall_mem_singleton]⟩⟩
  rw [List.head?_append_of_ne_nil _ h.ne_nil]
  exact h.head

theorem isScheme_file : IsScheme (ascii "file") := ⟨by decide, by decide +kernel⟩

/-- Nothing but the scheme of a URL that is not special. -/
theorem front_blank {scheme : Bytes} (h : IsScheme scheme) (hspecial : isSpecialScheme scheme = false) :
    (blank scheme).Front where
  scheme := h
  special := rfl
  userinfo := nofun
  host := nofun
  noHost _ := ⟨hspecial, rfl⟩
  bare _ := ⟨rfl, rfl, rfl⟩
  file _ := ⟨rfl, rfl, rfl⟩
  port := nofun

theorem inAuthority_blank {scheme : Bytes} (h : IsScheme scheme) (hfile : scheme ≠ ascii "file") :
    InAuthority (blank scheme) {} where
  record := ⟨scheme, [], none, false, false, rfl⟩
  scheme := h
  notFile := hfile
  userinfo := nofun
  noCredentials _ := ⟨rfl, rfl⟩
  path := rfl

theorem ne_file_of_not_special {scheme : Bytes} (h : isSpecialScheme scheme = false) : scheme ≠ ascii "file" := by
  rintro rfl
  rw [isSpecialScheme_file] at h
  cases h

/-! ## The states -/

theorem schemeStartState_leads (h : Inv base input .schemeStart url ctx before (unit ++ rest)) (hv : v.Shows unit rest)
    (hrun : schemeStartState v url ctx = .ok turn) : turn.Leads (Inv base input) (Final base input) before unit rest v.isEof := by
  obtain ⟨rfl, rfl, rfl⟩ := h
  rw [schemeStartState] at hrun
  split at hrun
  · rename_i halpha
    cases hrun
    obtain ⟨hne, hhead⟩ := isSchemeHead_lower halpha
    exact hv.keep hne ⟨rfl, [getAsciiLowercase v.c], rfl, .singleton hhead⟩
  · cases hrun
    exact ⟨rfl, rfl, rfl⟩

theorem schemeState_leads (h : Inv base input .scheme url ctx before (unit ++ rest)) (hv : v.Shows unit rest)
    (hrun : schemeState v base url ctx = .ok turn) : turn.Leads (Inv base input) (Final base input) before unit rest v.isEof := by
  obtain ⟨rfl, buffer, rfl, hbuffer⟩ := h
  rw [schemeState] at hrun
  split at hrun
  · rename_i hc
    cases hrun
    obtain ⟨hne, hcharacter⟩ := isSchemeCharacter_lower hc
    exact hv.keep hne ⟨rfl, buffer ++ [getAsciiLowercase v.c], rfl, hbuffer.concat hcharacter⟩
  split at hrun
  · rename_i hcolon
    have hne : v.c ≠ 0 := by rw [hcolon]; decide
    simp only [Bool.false_or] at hrun
    split at hrun
    · rename_i hfile
      cases hrun
      rw [hfile]
      exact hv.keep hne ⟨rfl, .inr rfl⟩
    rename_i hfile
    split at hrun
    · rename_i hbase
      cases hrun
      cases base with
      | none => cases hbase
      | some b =>
          simp only [Option.any_some, UrlRecord.isSpecial, Bool.and_eq_true, beq_iff_eq] at hbase
          obtain ⟨hspecial, rfl⟩ := hbase
          exact hv.keep hne ⟨rfl, b, rfl, rfl, hbuffer, hspecial, hfile⟩
    split at hrun
    · rename_i hspecial
      cases hrun
      exact hv.keep hne ⟨rfl, buffer, rfl, hbuffer, hfile⟩
    rename_i hspecial
    simp only [UrlRecord.isSpecial, Bool.not_eq_true] at hspecial
    split at hrun
    · rename_i hslash
      cases hrun
      exact hv.increase hslash fun tail _ => ⟨rfl, buffer, rfl, hbuffer, hspecial⟩
    · rename_i hslash
      cases hrun
      refine hv.keep hne ⟨rfl, buffer, [], ?_, hbuffer, hspecial, ⟨nofun, nofun⟩, fun _ => ?_, nofun⟩
      · simp only [hspecial, blank, credentialsOnly]
      · rwa [hv.remaining] at hslash
  · cases hrun
    exact ⟨rfl, rfl, rfl⟩

theorem noSchemeState_leads (hbase : ∀ b, base = some b → b.WellFormed) (hinput : before ++ (unit ++ rest) = input)
    (h : Inv base input .noScheme url ctx before (unit ++ rest)) (hv : v.Shows unit rest)
    (hrun : noSchemeState v base url ctx = .ok turn) : turn.Leads (Inv base input) (Final base input) before unit rest v.isEof := by
  obtain ⟨rfl, rfl, rfl⟩ := h
  cases base with
  | none => cases hrun
  | some b =>
      have hwell := hbase b rfl
      simp only [noSchemeState] at hrun
      split at hrun
      · cases hrun
      rename_i hopaquePath
      split at hrun
      · rename_i hfragment
        cases hrun
        rw [Bool.and_eq_true, decide_eq_true_eq] at hfragment
        obtain ⟨hopaquePath, hc⟩ := hfragment
        have hunit : unit = [0x23] := hv.unit_eq (b := 0x23) hc (by decide) (by decide)
        obtain ⟨hhost, hspecial, hempty, hpath⟩ := hwell.opaqueText hopaquePath
        have hbare := hwell.bare (hwell.noHost hhost).2
        refine hv.keep (by rw [hc]; decide) ⟨?_, rfl, fun _ hnot => absurd ⟨⟨b, rfl, hopaquePath⟩, ?_⟩ hnot⟩
        · exact
            { scheme := hwell.scheme
              special := hwell.special
              userinfo := nofun
              host := fun h => Bool.noConfusion (hhost.symm.trans h)
              noHost := fun _ => ⟨hspecial, rfl⟩
              bare := fun _ => ⟨hbare.username, hbare.password, rfl⟩
              file := fun h => absurd h (ne_file_of_not_special hspecial)
              port := nofun
              query := hwell.query
              fragment := nofun
              opaqueText := fun _ => ⟨rfl, hhost, hspecial, hpath⟩
              segments := fun h => Bool.noConfusion (hopaquePath.symm.trans h)
              needed := fun h => Bool.noConfusion (hopaquePath.symm.trans h)
              emptyFirst := hempty }
        · rw [← hinput, hunit]
          rfl
      rename_i hnotFragment
      have hlist : b.flags.opaquePath = false := by
        by_contra hne
        rw [Bool.not_eq_false] at hne
        simp only [UrlRecord.isOpaquePath, hne, Bool.true_and, decide_eq_true_eq, not_not] at hopaquePath hnotFragment
        exact hnotFragment hopaquePath
      split at hrun
      · rename_i hfile
        cases hrun
        exact ⟨rfl, b, ⟨rfl, hlist, hfile⟩, .inl blank_nil.symm⟩
      · cases hrun
        exact ⟨rfl, .inl blank_nil.symm⟩

theorem specialRelativeOrAuthorityState_leads (hbase : ∀ b, base = some b → b.WellFormed)
    (h : Inv base input .specialRelativeOrAuthority url ctx before (unit ++ rest)) (hv : v.Shows unit rest)
    (hrun : specialRelativeOrAuthorityState v url ctx = .ok turn) :
    turn.Leads (Inv base input) (Final base input) before unit rest v.isEof := by
  obtain ⟨rfl, b, hb, rfl, hscheme, hspecial, hfile⟩ := h
  rw [specialRelativeOrAuthorityState] at hrun
  split at hrun
  · rename_i hslash
    cases hrun
    exact hv.increase hslash.2 fun tail _ => ⟨rfl, b.scheme, rfl, hscheme, hfile⟩
  · cases hrun
    have hlist : b.flags.opaquePath = false := by
      by_contra hopaquePath
      rw [Bool.not_eq_false] at hopaquePath
      rw [((hbase b hb).opaqueText hopaquePath).2.1] at hspecial
      cases hspecial
    exact ⟨rfl, b, ⟨hb, hlist, hfile⟩, .inr rfl⟩

theorem pathOrAuthorityState_leads (h : Inv base input .pathOrAuthority url ctx before (unit ++ rest))
    (hv : v.Shows unit rest) (hrun : pathOrAuthorityState v url ctx = .ok turn) :
    turn.Leads (Inv base input) (Final base input) before unit rest v.isEof := by
  obtain ⟨rfl, scheme, rfl, hscheme, hspecial⟩ := h
  rw [pathOrAuthorityState] at hrun
  split at hrun
  · rename_i hslash
    cases hrun
    exact hv.keep (by rw [hslash]; decide)
      ⟨inAuthority_blank hscheme (ne_file_of_not_special hspecial), List.nil_suffix, nofun⟩
  · cases hrun
    exact ⟨{ toFront := front_blank hscheme hspecial, query := nofun, fragment := nofun, noPath := rfl, list := rfl,
             emptyFirst := rfl, isPath := .nil _ }, nofun⟩

theorem specialAuthoritySlashesState_leads (h : Inv base input .specialAuthoritySlashes url ctx before (unit ++ rest))
    (hv : v.Shows unit rest) (hrun : specialAuthoritySlashesState v url ctx = .ok turn) :
    turn.Leads (Inv base input) (Final base input) before unit rest v.isEof := by
  rw [specialAuthoritySlashesState] at hrun
  split at hrun
  · rename_i hslash
    cases hrun
    exact hv.increase hslash.2 fun _ _ => h
  · cases hrun
    exact h

theorem specialAuthorityIgnoreSlashesState_leads
    (h : Inv base input .specialAuthorityIgnoreSlashes url ctx before (unit ++ rest)) (hv : v.Shows unit rest)
    (hrun : specialAuthorityIgnoreSlashesState v url ctx = .ok turn) :
    turn.Leads (Inv base input) (Final base input) before unit rest v.isEof := by
  rw [specialAuthorityIgnoreSlashesState] at hrun
  split at hrun
  · cases hrun
    obtain ⟨rfl, scheme, rfl, hscheme, hfile⟩ := h
    exact ⟨inAuthority_blank hscheme hfile, List.nil_suffix, nofun⟩
  · rename_i hslash
    cases hrun
    refine hv.keep (fun hzero => hslash ?_) h
    rw [hzero]
    decide

end Rad.Url
