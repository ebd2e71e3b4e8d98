import Rad.Hpack.Lemmas.Request
import Rad.Hpack.Theorems

/-!
# The fields of an encoded request

A request with one `Host` header goes out as four pseudo headers followed by the fields of its other headers.
-/

namespace Rad.Hpack

open Http DynamicTable

/-! ## Cookies -/

theorem length_le_of_mem_splitOn {a : UInt8} {piece : Bytes} : ∀ {text : Bytes}, piece ∈ text.splitOn a →
    piece.length ≤ text.length
  | [], h => by simp_all
  | c :: text, h => by
      rw [List.splitOn_cons_eq_if_modifyHead] at h
      split at h
      · rcases List.mem_cons.mp h with rfl | h
        · simp
        · have := length_le_of_mem_splitOn h
          rw [List.length_cons]; omega
      · rcases hs : text.splitOn a with _ | ⟨p, ps⟩
        · rw [hs] at h; simp at h
        · rw [hs, List.modifyHead_cons] at h
          rcases List.mem_cons.mp h with rfl | h
          · have := @length_le_of_mem_splitOn a p text (by rw [hs]; simp)
            simpa using this
          · have := @length_le_of_mem_splitOn a piece text (by rw [hs]; simp [h])
            rw [List.length_cons]; omega

theorem length_trimSpaces_le (text : Bytes) : (trimSpaces text).length ≤ text.length := by
  have h1 := (List.dropWhile_sublist (l := text) (· == 0x20)).length_le
  have h2 := (List.dropWhile_sublist (l := (text.dropWhile (· == 0x20)).reverse) (· == 0x20)).length_le
  rw [List.length_reverse] at h2
  rw [trimSpaces, List.length_reverse]
  omega

theorem length_le_of_mem_cookiePieces {value piece : Bytes} (h : piece ∈ cookiePieces value) :
    piece.length ≤ value.length := by
  obtain ⟨hm, -⟩ := List.mem_filter.mp h
  obtain ⟨p, hp, rfl⟩ := List.mem_map.mp hm
  exact Nat.le_trans (length_trimSpaces_le p) (length_le_of_mem_splitOn hp)

theorem addressable_headerFields {method : Verb} {hdr f : Bytes × Bytes}
    (h : Addressable hdr.1 ∧ Addressable hdr.2) (hf : f ∈ headerFields method hdr) :
    Addressable f.1 ∧ Addressable f.2 := by
  unfold headerFields at hf
  split at hf
  · simp at hf
  · split at hf
    · obtain ⟨piece, hp, rfl⟩ := List.mem_map.mp hf
      refine ⟨(by decide : Addressable cookieField), ?_⟩
      have := length_le_of_mem_cookiePieces hp
      have := h.2
      unfold Addressable at *
      simp only
      omega
    · rw [List.mem_singleton] at hf
      rwa [hf]

/-! ## One `Host` header -/

/-- The list has exactly one `Host` header. -/
def OneHost (hdrs : Headers) : Prop := hdrs.countP (fun hdr => iequal hdr.1 hostField) = 1

instance (hdrs : Headers) : Decidable (OneHost hdrs) :=
  inferInstanceAs (Decidable (hdrs.countP (fun hdr => iequal hdr.1 hostField) = 1))

theorem OneHost.split {hdrs : Headers} (h : OneHost hdrs) :
    ∃ A host B, hdrs = A ++ host :: B ∧ iequal host.1 hostField = true ∧
      ∀ hdr ∈ A ++ B, iequal hdr.1 hostField = false := by
  obtain ⟨host, hmem, hhost⟩ := List.countP_pos_iff.mp (by rw [h]; omega)
  obtain ⟨A, B, rfl⟩ := List.append_of_mem hmem
  refine ⟨A, host, B, rfl, hhost, ?_⟩
  rw [OneHost, List.countP_append, List.countP_cons, if_pos hhost] at h
  have hA : A.countP (fun hdr => iequal hdr.1 hostField) = 0 := by omega
  have hB : B.countP (fun hdr => iequal hdr.1 hostField) = 0 := by omega
  rw [List.countP_eq_zero] at hA hB
  intro hdr hmem
  rcases List.mem_append.mp hmem with h | h
  · simpa using hA hdr h
  · simpa using hB hdr h

theorem find_authority_eq_none {hdrs : Headers} (h : ∀ hdr ∈ hdrs, isPseudo hdr = false) :
    hdrs.find (ascii ":authority") = none := by
  rw [Headers.find, List.findIdx?_eq_none_iff]
  intro hdr hmem
  have hnot := h hdr hmem
  rw [Bool.eq_false_iff, ne_eq, iequal_iff]
  intro heq
  have hlower : toLower (ascii ":authority") = 0x3a :: ascii "authority" := by decide
  rw [hlower] at heq
  obtain ⟨name, value⟩ := hdr
  cases name with
  | nil => simp at heq
  | cons c name =>
      have hc : tolowerCh c = 0x3a := by simpa [toLower] using congrArg List.head? heq
      have hcolon : ∀ n < 256, tolowerCh (UInt8.ofNat n) = 0x3a → UInt8.ofNat n = 0x3a := by decide +kernel
      have : c = 0x3a := by simpa using hcolon c.toNat c.toNat_lt (by simpa using hc)
      simp [isPseudo, this] at hnot

theorem find_host {A B : Headers} {host : Bytes × Bytes} (hhost : iequal host.1 hostField = true)
    (hother : ∀ hdr ∈ A ++ B, iequal hdr.1 hostField = false) :
    Headers.find (A ++ host :: B) hostField = some A.length := by
  have hA : A.findIdx? (fun header => iequal header.1 hostField) = none :=
    List.findIdx?_eq_none_iff.mpr fun hdr hmem => hother hdr (List.mem_append_left _ hmem)
  rw [Headers.find, List.findIdx?_append, hA]
  simp [List.findIdx?_cons, hhost]

/-- The pseudo headers of a request that is no `CONNECT`. -/
def pseudoFields (scheme : Bytes) (method : Verb) (path authority : Bytes) : Headers :=
  [(ascii ":method", verbToString method), (ascii ":scheme", scheme), (ascii ":path", path),
    (ascii ":authority", authority)]

theorem requestFields_eq {scheme host' path : Bytes} {method : Verb} (hm : method ≠ .connect) {A B : Headers}
    {host : Bytes × Bytes} (hpseudo : ∀ hdr ∈ A ++ host :: B, isPseudo hdr = false)
    (hhost : iequal host.1 hostField = true) (hother : ∀ hdr ∈ A ++ B, iequal hdr.1 hostField = false) :
    requestFields host' scheme method path (A ++ host :: B) =
      pseudoFields scheme method path host.2 ++ (A ++ B).flatMap (headerFields method) := by
  have hit : authorityIt (A ++ host :: B) = some A.length := by
    rw [authorityIt, find_authority_eq_none hpseudo, Option.none_or, find_host hhost hother]
  have herase : (A ++ host :: B).eraseIdx A.length = A ++ B := by
    rw [List.eraseIdx_append_of_length_le (Nat.le_refl _), Nat.sub_self]; rfl
  simp [requestFields, hit, hm, herase, pseudoFields]

theorem allAddressable_requestFields {scheme host' path : Bytes} {method : Verb} (hm : method ≠ .connect)
    {A B : Headers} {host : Bytes × Bytes} (hpseudo : ∀ hdr ∈ A ++ host :: B, isPseudo hdr = false)
    (hhost : iequal host.1 hostField = true) (hother : ∀ hdr ∈ A ++ B, iequal hdr.1 hostField = false)
    (haddr : AllAddressable (A ++ host :: B)) (hpath : Addressable path) (hscheme : Addressable scheme) :
    AllAddressable (requestFields host' scheme method path (A ++ host :: B)) := by
  rw [requestFields_eq hm hpseudo hhost hother]
  intro f hf
  rcases List.mem_append.mp hf with hf | hf
  · have hverb : ∀ v : Verb, Addressable (verbToString v) := by intro v; cases v <;> decide
    have hnames : ∀ name ∈ requestPseudo, Addressable name := by decide
    simp only [pseudoFields, List.mem_cons, List.not_mem_nil, or_false] at hf
    rcases hf with rfl | rfl | rfl | rfl
    · exact ⟨hnames _ (by simp [requestPseudo]), hverb method⟩
    · exact ⟨hnames _ (by simp [requestPseudo]), hscheme⟩
    · exact ⟨hnames _ (by simp [requestPseudo]), hpath⟩
    · exact ⟨hnames _ (by simp [requestPseudo]), (haddr host (by simp)).2⟩
  · obtain ⟨hdr, hdrmem, hfm⟩ := List.mem_flatMap.mp hf
    refine addressable_headerFields (haddr hdr ?_) hfm
    rcases List.mem_append.mp hdrmem with hmem | hmem <;> simp [hmem]

/-! ## What arrives -/

theorem length_sentValue (never : Bool) (name value : Bytes) : (sentValue never name value).length = value.length := by
  unfold sentValue
  split
  · rfl
  · rcases hs : staticEntry name value with _ | e
    · rfl
    · have hp := List.find?_some hs
      simp only [Bool.and_eq_true, iequal_iff] at hp
      simpa using congrArg List.length hp.2

theorem sentValue_of_caseExact {never : Bool} {name value : Bytes} (h : CaseExact (name, value)) :
    sentValue never name value = value := by
  cases never
  · exact (sentValue_eq_iff (name, value)).mpr h
  · rfl

theorem sentValue_method (never : Bool) (method : Verb) :
    sentValue never (ascii ":method") (verbToString method) = verbToString method := by
  refine sentValue_of_caseExact ?_
  cases method <;> decide

theorem sentValue_authority (never : Bool) (value : Bytes) : sentValue never (ascii ":authority") value = value := by
  refine sentValue_of_caseExact fun e he hn hv => ?_
  have hempty : ∀ e ∈ predefinedHttp2Headers, iequal e.1 (ascii ":authority") = true → e.2 = [] := by decide
  have he2 := hempty e he hn
  rw [he2, iequal_iff] at hv
  have : value = [] := by simpa [toLower] using hv.symm
  rw [he2, this]

theorem toLower_pseudo : toLower (ascii ":method") = ascii ":method" ∧ toLower (ascii ":scheme") = ascii ":scheme" ∧
    toLower (ascii ":path") = ascii ":path" ∧ toLower (ascii ":authority") = ascii ":authority" := by decide

theorem map_pseudoFields (never : Bool) (scheme : Bytes) (method : Verb) (path authority : Bytes) :
    (pseudoFields scheme method path authority).map (sentField never) =
      pseudoFields (sentValue never (ascii ":scheme") scheme) method (sentValue never (ascii ":path") path)
        authority := by
  obtain ⟨h1, h2, h3, h4⟩ := toLower_pseudo
  simp [pseudoFields, sentField, h1, h2, h3, h4, sentValue_method, sentValue_authority]

theorem stringToVerb_verbToString {method : Verb} (h : method ≠ .invalid) :
    stringToVerb (verbToString method) = method := by
  cases method <;> first | exact absurd rfl h | decide

theorem isPseudo_sentField (never : Bool) (hdr : Bytes × Bytes) : isPseudo (sentField never hdr) = isPseudo hdr := by
  obtain ⟨name, value⟩ := hdr
  cases name with
  | nil => rfl
  | cons c name =>
      have hcolon : ∀ n < 256, tolowerCh (UInt8.ofNat n) = 0x3a ↔ UInt8.ofNat n = 0x3a := by decide +kernel
      have hc : tolowerCh c = 0x3a ↔ c = 0x3a := by simpa using hcolon c.toNat c.toNat_lt
      rw [Bool.eq_iff_iff]
      simpa [isPseudo, sentField, toLower] using hc

theorem valueOf_pseudoFields (scheme : Bytes) (method : Verb) (path authority : Bytes) :
    valueOf (ascii ":method") (pseudoFields scheme method path authority) = some (verbToString method) ∧
    valueOf (ascii ":scheme") (pseudoFields scheme method path authority) = some scheme ∧
    valueOf (ascii ":path") (pseudoFields scheme method path authority) = some path ∧
    valueOf (ascii ":authority") (pseudoFields scheme method path authority) = some authority := by
  obtain ⟨n1, n2, n3, n4, n5, n6⟩ := pseudo_ne
  simp [valueOf, pseudoFields, n1, n2, n3, n4, n5.symm, n6.symm]

theorem pseudoAccepted_pseudoFields (scheme path authority : Bytes) {method : Verb} (hm : method ≠ .invalid) :
    PseudoAccepted [] (pseudoFields scheme method path authority) := by
  obtain ⟨n1, n2, n3, n4, n5, n6⟩ := pseudo_ne
  rw [pseudoAccepted_iff]
  simp [pseudoFields, requestPseudo, n1, n2, n3, n3.symm, n4, n5.symm, n6.symm, n1.symm, n2.symm,
    stringToVerb_verbToString hm, hm]

theorem validate_pseudoFields {scheme path authority : Bytes} {method : Verb} (hm : method ≠ .invalid)
    (hc : method ≠ .connect) (hpath : path ≠ []) :
    validateRequestPseudoHeaders (pseudoState (pseudoFields scheme method path authority)) = none := by
  obtain ⟨h1, h2, h3, h4⟩ := valueOf_pseudoFields scheme method path authority
  rw [validate_iff]
  refine ⟨⟨_, h1, ?_⟩, ?_⟩
  · rw [stringToVerb_verbToString hm, if_neg hc]
    simp [h2, h3]
  · simp [h3, hpath]

theorem state_pseudoFields {scheme path authority : Bytes} {method : Verb} (hm : method ≠ .invalid)
    (hc : method ≠ .connect) :
    (pseudoState (pseudoFields scheme method path authority)).req =
        { method, target := path, version := .v1_1, headers := [(ascii ":scheme", scheme)] } ∧
      (regularState (pseudoFields scheme method path authority)).req =
        { method, target := path, version := .v1_1
          headers := [(ascii ":scheme", scheme), (hostField, authority)] } := by
  obtain ⟨h1, h2, h3, h4⟩ := valueOf_pseudoFields scheme method path authority
  have hreq : (pseudoState (pseudoFields scheme method path authority)).req =
      { method, target := path, version := .v1_1, headers := [(ascii ":scheme", scheme)] } := by
    simp [pseudoState, h1, h2, h3, stringToVerb_verbToString hm]
  have hauth : (pseudoState (pseudoFields scheme method path authority)).authority = authority := by
    simp [pseudoState, h4]
  have hinsert : Headers.insert [(ascii ":scheme", scheme)] hostField authority =
      [(ascii ":scheme", scheme), (hostField, authority)] := by
    have hne : iequal (ascii ":scheme") hostField = false := by decide
    simp [Headers.insert, Headers.find, List.findIdx?_cons, hne]
  refine ⟨hreq, ?_⟩
  rw [regularState]
  simp only [hreq, hauth, if_neg hc, hinsert]

/-! ## The fields behind the pseudo headers -/

/-- The fields that arrive for the headers besides `Host`. -/
def otherFields (method : Verb) (never : Bool) (hdrs : Headers) : Headers :=
  (hdrs.flatMap (headerFields method)).map (sentField never)

/-- A header is sent as at least one field behind the pseudo headers. -/
def SendsField (hdr : Bytes × Bytes) : Prop :=
  iequal hdr.1 hostField = false ∧ (iequal hdr.1 cookieField = true → cookiePieces hdr.2 ≠ [])

instance (hdr : Bytes × Bytes) : Decidable (SendsField hdr) :=
  inferInstanceAs
    (Decidable (iequal hdr.1 hostField = false ∧ (iequal hdr.1 cookieField = true → cookiePieces hdr.2 ≠ [])))

theorem headerFields_of_ne_connect {method : Verb} (hm : method ≠ .connect) (hdr : Bytes × Bytes) :
    headerFields method hdr =
      if iequal hdr.1 cookieField then (cookiePieces hdr.2).map fun value => (cookieField, value) else [hdr] := by
  rw [headerFields, if_neg (by simp [hm])]

theorem otherFields_ne_nil_iff {method : Verb} (hm : method ≠ .connect) (never : Bool) {hdrs : Headers}
    (hother : ∀ hdr ∈ hdrs, iequal hdr.1 hostField = false) :
    otherFields method never hdrs ≠ [] ↔ ∃ hdr ∈ hdrs, SendsField hdr := by
  rw [otherFields, ne_eq, List.map_eq_nil_iff, List.flatMap_eq_nil_iff]
  push Not
  refine exists_congr fun hdr => and_congr_right fun hmem => ?_
  rw [headerFields_of_ne_connect hm, SendsField]
  by_cases hc : iequal hdr.1 cookieField = true <;> simp [hc, hother hdr hmem]

theorem cookieField_regular : cookieField ≠ [] ∧ (cookieField.head? == some 0x3a) = false := by decide

theorem otherFields_isPseudo {method : Verb} (hm : method ≠ .connect) (never : Bool) {hdrs : Headers}
    (hpseudo : ∀ hdr ∈ hdrs, isPseudo hdr = false) : ∀ f ∈ otherFields method never hdrs, isPseudo f = false := by
  rw [otherFields, List.forall_mem_map]
  intro f hf
  obtain ⟨hdr, hmem, hfm⟩ := List.mem_flatMap.mp hf
  rw [isPseudo_sentField]
  rw [headerFields_of_ne_connect hm] at hfm
  split at hfm
  · obtain ⟨piece, -, rfl⟩ := List.mem_map.mp hfm
    exact cookieField_regular.2
  · rw [List.mem_singleton] at hfm
    exact hfm ▸ hpseudo hdr hmem

theorem sentField_name_ne_nil (never : Bool) (hdr : Bytes × Bytes) : (sentField never hdr).1 ≠ [] ↔ hdr.1 ≠ [] := by
  simp [sentField, toLower]

theorem otherFields_regular_iff {method : Verb} (hm : method ≠ .connect) (never : Bool) {hdrs : Headers}
    (hpseudo : ∀ hdr ∈ hdrs, isPseudo hdr = false) :
    (∀ f ∈ otherFields method never hdrs, IsRegular f) ↔ ∀ hdr ∈ hdrs, hdr.1 ≠ [] := by
  rw [otherFields, List.forall_mem_map]
  simp only [List.mem_flatMap, forall_exists_index, and_imp]
  rw [forall_comm]
  refine forall_congr' fun hdr => ?_
  rw [forall_comm]
  refine forall_congr' fun hmem => ?_
  rw [headerFields_of_ne_connect hm]
  by_cases hc : iequal hdr.1 cookieField = true
  · rw [if_pos hc]
    refine iff_of_true ?_ ?_
    · intro f hf
      obtain ⟨piece, -, rfl⟩ := List.mem_map.mp hf
      exact ⟨(sentField_name_ne_nil never _).mpr cookieField_regular.1,
        by rw [isPseudo_sentField]; exact cookieField_regular.2⟩
    · intro hnil
      rw [hnil, iequal_iff] at hc
      exact cookieField_regular.1 (List.length_eq_zero_iff.mp (by simpa using (congrArg List.length hc).symm))
  · rw [if_neg hc]
    simp only [List.mem_singleton, forall_eq, IsRegular, isPseudo_sentField, hpseudo hdr hmem, and_true]
    exact sentField_name_ne_nil never hdr

/-- A decoder with an equal table goes on behind the pseudo headers with the other fields. -/
theorem decodeRequest_encodeRequest {e : HpackEncoder} {d : HpackDecoder} (h : Synced e.dynamicTable d.dynamicTable)
    {flags : Flags} (hflags : flags.Consistent) {method : Verb} (hm : method ≠ .invalid) (hc : method ≠ .connect)
    {target : Bytes} {A B : Headers} {host : Bytes × Bytes}
    (hpseudo : ∀ hdr ∈ A ++ host :: B, isPseudo hdr = false) (hhost : iequal host.1 hostField = true)
    (hother : ∀ hdr ∈ A ++ B, iequal hdr.1 hostField = false) (haddr : AllAddressable (A ++ host :: B))
    (htarget : Addressable target) (hscheme : Addressable e.scheme) :
    let ps := pseudoFields (sentValue flags.neverIndexed (ascii ":scheme") e.scheme) method
      (sentValue flags.neverIndexed (ascii ":path") target) host.2
    let r := applyFields (onRequestField d.scheme) (pseudoState ps) (otherFields method flags.neverIndexed (A ++ B))
    (d.decodeRequest (e.encodeRequest method target (A ++ host :: B) flags).1).1 = r.1.req ∧
      (d.decodeRequest (e.encodeRequest method target (A ++ host :: B) flags).1).2.1 = r.2 := by
  intro ps r
  have hacc : PseudoAccepted [] ps := pseudoAccepted_pseudoFields _ _ _ hm
  have hpsall : ∀ f ∈ ps, isPseudo f = true := fun f hf =>
    requestPseudo_isPseudo (((pseudoAccepted_iff ps []).mp hacc).1 f hf)
  obtain ⟨td', heq, -⟩ := decodeLoop_encodeHeaders_synced (onRequestField d.scheme) hflags h
    (allAddressable_requestFields hc hpseudo hhost hother haddr htarget hscheme) {}
  have hrun := (applyFields_pseudo d.scheme (otherFields method flags.neverIndexed (A ++ B)) [] hpsall).1 hacc
  rw [pseudoState_nil, List.nil_append] at hrun
  have hfields : (requestFields e.host e.scheme method target (A ++ host :: B)).map (sentField flags.neverIndexed) =
      ps ++ otherFields method flags.neverIndexed (A ++ B) := by
    rw [requestFields_eq hc hpseudo hhost hother, List.map_append, map_pseudoFields]
    rfl
  rw [hfields, hrun] at heq
  simp only [HpackDecoder.decodeRequest, HpackEncoder.encodeRequest, HpackEncoder.encode, heq]
  exact ⟨rfl, rfl⟩

/-! ## Regular fields keep the host -/

theorem mem_insert {hdrs : Headers} {f : Bytes × Bytes} (h : f ∈ hdrs) (name value : Bytes) :
    f ∈ hdrs.insert name value := by
  unfold Headers.insert
  split
  · rename_i it hf
    have hlt := (List.findIdx?_eq_some_iff_getElem.mp hf).1
    exact (List.mem_insertIdx (by omega)).mpr (Or.inr h)
  · exact (List.mem_insertIdx (Nat.le_refl _)).mpr (Or.inr h)

theorem host_mem_insertRegular {hdrs : Headers} {host : Bytes} (h : (hostField, host) ∈ hdrs) (name value : Bytes) :
    (hostField, host) ∈ insertRegular hdrs name value := by
  unfold insertRegular
  split
  · rename_i hname
    split
    · rename_i it hf
      -- the header that is changed is a cookie
      obtain ⟨hlt, hp, -⟩ := List.findIdx?_eq_some_iff_getElem.mp hf
      have hne : iequal hostField (ascii "cookie") = false := by decide
      obtain ⟨j, hj, hget⟩ := List.getElem_of_mem h
      refine List.mem_of_getElem? (i := j) ?_
      rw [List.getElem?_modify, List.getElem?_eq_getElem hj, hget]
      by_cases heq : it = j
      · subst heq
        rw [hget, hname] at hp
        rw [hne] at hp
        cases hp
      · simp [heq]
    · exact mem_insert h name value
  · exact mem_insert h name value

theorem host_mem_foldl {host : Bytes} : ∀ {fields hdrs : Headers}, (hostField, host) ∈ hdrs →
    (hostField, host) ∈ fields.foldl (fun hdrs f => insertRegular hdrs f.1 f.2) hdrs
  | [], _, h => h
  | f :: fields, _, h => @host_mem_foldl _ fields _ (host_mem_insertRegular h f.1 f.2)

end Rad.Hpack
