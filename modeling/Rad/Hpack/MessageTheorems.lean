import Rad.Hpack.Lemmas.RequestFields
import Mathlib.Data.List.TakeWhile

/-!
# HPACK: requests and responses

Which blocks the decoder accepts as a request or as a response, and what becomes of a request on its way.
-/

namespace Rad.Hpack

open Http DynamicTable

/-! ## Accepted requests -/

/-- How often a name stands in the fields. -/
def countName (name : Bytes) (fields : Headers) : Nat := (fields.map Prod.fst).count name

/-- The pseudo headers that a request has to have, and has to have only. -/
structure ValidRequestFields (fields : Headers) : Prop where
  method : countName (ascii ":method") fields = 1
  verb : ∀ f ∈ fields, f.1 = ascii ":method" → stringToVerb f.2 ≠ .invalid
  connect : (∃ f ∈ fields, f.1 = ascii ":method" ∧ stringToVerb f.2 = .connect) →
    countName (ascii ":authority") fields = 1 ∧ countName (ascii ":path") fields = 0 ∧
      countName (ascii ":scheme") fields = 0
  other : (¬ ∃ f ∈ fields, f.1 = ascii ":method" ∧ stringToVerb f.2 = .connect) →
    countName (ascii ":path") fields = 1 ∧ countName (ascii ":scheme") fields = 1
  known : ∀ f ∈ fields, isPseudo f = true → f.1 ∈ requestPseudo
  once : ∀ name ∈ requestPseudo, countName name fields ≤ 1
  order : ∀ f ∈ fields.dropWhile isPseudo, isPseudo f = false

theorem countName_pos {name : Bytes} {fields : Headers} :
    0 < countName name fields ↔ (valueOf name fields).isSome = true := by
  rw [countName, List.count_pos_iff, Option.isSome_iff_ne_none, ne_eq, valueOf_eq_none, not_not]

theorem countName_eq_zero {name : Bytes} {fields : Headers} :
    countName name fields = 0 ↔ valueOf name fields = none := by
  rw [countName, List.count_eq_zero, valueOf_eq_none]

theorem countName_append {name : Bytes} (hname : name ∈ requestPseudo) (ps : Headers) {rs : Headers}
    (hrs : ∀ f ∈ rs, IsRegular f) : countName name (ps ++ rs) = countName name ps := by
  have hzero : (rs.map Prod.fst).count name = 0 := by
    rw [List.count_eq_zero]
    intro hmem
    obtain ⟨f, hf, rfl⟩ := List.mem_map.mp hmem
    have := (hrs f hf).2
    rw [requestPseudo_isPseudo hname] at this
    cases this
  rw [countName, List.map_append, List.count_append, hzero]
  rfl

theorem PseudoComplete.valid {ps rs : Headers} (h : PseudoComplete ps) (hacc : PseudoAccepted [] ps)
    (hrs : ∀ f ∈ rs, IsRegular f) : ValidRequestFields (ps ++ rs) := by
  obtain ⟨hknown, hnodup, -, hverb⟩ := (pseudoAccepted_iff ps []).mp hacc
  have hm : ascii ":method" ∈ requestPseudo := by simp [requestPseudo]
  have hp : ascii ":path" ∈ requestPseudo := by simp [requestPseudo]
  have ha : ascii ":authority" ∈ requestPseudo := by simp [requestPseudo]
  have hs : ascii ":scheme" ∈ requestPseudo := by simp [requestPseudo]
  have honce : ∀ name ∈ requestPseudo, countName name (ps ++ rs) ≤ 1 := by
    intro name hn
    rw [countName_append hn ps hrs]
    exact List.nodup_iff_count_le_one.mp hnodup name
  have hone : ∀ {name}, name ∈ requestPseudo → (valueOf name ps).isSome = true → countName name (ps ++ rs) = 1 := by
    intro name hn hv
    have h1 := honce name hn
    rw [countName_append hn ps hrs] at h1 ⊢
    have h0 := countName_pos.mpr hv
    omega
  have hmethod : ∀ f ∈ ps ++ rs, f.1 = ascii ":method" → f ∈ ps := by
    intro f hf hname
    refine (List.mem_append.mp hf).resolve_right fun hr => ?_
    have := (hrs f hr).2
    rw [requestPseudo_isPseudo (hname ▸ hm)] at this
    cases this
  obtain ⟨m, hmval, hrest⟩ := h
  -- the method that is found is the only one
  have huniq : ∀ f ∈ ps, f.1 = ascii ":method" → f.2 = m := by
    intro f hf hname
    have := List.inj_on_of_nodup_map hnodup hf (valueOf_mem hmval) hname
    rw [this]
  refine ⟨hone hm (by simp [hmval]), fun f hf hname => hverb f (hmethod f hf hname) hname, ?_, ?_, ?_, honce, ?_⟩
  · rintro ⟨f, hf, hname, hc⟩
    rw [huniq f (hmethod f hf hname) hname] at hc
    rw [if_pos hc] at hrest
    refine ⟨hone ha hrest.1, ?_, ?_⟩
    · rw [countName_append hp ps hrs, countName_eq_zero]; exact hrest.2.1
    · rw [countName_append hs ps hrs, countName_eq_zero]; exact hrest.2.2
  · intro hnot
    have hc : ¬ stringToVerb m = .connect := fun hc =>
      hnot ⟨_, List.mem_append_left _ (valueOf_mem hmval), rfl, hc⟩
    rw [if_neg hc] at hrest
    exact ⟨hone hp hrest.1, hone hs hrest.2⟩
  · intro f hf hps
    rcases List.mem_append.mp hf with hf | hf
    · exact hknown f hf
    · have := (hrs f hf).2
      rw [hps] at this
      cases this
  · intro f hf
    have hall : ∀ g ∈ ps, isPseudo g = true := fun g hg => requestPseudo_isPseudo (hknown g hg)
    rw [List.dropWhile_append_of_pos hall] at hf
    exact (hrs f ((List.dropWhile_sublist _).subset hf)).2

theorem ValidRequestFields.complete {fields : Headers} (h : ValidRequestFields fields) : PseudoComplete fields := by
  obtain ⟨m, hm⟩ := Option.isSome_iff_exists.mp (countName_pos.mp (by rw [h.method]; omega))
  refine ⟨m, hm, ?_⟩
  by_cases hc : stringToVerb m = .connect
  · rw [if_pos hc]
    obtain ⟨ha, hp, hs⟩ := h.connect ⟨_, valueOf_mem hm, rfl, hc⟩
    exact ⟨countName_pos.mp (by omega), countName_eq_zero.mp hp, countName_eq_zero.mp hs⟩
  · rw [if_neg hc]
    have hnot : ¬ ∃ f ∈ fields, f.1 = ascii ":method" ∧ stringToVerb f.2 = .connect := by
      rintro ⟨f, hf, hname, hcon⟩
      -- two methods would be counted twice
      have hone := h.method
      obtain ⟨a, b, hab⟩ := List.append_of_mem hf
      have hfm : f = (ascii ":method", m) := by
        by_contra hne
        have hmem := valueOf_mem hm
        rw [hab] at hmem hone
        rw [List.mem_append, List.mem_cons] at hmem
        have hpos : 0 < countName (ascii ":method") a ∨ 0 < countName (ascii ":method") b := by
          rcases hmem with h1 | h1 | h1
          · exact Or.inl (List.count_pos_iff.mpr (List.mem_map_of_mem h1))
          · exact absurd h1.symm hne
          · exact Or.inr (List.count_pos_iff.mpr (List.mem_map_of_mem h1))
        simp only [countName, List.map_append, List.map_cons, List.count_append, hname, List.count_cons_self] at hone hpos
        omega
      rw [hfm] at hcon
      exact hc hcon
    obtain ⟨hp, hs⟩ := h.other hnot
    exact ⟨countName_pos.mp (by omega), countName_pos.mp (by omega)⟩

theorem applyFields_request_iff (scheme : Bytes) (fields : Headers) :
    (applyFields (onRequestField scheme) {} fields).2 = none ↔
      PseudoAccepted [] (fields.takeWhile isPseudo) ∧
        (fields.dropWhile isPseudo = [] ∨
          (validateRequestPseudoHeaders (pseudoState (fields.takeWhile isPseudo)) = none ∧
            ∀ f ∈ fields.dropWhile isPseudo, IsRegular f)) := by
  have hps : ∀ f ∈ fields.takeWhile isPseudo, isPseudo f = true := fun f hf => List.mem_takeWhile_imp hf
  obtain ⟨hok, hbad⟩ := applyFields_pseudo scheme (fields.dropWhile isPseudo) [] hps
  rw [List.takeWhile_append_dropWhile, pseudoState_nil] at hok hbad
  by_cases hacc : PseudoAccepted [] (fields.takeWhile isPseudo)
  · rw [hok hacc, List.nil_append]
    simp only [hacc, true_and]
    rcases hd : fields.dropWhile isPseudo with _ | ⟨r, rs⟩
    · simp [applyFields]
    · have hr : isPseudo r = false := by
        have := List.head?_dropWhile_not isPseudo fields
        rw [hd] at this
        simpa using this
      obtain ⟨h1, h2⟩ := applyFields_first scheme (fields.takeWhile isPseudo) rs hr
      constructor
      · intro h
        refine Or.inr ?_
        by_contra hnot
        exact h2 hnot h
      · intro h
        rw [h1 (h.resolve_left (by simp))]
  · exact iff_of_false (hbad hacc) fun h => hacc h.1

/-! ## Which blocks are checked -/

/-- A block that decodes to nothing but pseudo headers, each of them acceptable, which are not complete. -/
structure UncheckedRequest (fields : Headers) (error : Option DecodeError) : Prop where
  decoded : error = none
  known : ∀ f ∈ fields, f.1 ∈ requestPseudo
  once : (fields.map Prod.fst).Nodup
  verb : ∀ f ∈ fields, f.1 = ascii ":method" → stringToVerb f.2 ≠ .invalid
  incomplete : ¬ PseudoComplete fields

theorem decodeRequest_error (d : HpackDecoder) (input : Bytes) :
    (d.decodeRequest input).2.1 = (applyFields (onRequestField d.scheme) {} (decodeFields d.dynamicTable input).1).2.or
      (decodeFields d.dynamicTable input).2.1 :=
  (decodeLoop_eq_applyFields (onRequestField d.scheme) d.dynamicTable input {}).2

theorem decodeRequest_enforced_iff (d : HpackDecoder) (input : Bytes) :
    ((d.decodeRequest input).2.1 = none → ValidRequestFields (decodeFields d.dynamicTable input).1) ↔
      ¬ UncheckedRequest (decodeFields d.dynamicTable input).1 (decodeFields d.dynamicTable input).2.1 := by
  rw [decodeRequest_error]
  generalize (decodeFields d.dynamicTable input).1 = fields
  generalize (decodeFields d.dynamicTable input).2.1 = error
  have hsplit : fields.takeWhile isPseudo ++ fields.dropWhile isPseudo = fields := List.takeWhile_append_dropWhile
  rw [Option.or_eq_none_iff, applyFields_request_iff]
  constructor
  · rintro h ⟨hdec, hknown, honce, hverb, hinc⟩
    have hall : ∀ f ∈ fields, isPseudo f = true := fun f hf => requestPseudo_isPseudo (hknown f hf)
    have hd : fields.dropWhile isPseudo = [] := List.dropWhile_eq_nil_iff.mpr hall
    rw [hd, List.append_nil] at hsplit
    refine hinc (h ⟨⟨?_, Or.inl hd⟩, hdec⟩).complete
    rw [hsplit, pseudoAccepted_iff]
    exact ⟨hknown, honce, by simp, hverb⟩
  · rintro hnot ⟨⟨hacc, hrest⟩, hdec⟩
    have hreg : ∀ f ∈ fields.dropWhile isPseudo, IsRegular f := by
      rcases hrest with h | h
      · simp [h]
      · exact h.2
    have hcomplete : PseudoComplete (fields.takeWhile isPseudo) := by
      rcases hrest with h | h
      · rw [h, List.append_nil] at hsplit
        rw [hsplit] at hacc ⊢
        obtain ⟨hknown, honce, -, hverb⟩ := (pseudoAccepted_iff fields []).mp hacc
        by_contra hinc
        exact hnot ⟨hdec, hknown, honce, hverb, hinc⟩
      · exact ((validate_iff _).mp h.1).1
    rw [← hsplit]
    exact hcomplete.valid hacc hreg

/-! ## Accepted responses -/

/-- One `:status`, before any regular field, and no other pseudo header. -/
structure ValidResponseFields (fields : Headers) : Prop where
  status : countName (ascii ":status") fields = 1
  known : ∀ f ∈ fields, isPseudo f = true → f.1 = ascii ":status"
  order : ∀ f ∈ fields.dropWhile isPseudo, isPseudo f = false

theorem status_isPseudo {f : Bytes × Bytes} (h : f.1 = ascii ":status") : isPseudo f = true := by
  rw [isPseudo, h]; decide

theorem onResponseField_regular {st : ResponseState} (hst : st.gotStatus = true) {f : Bytes × Bytes}
    (h : (onResponseField st f.1 f.2).2 = none) :
    IsRegular f ∧ (onResponseField st f.1 f.2).1.gotStatus = true := by
  obtain ⟨name, value⟩ := f
  cases name with
  | nil => simp [onResponseField] at h
  | cons c name =>
      by_cases hc : c = 0x3a
      · rw [hc] at h
        simp only [onResponseField, if_true, onResponsePseudo, hst] at h
        split at h
        · simp at h
        · split at h <;> simp at h
      · simp [IsRegular, isPseudo, onResponseField, hc, hst]

theorem applyFields_response_regular : ∀ {fields : Headers} {st : ResponseState}, st.gotStatus = true →
    (applyFields onResponseField st fields).2 = none → ∀ f ∈ fields, IsRegular f
  | [], _, _, _ => by simp
  | f :: fields, st, hst, h => by
      rw [applyFields] at h
      rcases hf : onResponseField st f.1 f.2 with ⟨st', _ | error⟩
      · obtain ⟨hreg, hst'⟩ := onResponseField_regular hst (f := f) (by rw [hf])
        rw [hf] at h hst'
        rw [List.forall_mem_cons]
        exact ⟨hreg, applyFields_response_regular hst' h⟩
      · rw [hf] at h
        cases h

theorem onResponseField_first {st : ResponseState} (hst : st.gotStatus = false) (hpass : st.passedPseudo = false)
    {f : Bytes × Bytes} (h : (onResponseField st f.1 f.2).2 = none) :
    f.1 = ascii ":status" ∧ (onResponseField st f.1 f.2).1.gotStatus = true := by
  obtain ⟨name, value⟩ := f
  cases name with
  | nil => simp [onResponseField] at h
  | cons c name =>
      by_cases hc : c = 0x3a
      · by_cases hn : c :: name = ascii ":status"
        · by_cases hv : (toUint32 value).2 = true
          · refine ⟨hn, ?_⟩
            simp [onResponseField, hc, onResponsePseudo, hpass, hc ▸ hn, hst, hv]
          · simp [onResponseField, hc, onResponsePseudo, hpass, hc ▸ hn, hst, hv] at h
        · have hn' : ¬ 58 :: name = ascii ":status" := hc ▸ hn
          simp [onResponseField, hc, onResponsePseudo, hpass, hn'] at h
      · simp [onResponseField, hc, hst] at h

theorem decodeFields_eq_nil {t : DynamicTable} {input : Bytes} (h : (decodeFields t input).1 = [])
    (herr : (decodeFields t input).2.1 = none) : input = [] := by
  by_contra hne
  rcases hd : decodeHeader t input with ec | r
  · rw [decodeFields_error hne hd] at herr
    cases herr
  · rw [decodeFields_ok hd] at h
    cases h

theorem decodeResponse_enforced_iff (d : HpackDecoder) (input : Bytes) (res : Response) :
    ((d.decodeResponse input res).2.1 = none → ValidResponseFields (decodeFields d.dynamicTable input).1) ↔
      input ≠ [] := by
  have heq : (d.decodeResponse input res).2.1 = _ :=
    (decodeLoop_eq_applyFields onResponseField d.dynamicTable input { res := { res.clear with version := .v1_1 } }).2
  rw [heq, Option.or_eq_none_iff]
  constructor
  · rintro h rfl
    rw [decodeFields_nil] at h
    have := (h ⟨rfl, rfl⟩).status
    simp [countName] at this
  · rintro hne ⟨happ, herr⟩
    rcases hfields : (decodeFields d.dynamicTable input).1 with _ | ⟨f, fields⟩
    · exact absurd (decodeFields_eq_nil hfields herr) hne
    · rw [hfields, applyFields] at happ
      rcases hf : onResponseField { res := { res.clear with version := .v1_1 } } f.1 f.2 with ⟨st', _ | error⟩
      · obtain ⟨hname, hst'⟩ := @onResponseField_first { res := { res.clear with version := .v1_1 } } rfl rfl f
          (by rw [hf])
        rw [hf] at happ hst'
        have hreg := applyFields_response_regular hst' happ
        have hnone : ∀ g ∈ fields, ¬ g.1 = ascii ":status" := by
          intro g hg hgs
          have := (hreg g hg).2
          rw [status_isPseudo hgs] at this
          cases this
        refine ⟨?_, ?_, ?_⟩
        · have hzero : (fields.map Prod.fst).count (ascii ":status") = 0 := by
            rw [List.count_eq_zero]
            intro hmem
            obtain ⟨g, hg, hgs⟩ := List.mem_map.mp hmem
            exact hnone g hg hgs
          rw [countName, List.map_cons, hname, List.count_cons_self, hzero]
        · intro g hg hps
          rcases List.mem_cons.mp hg with rfl | hg
          · exact hname
          · have := (hreg g hg).2
            rw [hps] at this
            cases this
        · intro g hg
          rw [List.dropWhile_cons_of_pos (status_isPseudo hname)] at hg
          exact (hreg g ((List.dropWhile_sublist _).subset hg)).2
      · rw [hf] at happ
        cases happ

/-- A block that is accepted as a request has its mandatory pseudo headers, if and only if it is not one of those that
have no regular field at which they are checked; one that is accepted as a response has its status, if and only if the
block is not empty. -/
theorem mandatory_pseudo_headers_iff (d : HpackDecoder) (input : Bytes) (res : Response) :
    (((d.decodeRequest input).2.1 = none → ValidRequestFields (decodeFields d.dynamicTable input).1) ↔
      ¬ UncheckedRequest (decodeFields d.dynamicTable input).1 (decodeFields d.dynamicTable input).2.1) ∧
    (((d.decodeResponse input res).2.1 = none → ValidResponseFields (decodeFields d.dynamicTable input).1) ↔
      input ≠ []) :=
  ⟨decodeRequest_enforced_iff d input, decodeResponse_enforced_iff d input res⟩

/-- A block with `:method: GET` alone is accepted as a request. -/
theorem request_without_path_accepted :
    ¬ ((({} : HpackDecoder).decodeRequest [0x82]).2.1 = none →
      ValidRequestFields (decodeFields ({} : HpackDecoder).dynamicTable [0x82]).1) := by
  have hok : (({} : HpackDecoder).decodeRequest [0x82]).2.1 = none := by decide +kernel
  have hfields : (decodeFields ({} : HpackDecoder).dynamicTable [0x82]).1 = [(ascii ":method", ascii "GET")] := by
    decide +kernel
  intro h
  have := (h hok).other (by rw [hfields]; decide)
  rw [hfields] at this
  exact absurd this.1 (by decide)

/-! ## Requests on their way -/

/-- The request is decoded without error to the same method and target and to a `Host` header of the same value. -/
structure RequestRoundTrips (e : HpackEncoder) (d : HpackDecoder) (method : Verb) (target : Bytes) (hdrs : Headers)
    (flags : Flags) : Prop where
  error_eq : (d.decodeRequest (e.encodeRequest method target hdrs flags).1).2.1 = none
  method_eq : (d.decodeRequest (e.encodeRequest method target hdrs flags).1).1.method = method
  target_eq : (d.decodeRequest (e.encodeRequest method target hdrs flags).1).1.target = target
  host_eq : ∀ hdr ∈ hdrs, iequal hdr.1 hostField = true →
    ∃ f ∈ (d.decodeRequest (e.encodeRequest method target hdrs flags).1).1.headers,
      iequal f.1 hostField = true ∧ f.2 = hdr.2

theorem requestRoundTrips_split {e : HpackEncoder} {d : HpackDecoder} (h : Synced e.dynamicTable d.dynamicTable)
    {flags : Flags} (hflags : flags.Consistent) {method : Verb} (hm : method ≠ .invalid) (hc : method ≠ .connect)
    {target : Bytes} (ht : target ≠ []) {A B : Headers} {host : Bytes × Bytes}
    (hpseudo : ∀ hdr ∈ A ++ host :: B, isPseudo hdr = false) (hhost : iequal host.1 hostField = true)
    (hother : ∀ hdr ∈ A ++ B, iequal hdr.1 hostField = false) (haddr : AllAddressable (A ++ host :: B))
    (htarget : Addressable target) (hscheme : Addressable e.scheme) :
    RequestRoundTrips e d method target (A ++ host :: B) flags ↔
      (∀ hdr ∈ A ++ B, hdr.1 ≠ []) ∧ sentValue flags.neverIndexed (ascii ":path") target = target ∧
        ∃ hdr ∈ A ++ B, SendsField hdr := by
  have hpseudo' : ∀ hdr ∈ A ++ B, isPseudo hdr = false := by
    intro hdr hmem
    refine hpseudo hdr ?_
    rcases List.mem_append.mp hmem with hmem | hmem <;> simp [hmem]
  obtain ⟨hreq, herr⟩ := decodeRequest_encodeRequest h hflags hm hc hpseudo hhost hother haddr htarget hscheme
  have hpath : sentValue flags.neverIndexed (ascii ":path") target ≠ [] := by
    intro hnil
    exact ht (List.length_eq_zero_iff.mp (by rw [← length_sentValue flags.neverIndexed (ascii ":path"), hnil]; rfl))
  have hvalid := @validate_pseudoFields (sentValue flags.neverIndexed (ascii ":scheme") e.scheme) _ host.2 method hm hc
    hpath
  obtain ⟨hstate, hstate'⟩ := @state_pseudoFields (sentValue flags.neverIndexed (ascii ":scheme") e.scheme)
    (sentValue flags.neverIndexed (ascii ":path") target) host.2 method hm hc
  rw [← otherFields_regular_iff hc flags.neverIndexed hpseudo', ← otherFields_ne_nil_iff hc flags.neverIndexed hother]
  have hrest := otherFields_isPseudo hc flags.neverIndexed hpseudo'
  rcases hr : otherFields method flags.neverIndexed (A ++ B) with _ | ⟨r, rest⟩
  · -- no field follows the pseudo headers, and the host is never inserted
    refine iff_of_false ?_ (by simp)
    intro hrt
    obtain ⟨f, hf, hfh, -⟩ := hrt.host_eq host (by simp) hhost
    have hne : iequal (ascii ":scheme") hostField = false := by decide
    rw [hreq, hr, applyFields, hstate, List.mem_singleton] at hf
    rw [hf, hne] at hfh
    cases hfh
  · rw [hr] at hreq herr hrest
    obtain ⟨hgood, hbad⟩ := applyFields_first d.scheme _ rest (hrest r (by simp))
    by_cases hreg : ∀ f ∈ r :: rest, IsRegular f
    · rw [hgood ⟨hvalid, hreg⟩] at hreq herr
      constructor
      · intro hrt
        refine ⟨hreg, ?_, by simp⟩
        have := hrt.target_eq
        rw [hreq] at this
        simpa [hstate'] using this
      · rintro ⟨-, hpathEq, -⟩
        refine ⟨herr, by rw [hreq]; simp [hstate'], by rw [hreq]; simpa [hstate'] using hpathEq, ?_⟩
        intro hdr hmem hhdr
        have hdrHost : hdr = host := by
          rcases List.mem_append.mp hmem with hmem | hmem
          · exact absurd hhdr (by simp [hother hdr (List.mem_append_left _ hmem)])
          · rcases List.mem_cons.mp hmem with rfl | hmem
            · rfl
            · exact absurd hhdr (by simp [hother hdr (List.mem_append_right _ hmem)])
        refine ⟨(hostField, host.2), ?_, iequal_self _, by rw [hdrHost]⟩
        rw [hreq]
        exact host_mem_foldl (by simp [hstate'])
    · refine iff_of_false ?_ fun hand => hreg hand.1
      intro hrt
      have := hrt.error_eq
      rw [herr] at this
      exact hbad (fun hand => hreg hand.2) this

/-- A request comes back with its method, target and host if and only if no header lacks a name, the target is not the
static table's `/index.html` in other letter case (unless it is never indexed), and some header besides `Host` is sent
as a field: only at such a field does the decoder insert the host. -/
theorem requestRoundTrips_iff {e : HpackEncoder} {d : HpackDecoder} (h : Synced e.dynamicTable d.dynamicTable)
    {flags : Flags} (hflags : flags.Consistent) {method : Verb} (hm : method ≠ .invalid) (hc : method ≠ .connect)
    {target : Bytes} (ht : target ≠ []) {hdrs : Headers} (hone : OneHost hdrs)
    (hpseudo : ∀ hdr ∈ hdrs, isPseudo hdr = false) (haddr : AllAddressable hdrs)
    (htargetAddr : Addressable target) (hschemeAddr : Addressable e.scheme) :
    RequestRoundTrips e d method target hdrs flags ↔
      (∀ hdr ∈ hdrs, hdr.1 ≠ []) ∧ (flags.neverIndexed = true ∨ CaseExact (ascii ":path", target)) ∧
        ∃ hdr ∈ hdrs, SendsField hdr := by
  obtain ⟨A, host, B, rfl, hhost, hother⟩ := hone.split
  rw [requestRoundTrips_split h hflags hm hc ht hpseudo hhost hother haddr htargetAddr hschemeAddr]
  have hnamed : host.1 ≠ [] := by
    intro hnil
    rw [hnil] at hhost
    exact absurd hhost (by decide)
  refine and_congr ?_ (and_congr ?_ ?_)
  · simp only [List.mem_append, List.mem_cons]
    constructor
    · rintro hall hdr (hmem | rfl | hmem)
      · exact hall hdr (Or.inl hmem)
      · exact hnamed
      · exact hall hdr (Or.inr hmem)
    · rintro hall hdr (hmem | hmem)
      · exact hall hdr (Or.inl hmem)
      · exact hall hdr (Or.inr (Or.inr hmem))
  · cases hn : flags.neverIndexed
    · simpa using sentValue_eq_iff (ascii ":path", target)
    · simp [sentValue]
  · have hnot : ¬ SendsField host := fun hs => by rw [hs.1] at hhost; cases hhost
    simp only [List.mem_append, List.mem_cons]
    constructor
    · rintro ⟨hdr, hmem | hmem, hs⟩
      · exact ⟨hdr, Or.inl hmem, hs⟩
      · exact ⟨hdr, Or.inr (Or.inr hmem), hs⟩
    · rintro ⟨hdr, hmem | rfl | hmem, hs⟩
      · exact ⟨hdr, Or.inl hmem, hs⟩
      · exact absurd hs hnot
      · exact ⟨hdr, Or.inr hmem, hs⟩

theorem requestRoundTrips_accept :
    RequestRoundTrips { scheme := ascii "https" } {} .get (ascii "/a")
      [(ascii "Host", ascii "h"), (ascii "Accept", ascii "*")] {} :=
  (requestRoundTrips_iff ⟨.fresh, .fresh, ⟨rfl, rfl, rfl⟩⟩ (by decide) (by decide) (by decide) (by decide)
    (by decide) (by decide) (by decide) (by decide)
    (by decide)).mpr ⟨by decide, Or.inr (by decide), by decide⟩

/-- A request with nothing but its `Host` header comes back without it. -/
theorem request_host_lost :
    ¬ RequestRoundTrips { scheme := ascii "https" } {} .get (ascii "/a") [(ascii "Host", ascii "h")] {} := by
  intro h
  have hnone : ¬ ∃ f ∈ (({} : HpackDecoder).decodeRequest (HpackEncoder.encodeRequest { scheme := ascii "https" } .get
      (ascii "/a") [(ascii "Host", ascii "h")] {}).1).1.headers, iequal f.1 hostField = true := by
    decide +kernel
  obtain ⟨f, hf, hhost, -⟩ := h.host_eq (ascii "Host", ascii "h") (by simp) (by decide)
  exact hnone ⟨f, hf, hhost⟩

/-! ## HPACK: the scheme of a request

`decode` compares the scheme of a block with itself, so that a decoder with a scheme accepts requests of any other one.
-/

/-- The fields that are accepted as a request: pseudo headers, which are complete where there is another field, and regular
fields. -/
structure AcceptedFields (fields : Headers) : Prop where
  pseudo : PseudoAccepted [] (fields.takeWhile isPseudo)
  regular : ∀ f ∈ fields.dropWhile isPseudo, IsRegular f
  complete : fields.dropWhile isPseudo ≠ [] → PseudoComplete fields ∧
    ¬ ((valueOf (ascii ":scheme") fields = some (ascii "http") ∨ valueOf (ascii ":scheme") fields = some (ascii "https")) ∧
      (valueOf (ascii ":path") fields).getD [] = [])

/-- A block that is accepted as a request, other than `CONNECT`, although it does not have the scheme of the decoder. -/
structure OtherScheme (scheme : Bytes) (fields : Headers) (error : Option DecodeError) : Prop where
  decoded : error = none
  accepted : AcceptedFields fields
  verb : (valueOf (ascii ":method") fields).map stringToVerb ≠ some .connect
  other : valueOf (ascii ":scheme") fields ≠ some scheme

theorem valueOf_append_regular {name : Bytes} (hname : name ∈ requestPseudo) (ps : Headers) {rs : Headers}
    (hrs : ∀ f ∈ rs, IsRegular f) : valueOf name (ps ++ rs) = valueOf name ps := by
  have hnone : rs.find? (fun f => f.1 == name) = none := by
    refine List.find?_eq_none.mpr fun f hf => ?_
    rw [beq_iff_eq]
    rintro rfl
    have := (hrs f hf).2
    rw [requestPseudo_isPseudo hname] at this
    cases this
  rw [valueOf, List.find?_append, hnone, Option.or_none, valueOf]

theorem PseudoComplete.congr {fields ps : Headers} (h : ∀ name ∈ requestPseudo, valueOf name fields = valueOf name ps) :
    PseudoComplete fields ↔ PseudoComplete ps := by
  unfold PseudoComplete
  simp only [requestPseudo, List.forall_mem_cons, List.not_mem_nil, false_implies, implies_true, and_true] at h
  rw [h.1, h.2.1, h.2.2.1, h.2.2.2]

theorem valueOf_takeWhile {fields : Headers} (hreg : ∀ f ∈ fields.dropWhile isPseudo, IsRegular f) :
    ∀ name ∈ requestPseudo, valueOf name fields = valueOf name (fields.takeWhile isPseudo) := by
  intro name hname
  have happend := valueOf_append_regular hname (fields.takeWhile isPseudo) hreg
  rwa [List.takeWhile_append_dropWhile] at happend

theorem applyFields_accepted_iff (scheme : Bytes) (fields : Headers) :
    (applyFields (onRequestField scheme) {} fields).2 = none ↔ AcceptedFields fields := by
  rw [applyFields_request_iff, validate_iff]
  have hscheme : ascii ":scheme" ∈ requestPseudo := by simp [requestPseudo]
  have hpath : ascii ":path" ∈ requestPseudo := by simp [requestPseudo]
  constructor
  · rintro ⟨hacc, hd | ⟨hcomplete, hreg⟩⟩
    · exact ⟨hacc, by simp [hd], fun hne => absurd hd hne⟩
    · have hvalue := valueOf_takeWhile hreg
      refine ⟨hacc, hreg, fun _ => ?_⟩
      rwa [PseudoComplete.congr hvalue, hvalue _ hscheme, hvalue _ hpath]
  · rintro ⟨hacc, hreg, hcomplete⟩
    refine ⟨hacc, or_iff_not_imp_left.mpr fun hne => ⟨?_, hreg⟩⟩
    have hvalue := valueOf_takeWhile hreg
    have h := hcomplete hne
    rwa [PseudoComplete.congr hvalue, hvalue _ hscheme, hvalue _ hpath] at h

/-- The method of a request that is accepted. -/
theorem applyFields_request_method {scheme : Bytes} {fields : Headers} (h : AcceptedFields fields) :
    (applyFields (onRequestField scheme) {} fields).1.req.method =
      ((valueOf (ascii ":method") fields).map stringToVerb).getD .invalid := by
  have hps : ∀ f ∈ fields.takeWhile isPseudo, isPseudo f = true := fun f hf => List.mem_takeWhile_imp hf
  have hrun := (applyFields_pseudo scheme (fields.dropWhile isPseudo) [] hps).1 h.pseudo
  rw [List.takeWhile_append_dropWhile, pseudoState_nil, List.nil_append] at hrun
  rw [hrun, valueOf_takeWhile h.regular _ (by simp [requestPseudo])]
  cases hd : fields.dropWhile isPseudo with
  | nil => rfl
  | cons r rs =>
      have hr : isPseudo r = false := (h.regular r (by simp [hd])).2
      have hnone := (applyFields_accepted_iff scheme fields).mpr h
      rw [applyFields_request_iff] at hnone
      obtain ⟨hvalid, hreg⟩ := hnone.2.resolve_left (by simp [hd])
      rw [(applyFields_first scheme (fields.takeWhile isPseudo) rs hr).1 ⟨hvalid, fun g hg => hreg g (by rwa [hd])⟩]
      simp only [regularState]
      split <;> rfl

/-- A decoder's scheme is checked if and only if the block is none of those that have another scheme and are accepted for all
that. -/
theorem scheme_checked_iff (d : HpackDecoder) (input : Bytes) :
    ((d.decodeRequest input).2.1 = none → (d.decodeRequest input).1.method ≠ .connect →
      valueOf (ascii ":scheme") (decodeFields d.dynamicTable input).1 = some d.scheme) ↔
    ¬ OtherScheme d.scheme (decodeFields d.dynamicTable input).1 (decodeFields d.dynamicTable input).2.1 := by
  have hreq : (d.decodeRequest input).1 = (applyFields (onRequestField d.scheme) {} (decodeFields d.dynamicTable input).1).1.req :=
    congrArg RequestState.req (decodeLoop_eq_applyFields (onRequestField d.scheme) d.dynamicTable input {}).1
  rw [decodeRequest_error, hreq, Option.or_eq_none_iff, applyFields_accepted_iff]
  generalize (decodeFields d.dynamicTable input).1 = fields
  generalize (decodeFields d.dynamicTable input).2.1 = error
  have hverb : AcceptedFields fields → ((applyFields (onRequestField d.scheme) {} fields).1.req.method ≠ .connect ↔
      (valueOf (ascii ":method") fields).map stringToVerb ≠ some .connect) := by
    intro h
    rw [applyFields_request_method h]
    cases (valueOf (ascii ":method") fields).map stringToVerb with
    | none => simp
    | some verb => simp
  constructor
  · rintro h ⟨hdecoded, haccepted, hmethod, hother⟩
    exact hother (h ⟨haccepted, hdecoded⟩ ((hverb haccepted).mpr hmethod))
  · rintro hnot ⟨haccepted, hdecoded⟩ hmethod
    by_contra hother
    exact hnot ⟨hdecoded, haccepted, (hverb haccepted).mp hmethod, hother⟩

/-- `GET` with the scheme `http` is accepted by a decoder for `https`. -/
theorem other_scheme_accepted :
    ¬ ((({ scheme := ascii "https" } : HpackDecoder).decodeRequest [0x82, 0x86, 0x84, 0x90]).2.1 = none →
      (({ scheme := ascii "https" } : HpackDecoder).decodeRequest [0x82, 0x86, 0x84, 0x90]).1.method ≠ .connect →
      valueOf (ascii ":scheme") (decodeFields ({ scheme := ascii "https" } : HpackDecoder).dynamicTable
        [0x82, 0x86, 0x84, 0x90]).1 = some (ascii "https")) := by
  intro h
  have hok : (({ scheme := ascii "https" } : HpackDecoder).decodeRequest [0x82, 0x86, 0x84, 0x90]).2.1 = none := by
    decide +kernel
  have hget : (({ scheme := ascii "https" } : HpackDecoder).decodeRequest [0x82, 0x86, 0x84, 0x90]).1.method = .get := by
    decide +kernel
  have hscheme : valueOf (ascii ":scheme") (decodeFields ({ scheme := ascii "https" } : HpackDecoder).dynamicTable
      [0x82, 0x86, 0x84, 0x90]).1 = some (ascii "http") := by decide +kernel
  have := hscheme.symm.trans (h hok (by rw [hget]; nofun))
  exact absurd this (by decide)

end Rad.Hpack
