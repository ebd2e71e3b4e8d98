import Rad.Hpack.Lemmas.Blocks

/-!
# Decoding requests

The decoder's state while it reads pseudo headers is a function of the pseudo headers so far. A block is accepted when
its pseudo headers are known and not repeated, when they are complete as the first regular field is met, and when only
regular fields follow.
-/

namespace Rad.Hpack

open Http

/-! ## Fields -/

def isPseudo (f : Bytes × Bytes) : Bool := f.1.head? == some 0x3a

/-- A field that is neither a pseudo header nor without a name. -/
def IsRegular (f : Bytes × Bytes) : Prop := f.1 ≠ [] ∧ isPseudo f = false

instance (f : Bytes × Bytes) : Decidable (IsRegular f) := inferInstanceAs (Decidable (f.1 ≠ [] ∧ isPseudo f = false))

/-- The value of the first field of a name. -/
def valueOf (name : Bytes) (fields : Headers) : Option Bytes := (fields.find? fun f => f.1 == name).map Prod.snd

theorem valueOf_concat (name : Bytes) (fields : Headers) (f : Bytes × Bytes) :
    valueOf name (fields ++ [f]) = (valueOf name fields).or (if f.1 = name then some f.2 else none) := by
  unfold valueOf
  rw [List.find?_append]
  rcases hg : List.find? (fun f => f.1 == name) fields with _ | g
  · by_cases h : f.1 = name <;> simp [hg, h]
  · simp [hg]

theorem valueOf_eq_none {name : Bytes} {fields : Headers} :
    valueOf name fields = none ↔ name ∉ fields.map Prod.fst := by
  simp only [valueOf, Option.map_eq_none_iff, List.find?_eq_none, beq_iff_eq, List.mem_map, not_exists, not_and]

theorem valueOf_mem {name value : Bytes} {fields : Headers} (h : valueOf name fields = some value) :
    (name, value) ∈ fields := by
  obtain ⟨f, hf, rfl⟩ := Option.map_eq_some_iff.mp h
  have hn : f.1 = name := by simpa using List.find?_some hf
  rw [← hn]
  exact List.mem_of_find?_eq_some hf

/-! ## Pseudo headers -/

def requestPseudo : List Bytes := [ascii ":method", ascii ":path", ascii ":authority", ascii ":scheme"]

theorem requestPseudo_isPseudo {f : Bytes × Bytes} (h : f.1 ∈ requestPseudo) : isPseudo f = true := by
  have hall : ∀ name ∈ requestPseudo, (name.head? == some 0x3a) = true := by decide
  exact hall f.1 h

/-- The state of the decoder after the pseudo headers `ps`. -/
def pseudoState (ps : Headers) : RequestState where
  req :=
    { method := ((valueOf (ascii ":method") ps).map stringToVerb).getD .invalid
      target := (valueOf (ascii ":path") ps).getD []
      version := .v1_1
      headers := (valueOf (ascii ":scheme") ps).toList.map fun value => (ascii ":scheme", value) }
  scheme := (valueOf (ascii ":scheme") ps).getD []
  authority := (valueOf (ascii ":authority") ps).getD []
  hasMethod := (valueOf (ascii ":method") ps).isSome
  hasAuthority := (valueOf (ascii ":authority") ps).isSome
  hasPath := (valueOf (ascii ":path") ps).isSome
  hasScheme := (valueOf (ascii ":scheme") ps).isSome
  passedPseudo := false

theorem pseudoState_nil : pseudoState [] = {} := rfl

/-- A further pseudo header that is accepted. -/
def PseudoOk (ps : Headers) (f : Bytes × Bytes) : Prop :=
  f.1 ∈ requestPseudo ∧ valueOf f.1 ps = none ∧ (f.1 = ascii ":method" → stringToVerb f.2 ≠ .invalid)

theorem pseudo_ne : ascii ":method" ≠ ascii ":path" ∧ ascii ":method" ≠ ascii ":authority" ∧
    ascii ":method" ≠ ascii ":scheme" ∧ ascii ":path" ≠ ascii ":authority" ∧ ascii ":path" ≠ ascii ":scheme" ∧
    ascii ":authority" ≠ ascii ":scheme" := by decide

theorem onRequestPseudo_ok {ps : Headers} {f : Bytes × Bytes} (h : PseudoOk ps f) :
    onRequestPseudo (pseudoState ps) f.1 f.2 = (pseudoState (ps ++ [f]), none) := by
  obtain ⟨hmem, hnone, hverb⟩ := h
  obtain ⟨n1, n2, n3, n4, n5, n6⟩ := pseudo_ne
  obtain ⟨name, value⟩ := f
  simp only at hmem hnone hverb ⊢
  simp only [requestPseudo, List.mem_cons, List.not_mem_nil, or_false] at hmem
  rcases hmem with rfl | rfl | rfl | rfl
  · have := hverb rfl
    simp [onRequestPseudo, pseudoState, valueOf_concat, hnone, this, n1, n2, n3]
  · simp [onRequestPseudo, pseudoState, valueOf_concat, hnone, n1.symm, n4, n5]
  · simp [onRequestPseudo, pseudoState, valueOf_concat, hnone, n2.symm, n4.symm, n6]
  · simp [onRequestPseudo, pseudoState, valueOf_concat, hnone, n3.symm, n5.symm, n6.symm, Headers.insert,
      Headers.find]

theorem onRequestPseudo_error {ps : Headers} {f : Bytes × Bytes} (h : ¬ PseudoOk ps f) :
    (onRequestPseudo (pseudoState ps) f.1 f.2).2 ≠ none := by
  have hrepeat : ∀ {name}, f.1 = name → valueOf name ps = none ∨ (valueOf name ps).isSome = true := by
    intro name _
    rcases valueOf name ps with _ | v <;> simp
  unfold PseudoOk requestPseudo at h
  simp only [List.mem_cons, List.not_mem_nil, or_false] at h
  simp only [onRequestPseudo, show (pseudoState ps).passedPseudo = false from rfl, Bool.false_eq_true, if_false]
  by_cases h1 : f.1 = ascii ":method"
  · rw [if_pos h1]
    rcases hrepeat h1 with hn | hs
    · have hbad : stringToVerb f.2 = .invalid := by
        by_contra hv
        exact h ⟨Or.inl h1, h1 ▸ hn, fun _ => hv⟩
      simp [pseudoState, hn, hbad]
    · simp [pseudoState, hs]
  · rw [if_neg h1]
    have hdup : f.1 = ascii ":path" ∨ f.1 = ascii ":authority" ∨ f.1 = ascii ":scheme" →
        (valueOf f.1 ps).isSome = true := by
      intro hk
      rcases hrepeat (rfl : f.1 = f.1) with hn | hs
      · exact absurd ⟨Or.inr hk, hn, fun hm => absurd hm h1⟩ h
      · exact hs
    by_cases h2 : f.1 = ascii ":path"
    · have := hdup (Or.inl h2)
      rw [h2] at this
      simp [h2, pseudoState, this]
    · rw [if_neg h2]
      by_cases h3 : f.1 = ascii ":authority"
      · have := hdup (Or.inr (Or.inl h3))
        rw [h3] at this
        simp [h3, pseudoState, this]
      · rw [if_neg h3]
        by_cases h4 : f.1 = ascii ":scheme"
        · have := hdup (Or.inr (Or.inr h4))
          rw [h4] at this
          simp [h4, pseudoState, this]
        · simp [h4]

/-- Pseudo headers that are accepted one after the other. -/
def PseudoAccepted (ps : Headers) : Headers → Prop
  | [] => True
  | f :: fields => PseudoOk ps f ∧ PseudoAccepted (ps ++ [f]) fields

theorem onRequestField_pseudo (scheme : Bytes) (st : RequestState) {f : Bytes × Bytes} (h : isPseudo f = true) :
    onRequestField scheme st f.1 f.2 =
      ((onRequestPseudo st f.1 f.2).1, (onRequestPseudo st f.1 f.2).2.map .http) := by
  obtain ⟨name, value⟩ := f
  cases name with
  | nil => simp [isPseudo] at h
  | cons c name =>
      have hc : c = 0x3a := by simpa [isPseudo] using h
      simp [onRequestField, hc]

theorem applyFields_pseudo (scheme : Bytes) (rest : Headers) : ∀ {fields : Headers} (ps : Headers),
    (∀ f ∈ fields, isPseudo f = true) →
      (PseudoAccepted ps fields → applyFields (onRequestField scheme) (pseudoState ps) (fields ++ rest) =
        applyFields (onRequestField scheme) (pseudoState (ps ++ fields)) rest) ∧
      (¬ PseudoAccepted ps fields → (applyFields (onRequestField scheme) (pseudoState ps) (fields ++ rest)).2 ≠ none)
  | [], ps, _ => by simp [PseudoAccepted]
  | f :: fields, ps, hall => by
      have hp := onRequestField_pseudo scheme (pseudoState ps) (hall f (by simp))
      rw [List.cons_append, applyFields, hp]
      by_cases hok : PseudoOk ps f
      · rw [onRequestPseudo_ok hok]
        simpa [PseudoAccepted, hok] using applyFields_pseudo scheme rest (ps ++ [f]) fun g hg => hall g (by simp [hg])
      · refine ⟨fun h => absurd h.1 hok, fun _ => ?_⟩
        obtain ⟨error, he⟩ := Option.ne_none_iff_exists'.mp (onRequestPseudo_error hok)
        simp [he]

/-- Known names, none of them twice, and a known method. -/
theorem pseudoAccepted_iff (fields : Headers) : ∀ ps : Headers,
    PseudoAccepted ps fields ↔ (∀ f ∈ fields, f.1 ∈ requestPseudo) ∧ (fields.map Prod.fst).Nodup ∧
      (∀ f ∈ fields, f.1 ∉ ps.map Prod.fst) ∧ ∀ f ∈ fields, f.1 = ascii ":method" → stringToVerb f.2 ≠ .invalid := by
  induction fields with
  | nil => intro ps; simp [PseudoAccepted]
  | cons f fields ih =>
      intro ps
      rw [PseudoAccepted, ih, PseudoOk, valueOf_eq_none]
      simp only [List.forall_mem_cons, List.map_cons, List.nodup_cons, List.map_append, List.map_nil, List.mem_append,
        List.mem_singleton, not_or, forall_and, List.mem_map]
      constructor
      · rintro ⟨⟨h1, h2, h3⟩, h4, h5, ⟨h6, h7⟩, h8⟩
        exact ⟨⟨h1, h4⟩, ⟨fun ⟨g, hg, he⟩ => h7 g hg he, h5⟩, ⟨h2, h6⟩, h3, h8⟩
      · rintro ⟨⟨h1, h4⟩, ⟨h7, h5⟩, ⟨h2, h6⟩, h3, h8⟩
        exact ⟨⟨h1, h2, h3⟩, h4, h5, ⟨h6, fun g hg he => h7 ⟨g, hg, he⟩⟩, h8⟩

/-! ## Completeness -/

/-- The pseudo headers that a request needs, and none that it must not have. -/
def PseudoComplete (ps : Headers) : Prop :=
  ∃ m, valueOf (ascii ":method") ps = some m ∧
    if stringToVerb m = .connect then
      (valueOf (ascii ":authority") ps).isSome = true ∧ valueOf (ascii ":path") ps = none ∧
        valueOf (ascii ":scheme") ps = none
    else (valueOf (ascii ":path") ps).isSome = true ∧ (valueOf (ascii ":scheme") ps).isSome = true

theorem validate_iff (ps : Headers) :
    validateRequestPseudoHeaders (pseudoState ps) = none ↔ PseudoComplete ps ∧
      ¬ ((valueOf (ascii ":scheme") ps = some (ascii "http") ∨ valueOf (ascii ":scheme") ps = some (ascii "https")) ∧
        (valueOf (ascii ":path") ps).getD [] = []) := by
  have hne : ascii "http" ≠ [] ∧ ascii "https" ≠ [] := by decide
  unfold validateRequestPseudoHeaders PseudoComplete pseudoState
  rcases valueOf (ascii ":method") ps with _ | m
  · simp
  · rcases valueOf (ascii ":path") ps with _ | p <;> rcases valueOf (ascii ":scheme") ps with _ | s <;>
      rcases valueOf (ascii ":authority") ps with _ | a <;> by_cases hc : stringToVerb m = .connect <;>
      simp [hc, hne.1, hne.2, imp_iff_not_or, not_or]

/-! ## Regular fields -/

theorem onRequestField_regular (scheme : Bytes) {st : RequestState} (hst : st.passedPseudo = true) {f : Bytes × Bytes}
    (h : IsRegular f) :
    onRequestField scheme st f.1 f.2 =
      ({ st with req.headers := insertRegular st.req.headers f.1 f.2 }, none) := by
  obtain ⟨name, value⟩ := f
  obtain ⟨hne, hp⟩ := h
  cases name with
  | nil => exact absurd rfl hne
  | cons c name =>
      have hc : ¬ c = 0x3a := by simpa [isPseudo] using hp
      simp [onRequestField, hc, hst]

theorem onRequestField_irregular (scheme : Bytes) {st : RequestState} (hst : st.passedPseudo = true)
    {f : Bytes × Bytes} (h : ¬ IsRegular f) : (onRequestField scheme st f.1 f.2).2 ≠ none := by
  obtain ⟨name, value⟩ := f
  cases name with
  | nil => simp [onRequestField]
  | cons c name =>
      have hc : c = 0x3a := by simpa [IsRegular, isPseudo] using h
      simp [onRequestField, hc, onRequestPseudo, hst]

theorem applyFields_regular (scheme : Bytes) : ∀ {fields : Headers} {st : RequestState}, st.passedPseudo = true →
    ((∀ f ∈ fields, IsRegular f) → applyFields (onRequestField scheme) st fields =
        ({ st with req.headers := fields.foldl (fun hdrs f => insertRegular hdrs f.1 f.2) st.req.headers }, none)) ∧
      (¬ (∀ f ∈ fields, IsRegular f) → (applyFields (onRequestField scheme) st fields).2 ≠ none)
  | [], st, _ => by simp [applyFields]
  | f :: fields, st, hst => by
      rw [applyFields]
      by_cases hf : IsRegular f
      · rw [onRequestField_regular scheme hst hf]
        simpa [hf] using @applyFields_regular scheme fields
          { st with req.headers := insertRegular st.req.headers f.1 f.2 } hst
      · refine ⟨fun h => absurd (h f (by simp)) hf, fun _ => ?_⟩
        obtain ⟨error, he⟩ := Option.ne_none_iff_exists'.mp (onRequestField_irregular scheme hst hf)
        rw [show onRequestField scheme st f.1 f.2 = ((onRequestField scheme st f.1 f.2).1, some error) from
          Prod.ext rfl he]
        simp

/-- The state in which the decoder goes on behind the pseudo headers `ps`. -/
def regularState (ps : Headers) : RequestState :=
  let st := pseudoState ps
  if st.req.method = .connect then { st with req.target := st.authority, authority := [], passedPseudo := true }
  else { st with req.headers := st.req.headers.insert hostField st.authority, passedPseudo := true }

/-- The pseudo headers are checked when the first other field is met. -/
theorem applyFields_first (scheme : Bytes) (ps : Headers) {f : Bytes × Bytes} (fields : Headers)
    (hf : isPseudo f = false) :
    (validateRequestPseudoHeaders (pseudoState ps) = none ∧ (∀ g ∈ f :: fields, IsRegular g) →
      applyFields (onRequestField scheme) (pseudoState ps) (f :: fields) =
        ({ regularState ps with
          req.headers := (f :: fields).foldl (fun hdrs f => insertRegular hdrs f.1 f.2) (regularState ps).req.headers },
          none)) ∧
    (¬ (validateRequestPseudoHeaders (pseudoState ps) = none ∧ (∀ g ∈ f :: fields, IsRegular g)) →
      (applyFields (onRequestField scheme) (pseudoState ps) (f :: fields)).2 ≠ none) := by
  obtain ⟨name, value⟩ := f
  cases name with
  | nil =>
      refine ⟨fun h => absurd rfl (h.2 ([], value) (by simp)).1, fun _ => ?_⟩
      simp [applyFields, onRequestField]
  | cons c name =>
      have hc : ¬ c = 0x3a := by simpa [isPseudo] using hf
      have hreg : IsRegular (c :: name, value) := ⟨by simp, hf⟩
      rcases hv : validateRequestPseudoHeaders (pseudoState ps) with _ | error
      · have hstep : onRequestField scheme (pseudoState ps) (c :: name) value =
            ({ regularState ps with
              req.headers := insertRegular (regularState ps).req.headers (c :: name) value }, none) := by
          have hpass : (pseudoState ps).passedPseudo = false := rfl
          simp only [onRequestField, if_neg hc, hpass, onRequestPseudoEnd, hv, regularState]
          by_cases hm : (pseudoState ps).req.method = .connect <;> simp [hm]
        have hpass : (regularState ps).passedPseudo = true := by unfold regularState; simp only; split <;> rfl
        rw [applyFields, hstep]
        simp only [true_and, List.forall_mem_cons, hreg, List.foldl_cons]
        exact applyFields_regular scheme hpass
      · refine ⟨fun h => absurd h.1 (by simp), fun _ => ?_⟩
        have hpass : (pseudoState ps).passedPseudo = false := rfl
        simp [applyFields, onRequestField, hc, hpass, onRequestPseudoEnd, hv]

end Rad.Hpack
