import Rad.Hpack.Lemmas.Sync

/-!
# Header blocks

What the decoding loop does with the fields of a block, for any handler of the fields: of any input, and of a block that
an encoder with an equal table has written.
-/

namespace Rad.Hpack

open Http DynamicTable

variable {σ : Type*} (onField : σ → Bytes → Bytes → σ × Option DecodeError)

/-- Hands fields to a handler, up to the first error. -/
def applyFields (s : σ) : Headers → σ × Option DecodeError
  | [] => (s, none)
  | field :: fields =>
    match onField s field.1 field.2 with
    | (s, some error) => (s, some error)
    | (s, none) => applyFields s fields

/-- The fields that successive calls of `decode_header` find, and how they end. -/
def decodeFields (t : DynamicTable) (input : Bytes) : Headers × Option DecodeError × DynamicTable :=
  decodeLoop (fun fields name value => (fields ++ [(name, value)], none)) t input []

/-! ## The loop -/

theorem decodeLoop_nil (t : DynamicTable) (s : σ) : decodeLoop onField t [] s = (s, none, t) := by
  rw [decodeLoop, if_pos rfl]

theorem decodeLoop_error {t : DynamicTable} {input : Bytes} (hne : input ≠ []) {ec : Errc}
    (h : decodeHeader t input = .error ec) (s : σ) : decodeLoop onField t input s = (s, some (.errc ec), t) := by
  rw [decodeLoop, if_neg hne]
  split
  · rename_i h'; rw [h] at h'; cases h'; rfl
  · rename_i h'; rw [h] at h'; cases h'

theorem decodeLoop_ok {t : DynamicTable} {input : Bytes} {r : HeaderRead} (h : decodeHeader t input = .ok r) (s : σ) :
    decodeLoop onField t input s =
      match onField s r.name r.value with
      | (s, some error) => (s, some error, r.table)
      | (s, none) => decodeLoop onField r.table (input.drop r.consumed) s := by
  have hne : input ≠ [] := by rintro rfl; simp [decodeHeader] at h
  rw [decodeLoop, if_neg hne]
  split
  · rename_i h'; rw [h] at h'; cases h'
  · rename_i h'; rw [h] at h'; cases h'; rfl

/-- The fields of a block, one after the other, for any input. -/
theorem decodeLoop_append (t : DynamicTable) (input : Bytes) (pre : Headers) :
    decodeLoop (fun fields name value => (fields ++ [(name, value)], none)) t input pre =
      (pre ++ (decodeFields t input).1, (decodeFields t input).2.1, (decodeFields t input).2.2) := by
  unfold decodeFields
  induction hn : input.length using Nat.strongRecOn generalizing t input pre with
  | ind n ih =>
      by_cases hne : input = []
      · subst hne; simp [decodeLoop_nil]
      · rcases hd : decodeHeader t input with ec | r
        · simp [decodeLoop_error _ hne hd]
        · have hb := decodeHeader_bounds hd
          have hlt : (input.drop r.consumed).length < n := by rw [List.length_drop]; omega
          rw [decodeLoop_ok _ hd, decodeLoop_ok _ hd]
          simp only
          rw [ih _ hlt r.table _ (pre ++ [(r.name, r.value)]) rfl, ih _ hlt r.table _ ([] ++ [(r.name, r.value)]) rfl]
          simp

theorem decodeFields_nil (t : DynamicTable) : decodeFields t [] = ([], none, t) := decodeLoop_nil _ t []

theorem decodeFields_error {t : DynamicTable} {input : Bytes} (hne : input ≠ []) {ec : Errc}
    (h : decodeHeader t input = .error ec) : decodeFields t input = ([], some (.errc ec), t) :=
  decodeLoop_error _ hne h []

theorem decodeFields_ok {t : DynamicTable} {input : Bytes} {r : HeaderRead} (h : decodeHeader t input = .ok r) :
    decodeFields t input = ((r.name, r.value) :: (decodeFields r.table (input.drop r.consumed)).1,
      (decodeFields r.table (input.drop r.consumed)).2.1, (decodeFields r.table (input.drop r.consumed)).2.2) := by
  rw [decodeFields, decodeLoop_ok _ h]
  simp only [List.nil_append]
  rw [decodeLoop_append]
  rfl

theorem decodeLoop_eq_applyFields (t : DynamicTable) (input : Bytes) (s : σ) :
    (decodeLoop onField t input s).1 = (applyFields onField s (decodeFields t input).1).1 ∧
      (decodeLoop onField t input s).2.1 =
        (applyFields onField s (decodeFields t input).1).2.or (decodeFields t input).2.1 := by
  induction hn : input.length using Nat.strongRecOn generalizing t input s with
  | ind n ih =>
      by_cases hne : input = []
      · subst hne; simp [decodeLoop_nil, decodeFields_nil, applyFields]
      · rcases hd : decodeHeader t input with ec | r
        · simp [decodeLoop_error onField hne hd, decodeFields_error hne hd, applyFields]
        · have hb := decodeHeader_bounds hd
          have hlt : (input.drop r.consumed).length < n := by rw [List.length_drop]; omega
          rw [decodeLoop_ok onField hd, decodeFields_ok hd, applyFields]
          rcases onField s r.name r.value with ⟨s', _ | error⟩
          · exact ih _ hlt r.table _ s' rfl
          · simp

/-! ## Blocks from an encoder -/

/-- The flags do not ask for indexing and for no indexing at once. -/
def Flags.Consistent (flags : Flags) : Prop := ¬ (flags.indexed = true ∧ flags.neverIndexed = true)

instance (flags : Flags) : Decidable flags.Consistent :=
  inferInstanceAs (Decidable (¬ (flags.indexed = true ∧ flags.neverIndexed = true)))

/-- Every name and value of a list lies in memory. -/
def AllAddressable (hdrs : Headers) : Prop := ∀ hdr ∈ hdrs, Addressable hdr.1 ∧ Addressable hdr.2

instance (hdrs : Headers) : Decidable (AllAddressable hdrs) :=
  inferInstanceAs (Decidable (∀ hdr ∈ hdrs, Addressable hdr.1 ∧ Addressable hdr.2))

variable {te td : DynamicTable}

theorem Flags.Consistent.indexed_eq {flags : Flags} (hflags : flags.Consistent) :
    (flags.indexed && !flags.neverIndexed) = flags.indexed := by
  revert hflags; unfold Flags.Consistent; cases flags.indexed <;> cases flags.neverIndexed <;> simp

theorem DynamicTable.Synced.encodeHeader (h : Synced te td) {flags : Flags} (hflags : flags.Consistent) (name value : Bytes) :
    Synced (encodeHeader te flags name value).2 (decoderTable te td flags name value) := by
  rw [encodeHeader_table, decoderTable, hflags.indexed_eq]
  split
  · exact h.add name value
  · exact h

theorem DynamicTable.Covers.encodeHeader (h : Covers te td) {flags : Flags} (hflags : flags.Consistent) (name value : Bytes) :
    Covers (encodeHeader te flags name value).2 (decoderTable te td flags name value) := by
  rw [encodeHeader_table, decoderTable, hflags.indexed_eq]
  split
  · exact h.add name value
  · exact h

/-- A condition on the encoder's table and the header that is encoded next, for each header of a list. -/
def Along (ok : DynamicTable → Bytes × Bytes → Prop) (flags : Flags) (te : DynamicTable) : Headers → Prop
  | [] => True
  | hdr :: hdrs => ok te hdr ∧ Along ok flags (encodeHeader te flags hdr.1 hdr.2).2 hdrs

theorem along_of_forall {ok : DynamicTable → Bytes × Bytes → Prop} (h : ∀ te hdr, ok te hdr) (flags : Flags)
    (hdrs : Headers) (te : DynamicTable) : Along ok flags te hdrs := by
  induction hdrs generalizing te with
  | nil => trivial
  | cons hdr hdrs ih => exact ⟨h te hdr, ih _⟩

section

variable {flags : Flags} {R : DynamicTable → DynamicTable → Prop} {P : DynamicTable → Bytes × Bytes → Prop}
  (hcovers : ∀ te td, R te td → Covers te td)
  (hstep : ∀ te td hdr, R te td → P te hdr →
    R (encodeHeader te flags hdr.1 hdr.2).2 (decoderTable te td flags hdr.1 hdr.2))

include hcovers hstep

/-- A handler sees what was sent, and what every header preserves of the tables holds as long as it does not fail. -/
theorem decodeLoop_encodeHeaders : ∀ {hdrs : Headers} {te td : DynamicTable} (_ : R te td) (_ : AllAddressable hdrs)
    (_ : Along P flags te hdrs) (s : σ),
    ∃ td', decodeLoop onField td (encodeHeaders te flags hdrs).1 s =
        ((applyFields onField s (hdrs.map (sentField flags.neverIndexed))).1,
          (applyFields onField s (hdrs.map (sentField flags.neverIndexed))).2, td') ∧
      ((applyFields onField s (hdrs.map (sentField flags.neverIndexed))).2 = none →
        R (encodeHeaders te flags hdrs).2 td')
  | [], te, td, h, _, _, s => ⟨td, by simp [encodeHeaders, decodeLoop_nil, applyFields], fun _ => h⟩
  | hdr :: hdrs, te, td, h, haddr, halong, s => by
      obtain ⟨hn, hv⟩ := haddr hdr (by simp)
      have hdec := decodeHeader_encode (hcovers te td h) flags hn hv
        (encodeHeaders (encodeHeader te flags hdr.1 hdr.2).2 flags hdrs).1
      simp only [encodeHeaders, List.map_cons, applyFields, sentField]
      rw [decodeLoop_ok onField hdec]
      rcases onField s (toLower hdr.1) (sentValue flags.neverIndexed hdr.1 hdr.2) with ⟨s', _ | error⟩
      · simp only [List.drop_left]
        exact decodeLoop_encodeHeaders (hstep te td hdr h halong.1)
          (fun x hx => haddr x (List.mem_cons_of_mem _ hx)) halong.2 s'
      · exact ⟨_, rfl, by simp⟩

end

/-- From equal tables, a handler that does not fail leaves equal tables. -/
theorem decodeLoop_encodeHeaders_synced {flags : Flags} (hflags : flags.Consistent) {hdrs : Headers} (h : Synced te td)
    (haddr : AllAddressable hdrs) (s : σ) :
    ∃ td', decodeLoop onField td (encodeHeaders te flags hdrs).1 s =
        ((applyFields onField s (hdrs.map (sentField flags.neverIndexed))).1,
          (applyFields onField s (hdrs.map (sentField flags.neverIndexed))).2, td') ∧
      ((applyFields onField s (hdrs.map (sentField flags.neverIndexed))).2 = none →
        Synced (encodeHeaders te flags hdrs).2 td') :=
  decodeLoop_encodeHeaders (P := fun _ _ => True) onField (fun _ _ h => h.covers)
    (fun _ _ hdr h _ => h.encodeHeader hflags hdr.1 hdr.2) h haddr (along_of_forall (fun _ _ => trivial) flags hdrs te) s

theorem applyFields_append (fields pre : Headers) :
    applyFields (fun fields name value => (fields ++ [(name, value)], none)) pre fields = (pre ++ fields, none) := by
  induction fields generalizing pre with
  | nil => simp [applyFields]
  | cons f fields ih => rw [applyFields]; simp [ih]

theorem decodeFields_encodeHeaders {flags : Flags} (hflags : flags.Consistent) {hdrs : Headers} (h : Synced te td)
    (haddr : AllAddressable hdrs) :
    ∃ td', decodeFields td (encodeHeaders te flags hdrs).1 = (hdrs.map (sentField flags.neverIndexed), none, td') ∧
      Synced (encodeHeaders te flags hdrs).2 td' := by
  obtain ⟨td', heq, hsync⟩ := decodeLoop_encodeHeaders_synced
    (fun (fields : Headers) name value => (fields ++ [(name, value)], none)) hflags h haddr []
  rw [applyFields_append, List.nil_append] at heq hsync
  exact ⟨td', heq, hsync rfl⟩

end Rad.Hpack
