import Rad.Hpack.Lemmas.Tables
import Rad.Hpack.Lemmas.Wire

/-!
# The encoder's and the decoder's table

The decoder's table is the encoder's with lowercased names, or it has older entries besides when the encoder's limit is
smaller. Either way what the encoder sends for a header is read as that header. Equal tables change in the same way
unless the flags contradict each other.
-/

namespace Rad.Hpack

open Lib Http BoundedFifo

/-! ## Equal tables -/

/-- A header as the decoder names it. -/
def foldName (header : Bytes × Bytes) : Bytes × Bytes := (toLower header.1, header.2)

theorem headerSize_foldName (header : Bytes × Bytes) : headerSize (foldName header) = headerSize header := by
  simp [headerSize, foldName]

@[simp] theorem foldName_foldName (header : Bytes × Bytes) : foldName (foldName header) = foldName header := by
  simp [foldName]

namespace DynamicTable

/-- The entries, oldest first, as iterating over `headers()` reads them. -/
def entries (t : DynamicTable) : Headers := t.headers.range.filterMap id

/-- A table that calls of `set_max_size` and `add` can build from a fresh one. -/
inductive Reachable : DynamicTable → Prop
  | fresh : Reachable {}
  | setMaxSize {t : DynamicTable} (n : Nat) (hn : n < 2 ^ 64) : Reachable t → Reachable (t.setMaxSize n)
  | add {t : DynamicTable} (name value : Bytes) : Reachable t → Reachable (t.add name value)

theorem Holds.entries_eq {t : DynamicTable} {l : Headers} (h : t.Holds l) : t.entries = l := by
  rcases h.stores with ⟨hn, rfl⟩ | hr
  · rw [entries, hn]; rfl
  · rw [entries, hr.range_eq]; simp

theorem Reachable.invariant {t : DynamicTable} (h : t.Reachable) : t.Holds t.entries ∧ t.maxSize < 2 ^ 64 := by
  suffices hex : ∃ l, t.Holds l ∧ t.maxSize < 2 ^ 64 by
    obtain ⟨l, hl, hm⟩ := hex
    exact ⟨by rwa [hl.entries_eq], hm⟩
  induction h with
  | fresh => exact ⟨[], Holds.fresh, by simp⟩
  | setMaxSize n hn _ ih =>
      obtain ⟨l, hl, -⟩ := ih
      exact ⟨_, (hl.setMaxSize n).1, by rw [(hl.setMaxSize n).2]; exact hn⟩
  | add name value _ ih =>
      obtain ⟨l, hl, hm⟩ := ih
      exact ⟨_, (hl.add name value).1, by rw [(hl.add name value).2]; exact hm⟩

/-- The same entries, names up to case and values exactly, with the same sizes. -/
structure Same (te td : DynamicTable) : Prop where
  entries_eq : te.entries.map foldName = td.entries.map foldName
  headersSize_eq : te.headersSize = td.headersSize
  maxSize_eq : te.maxSize = td.maxSize

instance (te td : DynamicTable) : Decidable (Same te td) :=
  decidable_of_iff (te.entries.map foldName = td.entries.map foldName ∧ te.headersSize = td.headersSize ∧
    te.maxSize = td.maxSize) ⟨fun h => ⟨h.1, h.2.1, h.2.2⟩, fun h => ⟨h.1, h.2, h.3⟩⟩

/-- The tables of an encoder and of a decoder, reachable and equal. -/
structure Synced (te td : DynamicTable) : Prop where
  encoder : te.Reachable
  decoder : td.Reachable
  same : Same te td

theorem Synced.fresh {n : Nat} (hn : n < 2 ^ 64) : Synced (({} : DynamicTable).setMaxSize n) (({} : DynamicTable).setMaxSize n) :=
  ⟨.setMaxSize n hn .fresh, .setMaxSize n hn .fresh, ⟨rfl, rfl, rfl⟩⟩

variable {te td : DynamicTable}

theorem Synced.add (h : Synced te td) (name value : Bytes) :
    Synced (te.add name value) (td.add (toLower name) value) := by
  obtain ⟨hle, -⟩ := h.encoder.invariant
  obtain ⟨hld, -⟩ := h.decoder.invariant
  obtain ⟨he, hme⟩ := hle.add name value
  obtain ⟨hd, hmd⟩ := hld.add (toLower name) value
  have hfold : (toLower name, value) = foldName (name, value) := rfl
  have hentries : (insert headerSize te.maxSize te.entries (name, value)).map foldName =
      (insert headerSize td.maxSize td.entries (toLower name, value)).map foldName := by
    rw [← insert_map headerSize_foldName, ← insert_map headerSize_foldName, h.same.entries_eq, h.same.maxSize_eq,
      hfold, foldName_foldName]
  refine ⟨.add _ _ h.encoder, .add _ _ h.decoder, ?_, ?_, ?_⟩
  · rw [he.entries_eq, hd.entries_eq, hentries]
  · rw [he.size_eq, hd.size_eq, ← total_map headerSize_foldName, ← total_map headerSize_foldName (l := insert _ _ _ _),
      hentries]
  · rw [hme, hmd, h.same.maxSize_eq]

/-! ## A decoder with older entries -/

/-- The decoder's table has the entries of the encoder's as its newest ones, within a limit that is not smaller. -/
structure Covers (te td : DynamicTable) : Prop where
  encoder : te.Reachable
  decoder : td.Reachable
  newest : te.entries.map foldName <:+ td.entries.map foldName
  maxSize_le : te.maxSize ≤ td.maxSize

theorem Synced.covers (h : Synced te td) : Covers te td :=
  ⟨h.encoder, h.decoder, h.same.entries_eq ▸ List.suffix_rfl, Nat.le_of_eq h.same.maxSize_eq⟩

theorem Covers.add (h : Covers te td) (name value : Bytes) :
    Covers (te.add name value) (td.add (toLower name) value) := by
  obtain ⟨hle, -⟩ := h.encoder.invariant
  obtain ⟨hld, -⟩ := h.decoder.invariant
  obtain ⟨he, hme⟩ := hle.add name value
  obtain ⟨hd, hmd⟩ := hld.add (toLower name) value
  have hfold : foldName (toLower name, value) = foldName (name, value) := foldName_foldName (name, value)
  refine ⟨.add _ _ h.encoder, .add _ _ h.decoder, ?_, ?_⟩
  · rw [he.entries_eq, hd.entries_eq, ← insert_map headerSize_foldName, ← insert_map headerSize_foldName, hfold]
    exact insert_suffix_insert h.maxSize_le h.newest _
  · rw [hme, hmd]
    exact h.maxSize_le

theorem Covers.setMaxSize (h : Covers te td) {n : Nat} (hn : n ≤ td.maxSize) : Covers (te.setMaxSize n) td := by
  obtain ⟨hle, -⟩ := h.encoder.invariant
  obtain ⟨-, hmd⟩ := h.decoder.invariant
  obtain ⟨he, hme⟩ := hle.setMaxSize n
  refine ⟨.setMaxSize n (by omega) h.encoder, h.decoder, ?_, by rw [hme]; exact hn⟩
  rw [he.entries_eq, ← evict_map headerSize_foldName]
  exact (evict_suffix _ _).trans h.newest

/-! ## Indexes -/

theorem predefined_length : predefinedHttp2Headers.length = 61 := by decide

theorem predefined_lower {e : Bytes × Bytes} (he : e ∈ predefinedHttp2Headers) : toLower e.1 = e.1 := by
  have h : ∀ e ∈ predefinedHttp2Headers, toLower e.1 = e.1 := by decide
  exact h e he

/-- The index that the encoder computes for a position in its table leads the decoder to the same entry. -/
theorem Covers.headerAt_position (h : Covers te td) {i : Nat} {e : Bytes × Bytes} (hi : te.entries[i]? = some e) :
    headerAt td (te.entries.length - i + 61) = some (foldName e) := by
  obtain ⟨hld, -⟩ := h.decoder.invariant
  obtain ⟨older, hnewest⟩ := h.newest
  have hlt : i < te.entries.length := (List.getElem?_eq_some_iff.mp hi).1
  have hlen : older.length + te.entries.length = td.entries.length := by simpa using congrArg List.length hnewest
  have hmap : (td.entries[older.length + i]?).map foldName = some (foldName e) := by
    rw [← List.getElem?_map, ← hnewest, List.getElem?_append_right (by omega), Nat.add_sub_cancel_left,
      List.getElem?_map, hi, Option.map_some]
  have hindex : te.entries.length - i + 61 = td.entries.length - (older.length + i) + 61 := by omega
  rw [headerAt, predefined_length, if_neg (by omega), hindex, hld.getHeader_indexOf (by omega)]
  exact hmap

theorem Covers.position_lt (h : Covers te td) (i : Nat) : te.entries.length - i + 61 < 2 ^ 64 := by
  obtain ⟨hle, hm⟩ := h.encoder.invariant
  have := hle.length_le
  omega

theorem Covers.headerAt_find (h : Covers te td) {name value : Bytes} {k : Nat} (hk : te.find name value = some k) :
    k ≠ 0 ∧ k < 2 ^ 64 ∧ headerAt td k = some (toLower name, value) := by
  obtain ⟨hle, -⟩ := h.encoder.invariant
  rw [hle.find_eq] at hk
  obtain ⟨i, hf, rfl⟩ := Option.map_eq_some_iff.mp hk
  obtain ⟨hi, hp, -⟩ := List.findIdx?_eq_some_iff_getElem.mp hf
  simp only [Bool.and_eq_true, beq_iff_eq, iequal_iff] at hp
  refine ⟨by omega, h.position_lt i, ?_⟩
  rw [h.headerAt_position (List.getElem?_eq_getElem hi), foldName, ← hp.1, ← hp.2]

theorem Covers.headerAt_findName (h : Covers te td) {name : Bytes} {k : Nat} (hk : te.findName name = some k) :
    k ≠ 0 ∧ k < 2 ^ 64 ∧ ∃ value, headerAt td k = some (toLower name, value) := by
  obtain ⟨hle, -⟩ := h.encoder.invariant
  rw [hle.findName_eq] at hk
  obtain ⟨i, hf, rfl⟩ := Option.map_eq_some_iff.mp hk
  obtain ⟨hi, hp, -⟩ := List.findIdx?_eq_some_iff_getElem.mp hf
  rw [iequal_iff] at hp
  exact ⟨by omega, h.position_lt i, te.entries[i].2,
    by rw [h.headerAt_position (List.getElem?_eq_getElem hi), foldName, ← hp]⟩

end DynamicTable

open DynamicTable

/-! ## What a header is sent as -/

/-- The static table's entry that matches a header up to case. -/
def staticEntry (name value : Bytes) : Option (Bytes × Bytes) :=
  predefinedHttp2Headers.find? fun header => iequal header.1 name && iequal header.2 value

/-- The value that arrives: the static table's spelling, unless the header is never indexed. -/
def sentValue (neverIndexed : Bool) (name value : Bytes) : Bytes :=
  if neverIndexed then value else ((staticEntry name value).map Prod.snd).getD value

/-- The field that arrives for a header. -/
def sentField (neverIndexed : Bool) (header : Bytes × Bytes) : Bytes × Bytes :=
  (toLower header.1, sentValue neverIndexed header.1 header.2)

theorem headerAt_predefined (t : DynamicTable) {i : Nat} {e : Bytes × Bytes}
    (hi : predefinedHttp2Headers[i]? = some e) : headerAt t (i + 1) = some e := by
  have hlt := (List.getElem?_eq_some_iff.mp hi).1
  rw [headerAt, Nat.add_sub_cancel, if_pos hlt, hi]

theorem headerAt_static (t : DynamicTable) {name value : Bytes} {k : Nat}
    (hk : findPredefinedHttp2Header name value = some k) :
    k ≠ 0 ∧ k < 2 ^ 64 ∧ headerAt t k = some (toLower name, sentValue false name value) := by
  obtain ⟨i, hf, rfl⟩ := Option.map_eq_some_iff.mp hk
  obtain ⟨hi, hp, -⟩ := List.findIdx?_eq_some_iff_getElem.mp hf
  rw [predefined_length] at hi
  have hentry : staticEntry name value = predefinedHttp2Headers[i]? := by
    rw [staticEntry, List.find?_eq_bind_findIdx?_getElem?, hf]; rfl
  have hget := List.getElem?_eq_getElem (l := predefinedHttp2Headers) (i := i) (by rw [predefined_length]; exact hi)
  simp only [Bool.and_eq_true, iequal_iff, predefined_lower (List.getElem_mem _)] at hp
  refine ⟨by omega, by omega, ?_⟩
  rw [headerAt_predefined t hget, sentValue, hentry, hget, ← hp.1]
  rfl

theorem sentValue_of_none {neverIndexed : Bool} {name value : Bytes}
    (h : neverIndexed = true ∨ findPredefinedHttp2Header name value = none) :
    sentValue neverIndexed name value = value := by
  unfold sentValue
  rcases h with rfl | h
  · rfl
  · have hnone : staticEntry name value = none := by
      rw [staticEntry, List.find?_eq_bind_findIdx?_getElem?, Option.map_eq_none_iff.mp h]; rfl
    rw [hnone]; split <;> rfl

theorem headerAt_staticName (t : DynamicTable) {name : Bytes} {k : Nat} (hk : findPredefinedHttp2Name name = some k) :
    k ≠ 0 ∧ k < 2 ^ 64 ∧ ∃ value, headerAt t k = some (toLower name, value) := by
  obtain ⟨i, hf, rfl⟩ := Option.map_eq_some_iff.mp hk
  obtain ⟨hi, hp, -⟩ := List.findIdx?_eq_some_iff_getElem.mp hf
  rw [predefined_length] at hi
  have hget := List.getElem?_eq_getElem (l := predefinedHttp2Headers) (i := i) (by rw [predefined_length]; exact hi)
  rw [iequal_iff, predefined_lower (List.getElem_mem _)] at hp
  exact ⟨by omega, by omega, _, by rw [headerAt_predefined t hget, ← hp]⟩

/-! ## One header -/

/-- The index of a header that the encoder finds whole in one of its tables. -/
def wholeIndex (t : DynamicTable) (neverIndexed : Bool) (name value : Bytes) : Option Nat :=
  if neverIndexed then none else (findPredefinedHttp2Header name value).or (t.find name value)

/-- The index of the name in one of the tables. -/
def nameIndex (t : DynamicTable) (name : Bytes) : Option Nat := (findPredefinedHttp2Name name).or (t.findName name)

/-- The bytes of a literal up to its value. -/
def sentName (t : DynamicTable) (flags : Flags) (name : Bytes) : Bytes :=
  encodeNameIndex flags.indexed flags.neverIndexed ((nameIndex t name).getD 0) ++
    (if (nameIndex t name).isNone then encodeLengthString (toLower name) flags.huffman else [])

theorem encodeHeader_of_some {t : DynamicTable} {flags : Flags} {name value : Bytes} {k : Nat}
    (h : wholeIndex t flags.neverIndexed name value = some k) :
    encodeHeader t flags name value = ((hpackEncodeInteger 7 k).modifyHead (· ||| 0x80), t) := by
  rw [wholeIndex] at h
  simp only [encodeHeader, h]

theorem encodeHeader_of_none {t : DynamicTable} {flags : Flags} {name value : Bytes}
    (h : wholeIndex t flags.neverIndexed name value = none) :
    encodeHeader t flags name value =
      (sentName t flags name ++ encodeLengthString value flags.huffman,
        if flags.indexed then t.add name value else t) := by
  rw [wholeIndex] at h
  simp only [encodeHeader, h]
  rfl

theorem encodeHeader_table (t : DynamicTable) (flags : Flags) (name value : Bytes) :
    (encodeHeader t flags name value).2 =
      if wholeIndex t flags.neverIndexed name value = none ∧ flags.indexed then t.add name value else t := by
  rcases hw : wholeIndex t flags.neverIndexed name value with _ | k
  · rw [encodeHeader_of_none hw]; simp
  · rw [encodeHeader_of_some hw]; simp

section

variable {te td : DynamicTable} {name value : Bytes}

theorem DynamicTable.Covers.headerAt_whole (h : Covers te td) {never : Bool} {k : Nat}
    (hk : wholeIndex te never name value = some k) :
    k ≠ 0 ∧ k < 2 ^ 64 ∧ headerAt td k = some (toLower name, sentValue never name value) := by
  unfold wholeIndex at hk
  cases never
  · rw [if_neg (by simp)] at hk
    rcases hs : findPredefinedHttp2Header name value with _ | j
    · rw [hs, Option.none_or] at hk
      rw [sentValue_of_none (Or.inr hs)]
      exact h.headerAt_find hk
    · rw [hs, Option.some_or, Option.some.injEq] at hk
      subst hk
      exact headerAt_static td hs
  · simp at hk

theorem sentValue_of_wholeIndex {never : Bool} (h : wholeIndex te never name value = none) :
    sentValue never name value = value := by
  refine sentValue_of_none ?_
  cases never
  · right
    rw [wholeIndex, if_neg (by simp)] at h
    exact (Option.or_eq_none_iff.mp h).1
  · exact Or.inl rfl

theorem DynamicTable.Covers.headerAt_name (h : Covers te td) {k : Nat} (hk : nameIndex te name = some k) :
    k ≠ 0 ∧ k < 2 ^ 64 ∧ ∃ value, headerAt td k = some (toLower name, value) := by
  rw [nameIndex] at hk
  rcases hs : findPredefinedHttp2Name name with _ | j
  · rw [hs, Option.none_or] at hk
    exact h.headerAt_findName hk
  · rw [hs, Option.some_or, Option.some.injEq] at hk
    exact headerAt_staticName td (hk ▸ hs)

theorem DynamicTable.Covers.nameIndex_lt (h : Covers te td) (name : Bytes) : (nameIndex te name).getD 0 < 2 ^ 64 := by
  rcases hi : nameIndex te name with _ | k
  · simp
  · exact (h.headerAt_name hi).2.1

theorem decodeHeaderName_encode (h : Covers te td) (flags : Flags) (hname : Addressable name) :
    ∃ b tail, sentName te flags name = b :: tail ∧ (b >>> 5 == 1) = false ∧ (b &&& 128 != 0) = false ∧
      ∀ rest, decodeHeaderName td (b :: (tail ++ rest)) =
        .ok ⟨(b :: tail).length, toLower name, flags.indexed && !flags.neverIndexed, flags.neverIndexed⟩ := by
  obtain ⟨b, tail, heq, hbyte, hdec⟩ := encodeNameIndex_spec flags (h.nameIndex_lt name)
  have hdrop : ∀ more, (b :: (tail ++ more)).drop (b :: tail).length = more := by intro more; simp
  unfold sentName
  rw [heq]
  rcases hi : nameIndex te name with _ | k
  · rw [hi, Option.getD_none] at hdec
    refine ⟨b, tail ++ encodeLengthString (toLower name) flags.huffman, rfl, hbyte.noUpdate, hbyte.noIndex, ?_⟩
    intro rest
    have haddr : Addressable (toLower name) := by unfold Addressable at hname ⊢; simpa using hname
    simp only [List.append_assoc, decodeHeaderName, hbyte.indexed_eq, hbyte.plain, hbyte.never_eq, hdec,
      Bool.false_eq_true, if_false, ne_eq, not_true_eq_false, hdrop, decodeLengthString_encode haddr]
    simp only [List.length_cons, List.length_append, Except.ok.injEq, NameRead.mk.injEq, and_true]
    omega
  · rw [hi, Option.getD_some] at hdec
    obtain ⟨hk0, -, value, hat⟩ := h.headerAt_name hi
    refine ⟨b, tail, by simp, hbyte.noUpdate, hbyte.noIndex, ?_⟩
    intro rest
    simp only [decodeHeaderName, hbyte.indexed_eq, hbyte.plain, hbyte.never_eq, hdec,
      Bool.false_eq_true, if_false, ne_eq, hk0, not_false_eq_true, if_true, hat]

/-- The decoder's table after a header: it is added exactly when it is sent as a literal with indexing. -/
def decoderTable (te td : DynamicTable) (flags : Flags) (name value : Bytes) : DynamicTable :=
  if wholeIndex te flags.neverIndexed name value = none ∧ (flags.indexed && !flags.neverIndexed) then
    td.add (toLower name) value
  else td

/-- From tables that agree on the newest entries, what is sent for a header is read as that header. -/
theorem decodeHeader_encode (h : Covers te td) (flags : Flags) (hname : Addressable name) (hvalue : Addressable value)
    (rest : Bytes) :
    decodeHeader td ((encodeHeader te flags name value).1 ++ rest) =
      .ok ⟨(encodeHeader te flags name value).1.length, toLower name, sentValue flags.neverIndexed name value,
        decoderTable te td flags name value⟩ := by
  rcases hw : wholeIndex te flags.neverIndexed name value with _ | k
  · obtain ⟨b, tail, hsent, hupd, hidx, hdec⟩ := decodeHeaderName_encode h flags hname
    have hdrop : ∀ more, (b :: (tail ++ more)).drop (b :: tail).length = more := by intro more; simp
    rw [encodeHeader_of_none hw, sentValue_of_wholeIndex hw, hsent]
    simp only [List.cons_append, List.append_assoc, decodeHeader, hupd, hidx, hdec, Bool.false_eq_true, if_false,
      hdrop, decodeLengthString_encode hvalue, decoderTable, hw, true_and]
    simp only [List.length_cons, List.length_append, Except.ok.injEq, HeaderRead.mk.injEq, true_and]
    refine ⟨by omega, ?_⟩
    cases flags.indexed <;> cases flags.neverIndexed <;> rfl
  · obtain ⟨hk0, hlt, hat⟩ := h.headerAt_whole hw
    obtain ⟨b, tail, hb, heq, hdec⟩ := hpackEncodeInteger_modifyHead (n := 7) (by omega) hlt
      (f := fun b => b ||| 0x80) fun b hb => (indexByte_spec hb).1
    obtain ⟨-, hbit, hupd⟩ := indexByte_spec hb
    rw [encodeHeader_of_some hw, heq]
    simp only [List.cons_append, decodeHeader, hupd, hbit, hdec, Bool.false_eq_true, if_false, if_true, hk0, hat,
      decoderTable, hw, reduceCtorEq, false_and]

end

end Rad.Hpack
