import Rad.Hpack.Lemmas.Blocks
import Rad.Http.Lemmas.Headers

/-!
# HPACK: the codec as a whole

An encoder and a decoder that start with the same table size and exchange blocks.
-/

namespace Rad.Hpack

open Http DynamicTable Lib BoundedFifo

/-! ## Exchanges of blocks -/

/-- A header list with the flags that it is encoded with. -/
structure Block where
  headers : Headers
  flags : Flags := {}

/-- The fields that a block is to be decoded to: lowercased names, and the static table's spelling of a value that it
matches. -/
def Block.fields (b : Block) : Headers := b.headers.map (sentField b.flags.neverIndexed)

/-- What an exchange of one block ends with. -/
structure Exchange where
  block : Block
  decoded : Headers
  error : Option DecodeError
  encoder : HpackEncoder
  decoder : HpackDecoder

/-- Encodes blocks one after the other and feeds them to the decoder. -/
def exchange (e : HpackEncoder) (d : HpackDecoder) : List Block → List Exchange
  | [] => []
  | b :: blocks =>
    let sent := e.encode b.headers b.flags
    let got := d.decode sent.1 []
    ⟨b, got.1, got.2.1, sent.2, got.2.2⟩ :: exchange sent.2 got.2.2 blocks

/-- The block arrives in order and without error, and the tables are equal. -/
structure Exchange.Faithful (x : Exchange) : Prop where
  error_eq : x.error = none
  decoded_eq : x.decoded = x.block.fields
  same : Same x.encoder.dynamicTable x.decoder.dynamicTable

instance (x : Exchange) : Decidable x.Faithful :=
  decidable_of_iff (x.error = none ∧ x.decoded = x.block.fields ∧
    Same x.encoder.dynamicTable x.decoder.dynamicTable) ⟨fun h => ⟨h.1, h.2.1, h.2.2⟩, fun h => ⟨h.1, h.2, h.3⟩⟩

theorem applyFields_insert (fields hdrs : Headers) :
    applyFields (fun (hdrs : Headers) name value => (hdrs.insert name value, none)) hdrs fields =
      (hdrs.insertAll fields, none) := by
  induction fields generalizing hdrs with
  | nil => rfl
  | cons f fields ih => rw [applyFields, Headers.insertAll_cons]; exact ih _

/-- What a relation between the tables that every header of a block preserves says about the block. -/
theorem decode_encode_of_preserved {R : DynamicTable → DynamicTable → Prop} {e : HpackEncoder} {d : HpackDecoder}
    {b : Block} {P : DynamicTable → Bytes × Bytes → Prop} (hcovers : ∀ te td, R te td → Covers te td)
    (hstep : ∀ te td hdr, R te td → P te hdr →
      R (encodeHeader te b.flags hdr.1 hdr.2).2 (decoderTable te td b.flags hdr.1 hdr.2))
    (h : R e.dynamicTable d.dynamicTable) (haddr : AllAddressable b.headers)
    (halong : Along P b.flags e.dynamicTable b.headers) :
    (d.decode (e.encode b.headers b.flags).1 []).1 = Headers.insertAll [] b.fields ∧
      (d.decode (e.encode b.headers b.flags).1 []).2.1 = none ∧
      R (e.encode b.headers b.flags).2.dynamicTable
        (d.decode (e.encode b.headers b.flags).1 []).2.2.dynamicTable := by
  obtain ⟨td', heq, hkept⟩ := decodeLoop_encodeHeaders
    (fun (hdrs : Headers) name value => (hdrs.insert name value, none)) hcovers hstep h haddr halong []
  rw [applyFields_insert] at heq hkept
  simp only [HpackDecoder.decode, HpackEncoder.encode, heq, true_and]
  exact ⟨rfl, hkept rfl⟩

theorem decode_encode {e : HpackEncoder} {d : HpackDecoder} {b : Block} (h : Synced e.dynamicTable d.dynamicTable)
    (hflags : b.flags.Consistent) (haddr : AllAddressable b.headers) :
    (d.decode (e.encode b.headers b.flags).1 []).1 = Headers.insertAll [] b.fields ∧
      (d.decode (e.encode b.headers b.flags).1 []).2.1 = none ∧
      Synced (e.encode b.headers b.flags).2.dynamicTable
        (d.decode (e.encode b.headers b.flags).1 []).2.2.dynamicTable :=
  decode_encode_of_preserved (P := fun _ _ => True) (fun _ _ h => h.covers)
    (fun _ _ hdr h _ => h.encodeHeader hflags hdr.1 hdr.2) h haddr (along_of_forall (fun _ _ => trivial) _ _ _)

/-- Along every exchange no block is refused and the tables stay equal; a block arrives as it was sent exactly when its
fields keep their order under insertion. -/
theorem exchange_mem : ∀ {blocks : List Block} {e : HpackEncoder} {d : HpackDecoder},
    Synced e.dynamicTable d.dynamicTable → (∀ b ∈ blocks, b.flags.Consistent) →
      (∀ b ∈ blocks, AllAddressable b.headers) →
      (exchange e d blocks).map Exchange.block = blocks ∧
        ∀ x ∈ exchange e d blocks, x.Faithful ↔ Headers.KeepsOrder x.block.fields
  | [], _, _, _, _, _ => ⟨rfl, by simp [exchange]⟩
  | b :: blocks, e, d, h, hflags, haddr => by
      obtain ⟨hdec, herr, hsync⟩ := decode_encode h (hflags b (by simp)) (haddr b (by simp))
      obtain ⟨hmap, hrest⟩ := @exchange_mem blocks _ _ hsync (fun x hx => hflags x (by simp [hx]))
        fun x hx => haddr x (by simp [hx])
      refine ⟨by rw [exchange, List.map_cons, hmap], ?_⟩
      intro x hx
      rcases List.mem_cons.mp hx with rfl | hx
      · rw [← Headers.insertAll_eq_self_iff]
        exact ⟨fun hf => hdec.symm.trans hf.decoded_eq, fun heq => ⟨herr, hdec.trans heq, hsync.same⟩⟩
      · exact hrest x hx

/-- A fresh encoder and a fresh decoder with the same table size: every block arrives as it was sent if and only if in
every block the fields of one name stand next to each other and all of them but the first read the same backwards. -/
theorem exchange_faithful_iff {n : Nat} (hn : n < 2 ^ 64) {blocks : List Block}
    (hflags : ∀ b ∈ blocks, b.flags.Consistent) (haddr : ∀ b ∈ blocks, AllAddressable b.headers) :
    (∀ x ∈ exchange (HpackEncoder.setMaxTableSize {} n) (HpackDecoder.setMaxTableSize {} n) blocks, x.Faithful) ↔
      ∀ b ∈ blocks, Headers.KeepsOrder b.fields := by
  obtain ⟨hmap, hall⟩ := exchange_mem (e := HpackEncoder.setMaxTableSize {} n) (d := HpackDecoder.setMaxTableSize {} n)
    (Synced.fresh hn) hflags haddr
  constructor
  · intro h b hb
    rw [← hmap] at hb
    obtain ⟨x, hx, rfl⟩ := List.mem_map.mp hb
    exact (hall x hx).mp (h x hx)
  · intro h x hx
    exact (hall x hx).mpr (h _ (hmap ▸ List.mem_map_of_mem hx))

/-- Two blocks, the second of which refers to what the first has added to the tables. -/
def twoBlocks : List Block :=
  [⟨[(ascii "X-Id", ascii "7"), (ascii "vary", ascii "*")], {}⟩,
    ⟨[(ascii "X-Id", ascii "7"), (ascii "X-Id", ascii "8")], { huffman := true }⟩]

theorem exchange_faithful_two_blocks :
    (exchange (HpackEncoder.setMaxTableSize {} 256) (HpackDecoder.setMaxTableSize {} 256) twoBlocks).length = 2 ∧
      ∀ x ∈ exchange (HpackEncoder.setMaxTableSize {} 256) (HpackDecoder.setMaxTableSize {} 256) twoBlocks, x.Faithful :=
  ⟨by decide, (exchange_faithful_iff (by decide) (by decide) (by decide)).mpr (by decide)⟩

/-- Three headers of one name: the third arrives before the second. -/
theorem exchange_reorders_three :
    ¬ ∀ x ∈ exchange (HpackEncoder.setMaxTableSize {} 4096) (HpackDecoder.setMaxTableSize {} 4096)
      [⟨[(ascii "a", ascii "1"), (ascii "a", ascii "2"), (ascii "a", ascii "3")], {}⟩], x.Faithful := by
  decide +kernel

/-! ## Values -/

/-- The header's value is spelled as in every static entry that it matches up to case. -/
def CaseExact (hdr : Bytes × Bytes) : Prop :=
  ∀ e ∈ predefinedHttp2Headers, iequal e.1 hdr.1 = true → iequal e.2 hdr.2 = true → e.2 = hdr.2

instance (hdr : Bytes × Bytes) : Decidable (CaseExact hdr) :=
  inferInstanceAs (Decidable (∀ e ∈ predefinedHttp2Headers, iequal e.1 hdr.1 = true → iequal e.2 hdr.2 = true →
    e.2 = hdr.2))

theorem predefined_caseExact {e : Bytes × Bytes} (he : e ∈ predefinedHttp2Headers) : CaseExact e := by
  have h : ∀ e ∈ predefinedHttp2Headers, CaseExact e := by decide +kernel
  exact h e he

theorem sentValue_eq_iff (hdr : Bytes × Bytes) : sentValue false hdr.1 hdr.2 = hdr.2 ↔ CaseExact hdr := by
  unfold sentValue
  rw [if_neg (by simp)]
  rcases hs : staticEntry hdr.1 hdr.2 with _ | e
  · rw [staticEntry, List.find?_eq_none] at hs
    refine iff_of_true rfl fun e he hn hv => ?_
    exact absurd (by simp [hn, hv]) (hs e he)
  · have hmem := List.mem_of_find?_eq_some hs
    have hp := List.find?_some hs
    simp only [Bool.and_eq_true] at hp
    constructor
    · intro heq e' he' hn hv
      rw [Option.map_some, Option.getD_some] at heq
      rw [iequal_iff] at hn
      have hn' : iequal e'.1 e.1 = true := by rw [iequal_iff, hn, iequal_iff.mp hp.1]
      rw [← heq] at hv ⊢
      exact predefined_caseExact hmem e' he' hn' hv
    · intro h
      exact h e hmem hp.1 hp.2

/-- Every value that is encoded without `never_indexed` is decoded to exactly itself if and only if no header matches a
static entry up to case while its value is spelled in other letter case. -/
theorem decoded_values_iff {e : HpackEncoder} {d : HpackDecoder} (h : Synced e.dynamicTable d.dynamicTable)
    {flags : Flags} (hnever : flags.neverIndexed = false) {hdrs : Headers} (haddr : AllAddressable hdrs) :
    ((decodeFields d.dynamicTable (e.encode hdrs flags).1).2.1 = none ∧
      (decodeFields d.dynamicTable (e.encode hdrs flags).1).1.map Prod.snd = hdrs.map Prod.snd) ↔
      ∀ hdr ∈ hdrs, CaseExact hdr := by
  have hflags : flags.Consistent := by simp [Flags.Consistent, hnever]
  obtain ⟨td', heq, -⟩ := decodeFields_encodeHeaders hflags h haddr
  simp only [HpackEncoder.encode, heq, hnever, List.map_map, true_and]
  rw [List.map_inj_left]
  refine forall₂_congr fun hdr _ => ?_
  rw [← sentValue_eq_iff]
  rfl

theorem decoded_values_accept :
    (decodeFields ({} : HpackDecoder).dynamicTable
        (HpackEncoder.encode {} [(ascii "Accept-Encoding", ascii "br"), (ascii ":method", ascii "GET")] {}).1).2.1 = none ∧
      (decodeFields ({} : HpackDecoder).dynamicTable
        (HpackEncoder.encode {} [(ascii "Accept-Encoding", ascii "br"), (ascii ":method", ascii "GET")] {}).1).1.map
          Prod.snd = [ascii "br", ascii "GET"] :=
  (decoded_values_iff (e := {}) (d := {}) ⟨.fresh, .fresh, ⟨rfl, rfl, rfl⟩⟩ rfl (by decide)).mpr
    (by decide)

/-- The method `get` arrives as `GET`. -/
theorem decoded_value_respelled :
    ¬ ((decodeFields ({} : HpackDecoder).dynamicTable
        (HpackEncoder.encode {} [(ascii ":method", ascii "get")] {}).1).2.1 = none ∧
      (decodeFields ({} : HpackDecoder).dynamicTable
        (HpackEncoder.encode {} [(ascii ":method", ascii "get")] {}).1).1.map Prod.snd = [ascii "get"]) := by
  decide +kernel

/-! ## Which headers are added to the tables -/

/-- Adding the header leaves the table as it is: the table is empty and the header is too large for it, or the table is
full of copies of the header and one of them makes room for it. -/
def AddLeavesTable (t : DynamicTable) (hdr : Bytes × Bytes) : Prop :=
  if headerSize hdr > t.maxSize then t.entries = []
  else t.entries ≠ [] ∧ (∀ e ∈ t.entries, foldName e = foldName hdr) ∧
    (t.entries.length + 1) * headerSize hdr > t.maxSize

theorem same_add_iff {te td : DynamicTable} (h : Synced te td) (name value : Bytes) :
    Same (te.add name value) td ↔ AddLeavesTable te (name, value) := by
  obtain ⟨hle, -⟩ := h.encoder.invariant
  obtain ⟨hld, -⟩ := h.decoder.invariant
  obtain ⟨he, hme⟩ := hle.add name value
  have htotal : total headerSize (te.entries.map foldName) ≤ te.maxSize := by
    rw [total_map headerSize_foldName, ← hle.size_eq]; exact hle.size_le
  have hiff := insert_eq_self_iff htotal (foldName (name, value))
  rw [insert_map headerSize_foldName] at hiff
  have hsame : Same (te.add name value) td ↔
      (insert headerSize te.maxSize te.entries (name, value)).map foldName = te.entries.map foldName := by
    constructor
    · intro hs
      rw [← he.entries_eq, hs.entries_eq, h.same.entries_eq]
    · intro heq
      refine ⟨by rw [he.entries_eq, heq, h.same.entries_eq], ?_, by rw [hme, h.same.maxSize_eq]⟩
      rw [he.size_eq, hld.size_eq, ← total_map headerSize_foldName, heq, h.same.entries_eq,
        total_map headerSize_foldName]
  rw [hsame, hiff, AddLeavesTable, headerSize_foldName]
  simp only [ne_eq, List.map_eq_nil_iff, List.length_map, List.forall_mem_map]

/-- From equal tables a header is always decoded, and the tables end equal if and only if the flags do not ask for
indexing and for no indexing at once, or adding the header leaves the table as it is. -/
theorem tables_same_iff {te td : DynamicTable} (h : Synced te td) (flags : Flags) {name value : Bytes}
    (hname : Addressable name) (hvalue : Addressable value) :
    ∃ r, decodeHeader td (encodeHeader te flags name value).1 = .ok r ∧
      (Same (encodeHeader te flags name value).2 r.table ↔
        flags.Consistent ∨ AddLeavesTable te (name, value)) := by
  have hdec := decodeHeader_encode h.covers flags hname hvalue []
  rw [List.append_nil] at hdec
  refine ⟨_, hdec, ?_⟩
  by_cases hflags : flags.Consistent
  · exact iff_of_true (h.encodeHeader hflags name value).same (Or.inl hflags)
  · -- the literal is marked as never indexed, but the encoder adds it
    obtain ⟨hi, hn⟩ := not_not.mp hflags
    have hwhole : wholeIndex te flags.neverIndexed name value = none := by rw [wholeIndex, hn]; rfl
    have htd : decoderTable te td flags name value = td := by rw [decoderTable, hn]; simp
    rw [encodeHeader_table, if_pos ⟨hwhole, hi⟩, htd, same_add_iff h]
    exact ⟨Or.inr, fun hor => hor.resolve_left hflags⟩

theorem tables_same_indexed :
    ∃ r, decodeHeader (({} : DynamicTable).setMaxSize 256)
        (encodeHeader (({} : DynamicTable).setMaxSize 256) {} (ascii "x") (ascii "1")).1 = .ok r ∧
      Same (encodeHeader (({} : DynamicTable).setMaxSize 256) {} (ascii "x") (ascii "1")).2 r.table := by
  obtain ⟨r, hr, hiff⟩ := @tables_same_iff _ _ (Synced.fresh (n := 256) (by decide)) {} (ascii "x")
    (ascii "1") (by decide) (by decide)
  exact ⟨r, hr, hiff.mpr (Or.inl (by decide))⟩

/-- With both flags the encoder adds a header that the decoder does not. -/
theorem tables_differ_both_flags :
    ¬ ∃ r, decodeHeader (({} : DynamicTable).setMaxSize 256)
        (encodeHeader (({} : DynamicTable).setMaxSize 256) { indexed := true, neverIndexed := true } (ascii "x")
          (ascii "1")).1 = .ok r ∧
      Same (encodeHeader (({} : DynamicTable).setMaxSize 256) { indexed := true, neverIndexed := true } (ascii "x")
        (ascii "1")).2 r.table := by
  have h : (match decodeHeader (({} : DynamicTable).setMaxSize 256)
        (encodeHeader (({} : DynamicTable).setMaxSize 256) { indexed := true, neverIndexed := true } (ascii "x")
          (ascii "1")).1 with
      | .ok r => decide (Same (encodeHeader (({} : DynamicTable).setMaxSize 256)
          { indexed := true, neverIndexed := true } (ascii "x") (ascii "1")).2 r.table)
      | .error _ => false) = false := by
    decide
  rintro ⟨r, hr, hs⟩
  rw [hr] at h
  exact absurd hs (of_decide_eq_false h)

/-! ## HPACK: changes of the encoder's limit

An encoder whose limit changes between blocks, and a decoder with a fixed limit that sees the blocks alone. The encoder
never sends a size update, so the decoder keeps entries that the encoder has evicted.
-/

/-! ## Runs -/

inductive EncoderCall where
  | setMaxTableSize (n : Nat)
  | encode (block : Block)

/-- A call of the encoder, with what the decoder makes of the block. -/
structure CallResult where
  call : EncoderCall
  before : HpackEncoder
  decoded : Headers := []
  error : Option DecodeError := none
  encoder : HpackEncoder
  decoder : HpackDecoder

def calls (e : HpackEncoder) (d : HpackDecoder) : List EncoderCall → List CallResult
  | [] => []
  | .setMaxTableSize n :: rest =>
    { call := .setMaxTableSize n, before := e, encoder := e.setMaxTableSize n, decoder := d } ::
      calls (e.setMaxTableSize n) d rest
  | .encode b :: rest =>
    let sent := e.encode b.headers b.flags
    let got := d.decode sent.1 []
    { call := .encode b, before := e, decoded := got.1, error := got.2.1, encoder := sent.2, decoder := got.2.2 } ::
      calls sent.2 got.2.2 rest

/-- A call that the run may make: the limit is not above the decoder's, and `never_indexed` is not set. -/
def EncoderCall.Allowed (limit : Nat) : EncoderCall → Prop
  | .setMaxTableSize n => n ≤ limit
  | .encode b => b.flags.neverIndexed = false ∧ AllAddressable b.headers

instance (limit : Nat) : ∀ call : EncoderCall, Decidable (call.Allowed limit)
  | .setMaxTableSize n => inferInstanceAs (Decidable (n ≤ limit))
  | .encode b => inferInstanceAs (Decidable (b.flags.neverIndexed = false ∧ AllAddressable b.headers))

namespace CallResult

/-- A block is decoded without error, to the headers that were encoded if none of them is spelled otherwise in the static
table and inserting them keeps their order. -/
def Decoded (x : CallResult) : Prop :=
  x.error = none ∧ match x.call with
    | .setMaxTableSize _ => True
    | .encode b => (∀ hdr ∈ b.headers, CaseExact hdr) → Headers.KeepsOrder (b.headers.map foldName) →
        x.decoded = b.headers.map foldName

/-- The decoder's table ends with the entries of the encoder's. -/
def Newest (x : CallResult) : Prop :=
  x.encoder.dynamicTable.entries.map foldName <:+ x.decoder.dynamicTable.entries.map foldName

/-- The tables have the same entries and the same size. -/
def Equal (x : CallResult) : Prop :=
  x.encoder.dynamicTable.entries.map foldName = x.decoder.dynamicTable.entries.map foldName ∧
    x.encoder.dynamicTable.headersSize = x.decoder.dynamicTable.headersSize

instance (x : CallResult) : Decidable x.Equal :=
  inferInstanceAs (Decidable (x.encoder.dynamicTable.entries.map foldName =
    x.decoder.dynamicTable.entries.map foldName ∧
    x.encoder.dynamicTable.headersSize = x.decoder.dynamicTable.headersSize))

end CallResult

/-- A header that is added evicts under the encoder's limit what it evicts under the decoder's. -/
def AddFits (limit : Nat) (flags : Flags) (t : DynamicTable) (hdr : Bytes × Bytes) : Prop :=
  wholeIndex t flags.neverIndexed hdr.1 hdr.2 = none → flags.indexed = true →
    insert headerSize t.maxSize t.entries hdr = insert headerSize limit t.entries hdr

/-- The encoder evicts nothing that the decoder's limit would keep. -/
def CallResult.Fits (limit : Nat) (x : CallResult) : Prop :=
  match x.call with
  | .setMaxTableSize n => x.before.dynamicTable.headersSize ≤ n
  | .encode b => Along (AddFits limit b.flags) b.flags x.before.dynamicTable b.headers

/-! ## One call -/

/-- The tables of a run: the decoder's has the given limit. -/
structure Covered (limit : Nat) (te td : DynamicTable) : Prop where
  covers : Covers te td
  limit_eq : td.maxSize = limit

/-- Such tables with the same entries. -/
structure Matched (limit : Nat) (te td : DynamicTable) : Prop extends Covered limit te td where
  entries_eq : te.entries.map foldName = td.entries.map foldName

variable {limit : Nat} {te td : DynamicTable} {flags : Flags}

theorem decoderTable_maxSize (h : Covers te td) (hdr : Bytes × Bytes) :
    (decoderTable te td flags hdr.1 hdr.2).maxSize = td.maxSize := by
  unfold decoderTable
  split
  · exact (h.decoder.invariant.1.add _ _).2
  · rfl

theorem Covered.encodeHeader (hflags : flags.Consistent) (h : Covered limit te td) (hdr : Bytes × Bytes) :
    Covered limit (encodeHeader te flags hdr.1 hdr.2).2 (decoderTable te td flags hdr.1 hdr.2) :=
  ⟨h.covers.encodeHeader hflags hdr.1 hdr.2, (decoderTable_maxSize h.covers hdr).trans h.limit_eq⟩

theorem Matched.encodeHeader (hflags : flags.Consistent) (h : Matched limit te td) (hdr : Bytes × Bytes)
    (hfits : AddFits limit flags te hdr) :
    Matched limit (encodeHeader te flags hdr.1 hdr.2).2 (decoderTable te td flags hdr.1 hdr.2) := by
  refine ⟨h.toCovered.encodeHeader hflags hdr, ?_⟩
  rw [encodeHeader_table, decoderTable, hflags.indexed_eq]
  split
  · rename_i hadded
    obtain ⟨he, -⟩ := h.covers.encoder.invariant.1.add hdr.1 hdr.2
    obtain ⟨hd, -⟩ := h.covers.decoder.invariant.1.add (toLower hdr.1) hdr.2
    have hfold : foldName (toLower hdr.1, hdr.2) = foldName (hdr.1, hdr.2) := foldName_foldName (hdr.1, hdr.2)
    rw [he.entries_eq, hd.entries_eq, hfits hadded.1 hadded.2, ← insert_map headerSize_foldName,
      ← insert_map headerSize_foldName, hfold, h.entries_eq, h.limit_eq]
  · exact h.entries_eq

theorem Matched.equal (h : Matched limit te td) : te.headersSize = td.headersSize := by
  rw [h.covers.encoder.invariant.1.size_eq, h.covers.decoder.invariant.1.size_eq,
    ← total_map headerSize_foldName, h.entries_eq, total_map headerSize_foldName]

theorem Covered.setMaxSize (h : Covered limit te td) {n : Nat} (hn : n ≤ limit) : Covered limit (te.setMaxSize n) td :=
  ⟨h.covers.setMaxSize (by rw [h.limit_eq]; exact hn), h.limit_eq⟩

theorem Matched.setMaxSize (h : Matched limit te td) {n : Nat} (hn : n ≤ limit) (hfits : te.headersSize ≤ n) :
    Matched limit (te.setMaxSize n) td := by
  refine ⟨h.toCovered.setMaxSize hn, ?_⟩
  have hheld := h.covers.encoder.invariant.1
  rw [(hheld.setMaxSize n).1.entries_eq, evict_of_le (by rw [← hheld.size_eq]; exact hfits)]
  exact h.entries_eq

theorem fields_eq_of_caseExact {b : Block} (hnever : b.flags.neverIndexed = false)
    (hexact : ∀ hdr ∈ b.headers, CaseExact hdr) : b.fields = b.headers.map foldName := by
  refine List.map_congr_left fun hdr hmem => ?_
  rw [sentField, hnever, (sentValue_eq_iff hdr).2 (hexact hdr hmem), foldName]

/-! ## Whole runs -/

theorem calls_covered : ∀ {cs : List EncoderCall} {e : HpackEncoder} {d : HpackDecoder},
    Covered limit e.dynamicTable d.dynamicTable → (∀ c ∈ cs, c.Allowed limit) →
      ∀ x ∈ calls e d cs, x.Decoded ∧ x.Newest
  | [], _, _, _, _ => by simp [calls]
  | .setMaxTableSize n :: rest, e, d, h, hallowed => by
      have hn : n ≤ limit := hallowed (.setMaxTableSize n) (by simp)
      intro x hx
      rcases List.mem_cons.1 hx with rfl | hx
      · exact ⟨⟨rfl, trivial⟩, (h.setMaxSize hn).covers.newest⟩
      · exact calls_covered (h.setMaxSize hn) (fun c hc => hallowed c (by simp [hc])) x hx
  | .encode b :: rest, e, d, h, hallowed => by
      obtain ⟨hnever, haddr⟩ : b.flags.neverIndexed = false ∧ AllAddressable b.headers := hallowed (.encode b) (by simp)
      have hflags : b.flags.Consistent := by simp [Flags.Consistent, hnever]
      obtain ⟨hdecoded, herror, hcovered⟩ := decode_encode_of_preserved (b := b) (P := fun _ _ => True)
        (fun _ _ h => h.covers) (fun _ _ hdr h _ => h.encodeHeader hflags hdr) h haddr
        (along_of_forall (fun _ _ => trivial) _ _ _)
      intro x hx
      rcases List.mem_cons.1 hx with rfl | hx
      · refine ⟨⟨herror, fun hexact horder => ?_⟩, hcovered.covers.newest⟩
        rw [hdecoded, fields_eq_of_caseExact hnever hexact]
        exact (Headers.insertAll_eq_self_iff _).2 horder
      · exact calls_covered hcovered (fun c hc => hallowed c (by simp [hc])) x hx

theorem calls_matched : ∀ {cs : List EncoderCall} {e : HpackEncoder} {d : HpackDecoder},
    Matched limit e.dynamicTable d.dynamicTable → (∀ c ∈ cs, c.Allowed limit) →
      (∀ x ∈ calls e d cs, x.Fits limit) → ∀ x ∈ calls e d cs, x.Equal
  | [], _, _, _, _, _ => by simp [calls]
  | .setMaxTableSize n :: rest, e, d, h, hallowed, hfits => by
      have hn : n ≤ limit := hallowed (.setMaxTableSize n) (by simp)
      have hmatched : Matched limit (e.setMaxTableSize n).dynamicTable d.dynamicTable :=
        h.setMaxSize hn (hfits _ (List.mem_cons_self ..))
      intro x hx
      rcases List.mem_cons.1 hx with rfl | hx
      · exact ⟨hmatched.entries_eq, hmatched.equal⟩
      · exact calls_matched hmatched (fun c hc => hallowed c (by simp [hc]))
          (fun y hy => hfits y (List.mem_cons_of_mem _ hy)) x hx
  | .encode b :: rest, e, d, h, hallowed, hfits => by
      obtain ⟨hnever, haddr⟩ : b.flags.neverIndexed = false ∧ AllAddressable b.headers := hallowed (.encode b) (by simp)
      have hflags : b.flags.Consistent := by simp [Flags.Consistent, hnever]
      obtain ⟨-, -, hmatched⟩ := decode_encode_of_preserved (b := b) (fun _ _ h => h.covers)
        (fun _ _ hdr h hfits => h.encodeHeader hflags hdr hfits) h haddr (hfits _ (List.mem_cons_self ..))
      intro x hx
      rcases List.mem_cons.1 hx with rfl | hx
      · exact ⟨hmatched.entries_eq, hmatched.equal⟩
      · exact calls_matched hmatched (fun c hc => hallowed c (by simp [hc]))
          (fun y hy => hfits y (List.mem_cons_of_mem _ hy)) x hx

/-- A fresh encoder whose limit changes at will below the decoder's: every block is decoded, and the encoder's table is
the newest part of the decoder's, all of it as long as the encoder evicts nothing that the decoder keeps. -/
theorem resize_decoded (hlimit : limit < 2 ^ 64) {cs : List EncoderCall} (hallowed : ∀ c ∈ cs, c.Allowed limit) :
    (∀ x ∈ calls {} (HpackDecoder.setMaxTableSize {} limit) cs, x.Decoded ∧ x.Newest) ∧
      ((∀ x ∈ calls {} (HpackDecoder.setMaxTableSize {} limit) cs, x.Fits limit) →
        ∀ x ∈ calls {} (HpackDecoder.setMaxTableSize {} limit) cs, x.Equal) := by
  have hfresh := Holds.fresh.setMaxSize limit
  have hentries : (HpackDecoder.setMaxTableSize {} limit).dynamicTable.entries = [] := hfresh.1.entries_eq
  have hcovered : Covered limit ({} : HpackEncoder).dynamicTable (HpackDecoder.setMaxTableSize {} limit).dynamicTable :=
    ⟨⟨.fresh, .setMaxSize limit hlimit .fresh, List.nil_suffix, Nat.zero_le _⟩, hfresh.2⟩
  exact ⟨calls_covered hcovered hallowed, calls_matched ⟨hcovered, by rw [hentries]; rfl⟩ hallowed⟩

/-- The limit is lowered and raised again around two blocks. -/
def resizedCalls : List EncoderCall :=
  [.setMaxTableSize 4096, .encode ⟨[(ascii "x", ascii "1")], {}⟩, .setMaxTableSize 0, .setMaxTableSize 4096,
    .encode ⟨[(ascii "y", ascii "2")], {}⟩]

theorem resize_decoded_lowered :
    (∀ c ∈ resizedCalls, c.Allowed 4096) ∧
      ∀ x ∈ calls {} (HpackDecoder.setMaxTableSize {} 4096) resizedCalls, x.Decoded ∧ x.Newest :=
  ⟨by decide +kernel, (resize_decoded (by decide) (by decide +kernel)).1⟩

/-- The decoder keeps the entry that the lowered limit has evicted. -/
theorem resize_tables_differ :
    (∀ c ∈ resizedCalls, c.Allowed 4096) ∧
      ¬ ∀ x ∈ calls {} (HpackDecoder.setMaxTableSize {} 4096) resizedCalls, x.Equal := by
  decide +kernel

end Rad.Hpack
