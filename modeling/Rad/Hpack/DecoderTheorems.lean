import Rad.Hpack.Theorems
import Rad.Lib.Loop

/-!
# The decoder's table and its updates

What holds of a dynamic table after any calls, what a call of `decode_header` leaves behind, and what a block does that
changes the size of the table.
-/

namespace Rad.Hpack

open Lib Http BoundedFifo DynamicTable

/-! ## Calls on a table -/

inductive TableCall where
  | add (name value : Bytes)
  | setMaxSize (n : Nat)

/-- What is done by a call. -/
def TableCall.run (t : DynamicTable) : TableCall → DynamicTable
  | .add name value => t.add name value
  | .setMaxSize n => t.setMaxSize n

/-- The entry that a call adds. -/
def TableCall.added : TableCall → Headers
  | .add name value => [(name, value)]
  | .setMaxSize _ => []

variable {t : DynamicTable} {l : Headers}

theorem DynamicTable.Holds.indexed (h : t.Holds l) {pred : Bytes × Bytes → Bool} {k : Nat}
    (hk : (l.findIdx? pred).map (fun i => l.length - i + 61) = some k) :
    ∃ header ∈ l, t.getHeader (k - 62) = some header ∧ pred header = true := by
  obtain ⟨i, hi, rfl⟩ := Option.map_eq_some_iff.1 hk
  obtain ⟨hlt, hpred, -⟩ := List.findIdx?_eq_some_iff_getElem.1 hi
  refine ⟨l[i], List.getElem_mem hlt, ?_, hpred⟩
  have hget := h.getHeader_indexOf hlt
  rwa [List.getElem?_eq_getElem hlt] at hget

/-- The entries behind a call. -/
def keptBehind (t : DynamicTable) (l : Headers) : TableCall → Headers
  | .add name value => BoundedFifo.insert headerSize t.maxSize l (name, value)
  | .setMaxSize n => evict headerSize n l

theorem DynamicTable.Holds.run (h : t.Holds l) (c : TableCall) : (c.run t).Holds (keptBehind t l c) := by
  cases c with
  | add name value => exact (h.add name value).1
  | setMaxSize n => exact (h.setMaxSize n).1

/-- The bytes of an update of the size, with the size that they write. -/
structure SizeUpdate where
  bytes : Bytes
  value : Nat
  isUpdate : ∃ b rest, bytes = b :: rest ∧ b >>> 5 = 1
  reads : ∀ rest, hpackDecodeInteger 5 (bytes ++ rest) = some (bytes.length, value)

theorem decodeHeader_sizeUpdate (t : DynamicTable) (u : SizeUpdate) (rest : Bytes) :
    decodeHeader t (u.bytes ++ rest) =
      if u.value > t.maxSize then .error .valueTooLarge
      else .ok ⟨u.bytes.length, [], [], t.setMaxSize u.value⟩ := by
  obtain ⟨b, tail, hbytes, hb⟩ := u.isUpdate
  have hreads := u.reads rest
  rw [hbytes, List.cons_append] at hreads ⊢
  simp only [decodeHeader, hb, beq_self_eq_true, if_true, hreads]

theorem maxSize_removeSize (t : DynamicTable) (n : Nat) : (t.removeSize n).maxSize = t.maxSize := by
  induction t, n using DynamicTable.removeSize.induct with
  | case1 t n hn hempty => rw [removeSize, if_pos hn, dif_pos hempty]
  | case2 t n hn hempty hless size ih => rw [removeSize, if_pos hn, dif_neg hempty, ih]
  | case3 t n hn => rw [removeSize, if_neg hn]

theorem maxSize_setMaxSize (t : DynamicTable) (n : Nat) : (t.setMaxSize n).maxSize = n := by
  simp only [setMaxSize]
  split
  next h => exact h.symm
  next =>
  split
  next => exact maxSize_removeSize _ _
  next => rfl

/-- One after the other, the updates are accepted and their sizes are taken. -/
def AcceptsUpdates (t : DynamicTable) : List SizeUpdate → Prop
  | [] => True
  | u :: us => ∃ r, decodeHeader t u.bytes = .ok r ∧ r.table.maxSize = u.value ∧ AcceptsUpdates r.table us

/-- Updates are accepted while each is at most the one before it. -/
theorem acceptsUpdates_iff_chain (us : List SizeUpdate) : ∀ t : DynamicTable,
    AcceptsUpdates t us ↔ (t.maxSize :: us.map SizeUpdate.value).IsChain (· ≥ ·) := by
  induction us with
  | nil => exact fun t => iff_of_true trivial (.singleton _)
  | cons u us ih =>
      intro t
      have hdecode := decodeHeader_sizeUpdate t u []
      rw [List.append_nil] at hdecode
      rw [AcceptsUpdates, hdecode, List.map_cons, List.isChain_cons_cons]
      by_cases hlarge : u.value > t.maxSize
      · simp [hlarge]
      · simp [hlarge, ih, Nat.le_of_not_gt hlarge, maxSize_setMaxSize]

/-- Updates that are all within the limit are accepted exactly when none is above the one before it. -/
theorem acceptsUpdates_iff (d : HpackDecoder) {limit : Nat} {us : List SizeUpdate}
    (hlimit : ∀ u ∈ us, u.value ≤ limit) :
    AcceptsUpdates (d.setMaxTableSize limit).dynamicTable us ↔ (us.map SizeUpdate.value).IsChain (· ≥ ·) := by
  rw [acceptsUpdates_iff_chain, HpackDecoder.setMaxTableSize, maxSize_setMaxSize]
  cases us with
  | nil => exact iff_of_true (.singleton _) .nil
  | cons u us =>
      rw [List.map_cons, List.isChain_cons_cons]
      exact and_iff_right (hlimit u List.mem_cons_self)

/-- The update that an encoder writes for a size. -/
def SizeUpdate.encode (n : Nat) (hn : n < 2 ^ 64) : SizeUpdate :=
  have hor (b : UInt8) (hb : b.toNat < 2 ^ 5) : (b ||| 0x20).toNat % 2 ^ 5 = b.toNat ∧ (b ||| 0x20) >>> 5 = 1 := by
    have h : ∀ v < 2 ^ 5, (UInt8.ofNat v ||| 0x20).toNat % 2 ^ 5 = v ∧ (UInt8.ofNat v ||| 0x20) >>> 5 = 1 := by decide
    simpa using h b.toNat hb
  have hspec := hpackEncodeInteger_modifyHead (n := 5) (by omega) hn fun b hb => (hor b hb).1
  { bytes := (hpackEncodeInteger 5 n).modifyHead (· ||| 0x20)
    value := n
    isUpdate := by
      obtain ⟨b, tail, hb, hbytes, -⟩ := hspec
      exact ⟨_, _, hbytes, (hor b hb).2⟩
    reads := fun rest => by
      obtain ⟨b, tail, -, hbytes, hreads⟩ := hspec
      rw [hbytes]
      exact hreads rest }

/-- Half of the limit and nothing. -/
theorem acceptsUpdates_lowered :
    AcceptsUpdates (({} : HpackDecoder).setMaxTableSize 4096).dynamicTable
      [.encode 2048 (by decide), .encode 0 (by decide)] := by
  refine (acceptsUpdates_iff {} fun u hu => ?_).2 (by decide)
  obtain rfl | rfl : u = .encode 2048 (by decide) ∨ u = .encode 0 (by decide) := by simpa using hu
  · decide
  · decide

/-- Nothing, and the limit again. -/
theorem not_acceptsUpdates_raised :
    ¬AcceptsUpdates (({} : HpackDecoder).setMaxTableSize 4096).dynamicTable
      [.encode 0 (by decide), .encode 4096 (by decide)] := by
  rw [acceptsUpdates_iff_chain]
  intro h
  exact absurd (List.isChain_cons_cons.1 (List.isChain_cons_cons.1 h).2).1 (by decide)

/-! ## Updates before fields -/

/-- The bytes of updates. -/
def updateBytes (us : List SizeUpdate) : Bytes := us.flatMap SizeUpdate.bytes

/-- The decoder behind updates. -/
def HpackDecoder.updated (d : HpackDecoder) (us : List SizeUpdate) : HpackDecoder :=
  { d with dynamicTable := us.foldl (fun t u => t.setMaxSize u.value) d.dynamicTable }

/-- Each update is found as a field with an empty name and an empty value. -/
theorem decodeFields_updates (us : List SizeUpdate) (rest : Bytes) : ∀ t : DynamicTable,
    (t.maxSize :: us.map SizeUpdate.value).IsChain (· ≥ ·) →
      (decodeFields t (updateBytes us ++ rest)).1 = List.replicate us.length ([], []) ++
        (decodeFields (us.foldl (fun t u => t.setMaxSize u.value) t) rest).1 := by
  induction us with
  | nil => exact fun _ _ => rfl
  | cons u us ih =>
      intro t h
      obtain ⟨hle, hchain⟩ := List.isChain_cons_cons.1 h
      have hdecode := decodeHeader_sizeUpdate t u (updateBytes us ++ rest)
      rw [if_neg (Nat.not_lt.2 hle)] at hdecode
      rw [updateBytes, List.flatMap_cons, List.append_assoc]
      change (decodeFields t (u.bytes ++ (updateBytes us ++ rest))).1 = _
      rw [decodeFields_ok hdecode, List.drop_left]
      rw [ih (t.setMaxSize u.value) (by rw [maxSize_setMaxSize]; exact hchain)]
      rfl

theorem length_insert (hdrs : Headers) (name value : Bytes) : (hdrs.insert name value).length = hdrs.length + 1 := by
  rw [Headers.insert]
  split
  next it hit =>
    have hlt : it < hdrs.length := (List.findIdx?_eq_some_iff_getElem.1 hit).1
    exact List.length_insertIdx_of_le_length hlt _
  next => exact List.length_insertIdx_of_le_length le_rfl _

theorem length_insertAll (hdrs fields : Headers) : (hdrs.insertAll fields).length = hdrs.length + fields.length := by
  induction fields generalizing hdrs with
  | nil => rfl
  | cons f fields ih =>
      rw [Headers.insertAll_cons, ih, length_insert, List.length_cons]
      omega

/-- A field with an empty name is refused. -/
theorem applyFields_nil {σ : Type*} {onField : σ → Bytes → Bytes → σ × Option DecodeError}
    (h : ∀ s value, onField s [] value = (s, some (.http .badField))) (s : σ) (k : Nat) (fields : Headers) :
    (applyFields onField s (List.replicate (k + 1) ([], []) ++ fields)).2 = some (.http .badField) := by
  rw [List.replicate_succ, List.cons_append, applyFields]
  simp only [h]

/-- A new decoder with a limit. -/
def HpackDecoder.ofLimit (limit : Nat) : HpackDecoder := ({} : HpackDecoder).setMaxTableSize limit

/-- A block that begins with updates has the fields behind them and one for each update in the first overload, and is
refused by the others. -/
theorem updates_contribute (d : HpackDecoder) {us : List SizeUpdate} (hne : us ≠ [])
    (hus : (d.dynamicTable.maxSize :: us.map SizeUpdate.value).IsChain (· ≥ ·)) (rest : Bytes) (hdrs : Headers)
    (res : Response) :
    (d.decode (updateBytes us ++ rest) hdrs).1 ≠ ((d.updated us).decode rest hdrs).1 ∧
      (d.decodeRequest (updateBytes us ++ rest)).2.1 = some (.http .badField) ∧
      (d.decodeResponse (updateBytes us ++ rest) res).2.1 = some (.http .badField) := by
  have hfields := decodeFields_updates us rest d.dynamicTable hus
  obtain ⟨k, hk⟩ : ∃ k, us.length = k + 1 := Nat.exists_eq_add_one.2 (List.length_pos_iff.2 hne)
  rw [hk] at hfields
  refine ⟨fun heq => ?_, ?_, ?_⟩
  · simp only [HpackDecoder.decode, HpackDecoder.updated, (decodeLoop_eq_applyFields _ _ _ _).1, hfields,
      applyFields_insert] at heq
    have hlength := congrArg List.length heq
    simp only [length_insertAll, List.length_append, List.length_replicate] at hlength
    omega
  · simp only [HpackDecoder.decodeRequest, (decodeLoop_eq_applyFields _ _ _ _).2, hfields]
    rw [applyFields_nil fun _ _ => rfl]
    rfl
  · simp only [HpackDecoder.decodeResponse, (decodeLoop_eq_applyFields _ _ _ _).2, hfields]
    rw [applyFields_nil fun _ _ => rfl]
    rfl

theorem updates_contribute_one :
    ((HpackDecoder.ofLimit 4096).decode (updateBytes [.encode 0 (by decide)] ++ [0x88]) []).1 ≠
        (((HpackDecoder.ofLimit 4096).updated [.encode 0 (by decide)]).decode [0x88] []).1 ∧
      ((HpackDecoder.ofLimit 4096).decodeRequest (updateBytes [.encode 0 (by decide)] ++ [0x88])).2.1 =
        some (.http .badField) ∧
      ((HpackDecoder.ofLimit 4096).decodeResponse (updateBytes [.encode 0 (by decide)] ++ [0x88]) {}).2.1 =
        some (.http .badField) :=
  updates_contribute (.ofLimit 4096) (by simp) (by decide) [0x88] [] {}

/-- `:status: 200` behind an update. -/
theorem update_refused :
    updateBytes [.encode 0 (by decide)] ++ [0x88] = [0x20, 0x88] ∧
      ((HpackDecoder.ofLimit 4096).decodeResponse [0x20, 0x88] {}).2.1 = some (.http .badField) ∧
      (((HpackDecoder.ofLimit 4096).updated [.encode 0 (by decide)]).decodeResponse [0x88] {}).2.1 = none := by
  have hupdate : decodeHeader (HpackDecoder.ofLimit 4096).dynamicTable [0x20, 0x88] =
      .ok ⟨1, [], [], (HpackDecoder.ofLimit 4096).dynamicTable.setMaxSize 0⟩ := by
    rw [decodeHeader]
    rfl
  have hstatus : decodeHeader ((HpackDecoder.ofLimit 4096).updated [.encode 0 (by decide)]).dynamicTable [0x88] =
      .ok ⟨1, ascii ":status", ascii "200",
        ((HpackDecoder.ofLimit 4096).updated [.encode 0 (by decide)]).dynamicTable⟩ := by
    rw [decodeHeader]
    rfl
  refine ⟨by decide +kernel, ?_, ?_⟩
  · rw [HpackDecoder.decodeResponse, decodeLoop_ok _ hupdate]
    rfl
  · rw [HpackDecoder.decodeResponse, decodeLoop_ok _ hstatus]
    have hfield : onResponseField { res := { version := .v1_1 } } (ascii ":status") (ascii "200") =
        ({ res := { version := .v1_1, status := 200 }, gotStatus := true }, none) := by decide +kernel
    simp only [Response.clear, hfield, List.drop_succ_cons, List.drop_nil, decodeLoop_nil]

/-! ## Calls that fail -/

/-- What `decode_length_string` returns, with `text` and `ec` behind it. -/
structure StringCall where
  consumed : Nat
  text : Bytes
  ec : Option Errc := none

/-- `text.resize(n)`. -/
def resize (text : Bytes) (n : Nat) : Bytes := text.take n ++ List.replicate (n - text.length) 0

/-- `decode_length_string`, with what it leaves behind an error. -/
def decodeLengthStringCall (input text : Bytes) : StringCall :=
  match input with
  | [] => ⟨0, text, some .noBufferSpace⟩
  | firstByte :: _ =>
    let huffman := firstByte &&& 128 != 0
    match hpackDecodeInteger 7 input with
    | none => ⟨0, text, some .noBufferSpace⟩
    | some (len, length) =>
      if length = 0 then { consumed := len, text }
      else if (input.drop len).length < length then ⟨0, text, some .noBufferSpace⟩
      else
        let textData := (input.drop len).take length
        if !huffman then { consumed := len + length, text := text ++ textData }
        else
          let decodeLen := decodedHuffmanLen textData
          if decodeLen = 0 then ⟨len, text, some .invalidArgument⟩
          else
            match decodeHuffman textData with
            | (symbols, some ec) => ⟨len, overwrite (resize text decodeLen) 0 symbols, some ec⟩
            | (symbols, none) => { consumed := len + length, text := overwrite (resize text decodeLen) 0 symbols }

/-- What `decode_header_name` returns, with its outputs. -/
structure NameCall where
  consumed : Nat
  name : Bytes
  indexed : Bool := false
  neverIndexed : Bool := false
  ec : Option Errc := none

/-- `decode_header_name`, with what it leaves behind an error. -/
def decodeHeaderNameCall (t : DynamicTable) (input name : Bytes) : NameCall :=
  match input with
  | [] => { consumed := 0, name, ec := some .noBufferSpace }
  | firstByte :: _ =>
    let indexed := firstByte &&& 64 != 0
    if !indexed && !(firstByte >>> 4 == 0 || firstByte >>> 4 == 1) then
      { consumed := 0, name, ec := some .invalidArgument }
    else
      let neverIndexed := !indexed && firstByte >>> 4 == 1
      match hpackDecodeInteger (if indexed then 6 else 4) input with
      | none => ⟨0, name, indexed, neverIndexed, some .noBufferSpace⟩
      | some (len, index) =>
        if index ≠ 0 then
          match headerAt t index with
          | some header => ⟨len, header.1, indexed, neverIndexed, none⟩
          | none => ⟨0, name, indexed, neverIndexed, some .invalidArgument⟩
        else
          let s := decodeLengthStringCall (input.drop len) name
          ⟨len + s.consumed, s.text, indexed, neverIndexed, s.ec⟩

/-- What `decode_header` returns, with its outputs and the table behind it. -/
structure HeaderCall where
  consumed : Nat
  name : Bytes := []
  value : Bytes := []
  ec : Option Errc := none
  table : DynamicTable

/-- `decode_header`, with what it leaves behind an error. -/
def decodeHeaderCall (t : DynamicTable) (input : Bytes) : HeaderCall :=
  match input with
  | [] => { consumed := 0, ec := some .noBufferSpace, table := t }
  | firstByte :: _ =>
    if firstByte >>> 5 == 1 then
      match hpackDecodeInteger 5 input with
      | none => { consumed := 0, ec := some .noBufferSpace, table := t }
      | some (len, newSize) =>
        if newSize > t.maxSize then { consumed := 0, ec := some .valueTooLarge, table := t }
        else { consumed := len, table := t.setMaxSize newSize }
    else if firstByte &&& 128 != 0 then
      match hpackDecodeInteger 7 input with
      | none => { consumed := 0, ec := some .noBufferSpace, table := t }
      | some (len, index) =>
        if index = 0 then { consumed := 0, ec := some .noBufferSpace, table := t }
        else
          match headerAt t index with
          | some header => { consumed := len, name := header.1, value := header.2, table := t }
          | none => { consumed := 0, ec := some .invalidArgument, table := t }
    else
      let r := decodeHeaderNameCall t input []
      if r.ec ≠ none then { consumed := r.consumed, name := r.name, ec := r.ec, table := t }
      else
        let s := decodeLengthStringCall (input.drop r.consumed) []
        if s.ec ≠ none then
          { consumed := r.consumed + s.consumed, name := r.name, value := s.text, ec := s.ec, table := t }
        else
          { consumed := r.consumed + s.consumed, name := r.name, value := s.text
            table := if r.indexed && !r.neverIndexed then t.add r.name s.text else t }

theorem overwrite_resize (symbols : Bytes) (n : Nat) :
    overwrite (resize [] n) 0 symbols = overwrite (List.replicate n 0) 0 symbols := by
  rw [resize, List.take_nil, List.nil_append, List.length_nil, Nat.sub_zero]

theorem decodeLengthString_call (input : Bytes) :
    decodeLengthString input = match (decodeLengthStringCall input []).ec with
      | some ec => .error ec
      | none => .ok ((decodeLengthStringCall input []).consumed, (decodeLengthStringCall input []).text) := by
  unfold decodeLengthString decodeLengthStringCall
  cases input with
  | nil => rfl
  | cons b rest =>
  dsimp only
  cases hpackDecodeInteger 7 (b :: rest) with
  | none => rfl
  | some r =>
  dsimp only
  split
  next => rfl
  next =>
  split
  next => rfl
  next =>
  split
  next => rfl
  next =>
  split
  next => rfl
  next =>
  obtain ⟨symbols, ec⟩ := decodeHuffman (((b :: rest).drop r.1).take r.2)
  cases ec with
  | some ec => rfl
  | none => simp only [overwrite_resize]

theorem decodeHeaderName_call (t : DynamicTable) (input : Bytes) :
    decodeHeaderName t input = match (decodeHeaderNameCall t input []).ec with
      | some ec => .error ec
      | none => .ok ⟨(decodeHeaderNameCall t input []).consumed, (decodeHeaderNameCall t input []).name,
          (decodeHeaderNameCall t input []).indexed, (decodeHeaderNameCall t input []).neverIndexed⟩ := by
  unfold decodeHeaderName decodeHeaderNameCall
  cases input with
  | nil => rfl
  | cons b rest =>
  dsimp only
  split
  next => rfl
  next =>
  cases hpackDecodeInteger (if b &&& 64 != 0 then 6 else 4) (b :: rest) with
  | none => rfl
  | some r =>
  obtain ⟨len, index⟩ := r
  dsimp only
  split
  next =>
    cases headerAt t index with
    | none => rfl
    | some header => rfl
  next =>
    rw [decodeLengthString_call]
    cases (decodeLengthStringCall ((b :: rest).drop len) []).ec with
    | none => rfl
    | some ec => rfl

/-- Where there is no error, the call finds what is found. -/
theorem decodeHeader_call (t : DynamicTable) (input : Bytes) :
    decodeHeader t input = match (decodeHeaderCall t input).ec with
      | some ec => .error ec
      | none => .ok ⟨(decodeHeaderCall t input).consumed, (decodeHeaderCall t input).name,
          (decodeHeaderCall t input).value, (decodeHeaderCall t input).table⟩ := by
  unfold decodeHeader decodeHeaderCall
  cases input with
  | nil => rfl
  | cons b rest =>
  dsimp only
  split
  next =>
    cases hpackDecodeInteger 5 (b :: rest) with
    | none => rfl
    | some r =>
    obtain ⟨len, newSize⟩ := r
    dsimp only
    split
    next => rfl
    next => rfl
  next =>
  split
  next =>
    cases hpackDecodeInteger 7 (b :: rest) with
    | none => rfl
    | some r =>
    obtain ⟨len, index⟩ := r
    dsimp only
    split
    next => rfl
    next =>
    cases headerAt t index with
    | none => rfl
    | some header => rfl
  next =>
  rw [decodeHeaderName_call]
  generalize decodeHeaderNameCall t (b :: rest) [] = r
  obtain ⟨consumed, name, indexed, neverIndexed, ec⟩ := r
  cases ec with
  | some ec => rfl
  | none =>
  dsimp only
  rw [decodeLengthString_call]
  generalize decodeLengthStringCall ((b :: rest).drop consumed) [] = r
  obtain ⟨consumed', value, ec⟩ := r
  cases ec with
  | some ec => rfl
  | none => rfl

/-- A call that sets an error leaves the table alone. -/
theorem decodeHeaderCall_table (t : DynamicTable) (input : Bytes) (h : (decodeHeaderCall t input).ec ≠ none) :
    (decodeHeaderCall t input).table = t := by
  revert h
  unfold decodeHeaderCall
  cases input with
  | nil => exact fun _ => rfl
  | cons b rest =>
  dsimp only
  split
  next =>
    split
    next => exact fun _ => rfl
    next =>
    split
    next => exact fun _ => rfl
    next => exact fun h => absurd rfl h
  next =>
  split
  next =>
    split
    next => exact fun _ => rfl
    next =>
    split
    next => exact fun _ => rfl
    next => split <;> exact fun _ => rfl
  next =>
  split
  next => exact fun _ => rfl
  next =>
  split
  next => exact fun _ => rfl
  next => exact fun h => absurd rfl h

/-- A pass of the loops of `decode`, over the table, the input and what a field is handed to. -/
def decodePass {σ : Type} (onField : σ → Bytes → Bytes → σ × Option DecodeError) (p : DynamicTable × Bytes × σ) :
    Pass (DynamicTable × Bytes × σ) (σ × Option DecodeError × DynamicTable) :=
  let (t, input, s) := p
  if input = [] then .done (s, none, t)
  else
    let r := decodeHeaderCall t input
    match r.ec with
    | some ec => .done (s, some (.errc ec), r.table)
    | none =>
      match onField s r.name r.value with
      | (s, some error) => .done (s, some error, r.table)
      | (s, none) => .next (r.table, input.drop r.consumed, s)

/-- The loops return. -/
theorem decodePass_returns {σ : Type} (onField : σ → Bytes → Bytes → σ × Option DecodeError) (t : DynamicTable)
    (input : Bytes) (s : σ) : Returns (decodePass onField) (t, input, s) (decodeLoop onField t input s) := by
  induction hn : input.length using Nat.strongRecOn generalizing t input s with
  | ind n ih =>
  by_cases hne : input = []
  · rw [hne, decodeLoop_nil]
    exact .done (by rw [decodePass, if_pos rfl])
  have hcall := decodeHeader_call t input
  cases hec : (decodeHeaderCall t input).ec with
  | some ec =>
      rw [hec] at hcall
      have htable := decodeHeaderCall_table t input (by simp [hec])
      rw [decodeLoop_error onField hne hcall]
      exact .done (by simp [decodePass, hne, hec, htable])
  | none =>
      rw [hec] at hcall
      have hbounds := decodeHeader_bounds hcall
      rw [decodeLoop_ok onField hcall]
      dsimp only at hbounds ⊢
      cases hfield : onField s (decodeHeaderCall t input).name (decodeHeaderCall t input).value with
      | mk s' error =>
      cases error with
      | some error => exact .done (by simp [decodePass, hne, hec, hfield])
      | none =>
          have hlt : (input.drop (decodeHeaderCall t input).consumed).length < n := by
            rw [List.length_drop]
            omega
          exact .next (by simp [decodePass, hne, hec, hfield]) (ih _ hlt _ _ s' rfl)

/-- A call that sets no error consumes a byte or more, and no more than there are, so that every loop over calls ends; a
call that sets an error leaves the table as it was. -/
theorem decodeHeader_progresses (t : DynamicTable) (input : Bytes) :
    ((decodeHeaderCall t input).ec = none →
      1 ≤ (decodeHeaderCall t input).consumed ∧ (decodeHeaderCall t input).consumed ≤ input.length) ∧
      ((decodeHeaderCall t input).ec ≠ none → (decodeHeaderCall t input).table = t) ∧
      ∀ (σ : Type) (onField : σ → Bytes → Bytes → σ × Option DecodeError) (s : σ),
        ∃ r, Returns (decodePass onField) (t, input, s) r := by
  refine ⟨fun hec => ?_, decodeHeaderCall_table t input, fun σ onField s => ⟨_, decodePass_returns onField t input s⟩⟩
  have hcall := decodeHeader_call t input
  rw [hec] at hcall
  exact decodeHeader_bounds hcall

end Rad.Hpack
