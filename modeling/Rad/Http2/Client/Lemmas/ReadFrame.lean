import Rad.Http2.Client.Spec

/-!
# Reading the payload of a HEADERS or DATA frame

The four functions that read the padding length, the priority, the data and the padding, one after the other. They work
on the bytes of `rbuf_` and on the payload stage alone.
-/

namespace Rad.Http2

open Lib

/-! ## `size_t` -/

theorem subSize_of_le {a b : Nat} (hle : b ≤ a) (hlt : a < 2 ^ 64) : subSize a b = a - b := by
  unfold subSize
  omega

theorem subSize_subSize {a b c : Nat} (hle : b + c ≤ a) (hlt : a < 2 ^ 64) : subSize (subSize a b) c = a - b - c := by
  rw [subSize_of_le (show b ≤ a by omega) hlt, subSize_of_le (by omega) (by omega)]

theorem addSize_of_lt {a b : Nat} (hlt : a + b < 2 ^ 64) : addSize a b = a + b := Nat.mod_eq_of_lt hlt

theorem addSize_lt (a b : Nat) : addSize a b < 2 ^ 64 := Nat.mod_lt _ (by decide)

theorem subSize_lt (a b : Nat) : subSize a b < 2 ^ 64 := Nat.mod_lt _ (by decide)

theorem subSize_pos {a b : Nat} (ha : a < 2 ^ 64) (hb : b < 2 ^ 64) (hne : b ≠ a) : 0 < subSize a b := by
  unfold subSize
  omega

/-! ## The four functions in a row -/

/-- `r` has taken `n` bytes from the front of `rbuf`. -/
structure Takes (rbuf : Bytes) (payload : PayloadStage) (n : Nat) (r : PayloadRead) : Prop where
  le : n ≤ rbuf.length
  rbuf : r.rbuf = rbuf.drop n
  totalSize : r.payload.totalSize = payload.totalSize
  minReadSize : r.payload.minReadSize = payload.minReadSize
  consumedSize : payload.consumedSize < 2 ^ 64 → r.payload.consumedSize < 2 ^ 64

namespace Takes

variable {rbuf : Bytes} {payload : PayloadStage} {n : Nat} {r : PayloadRead}

theorem zero (hrbuf : r.rbuf = rbuf) (hpayload : r.payload = payload) : Takes rbuf payload 0 r :=
  ⟨Nat.zero_le _, by simp [hrbuf], by rw [hpayload], by rw [hpayload], fun hlt => by rw [hpayload]; exact hlt⟩

theorem length_rbuf (h : Takes rbuf payload n r) : r.rbuf.length + n = rbuf.length := by
  rw [h.rbuf, List.length_drop]
  have := h.le
  omega

theorem andThen {f : Bytes → PayloadStage → PayloadRead} (h : Takes rbuf payload n r)
    (hf : ∃ m, Takes r.rbuf r.payload m (f r.rbuf r.payload)) : ∃ m, n ≤ m ∧ Takes rbuf payload m (r.andThen f) := by
  unfold PayloadRead.andThen
  split
  · exact ⟨n, Nat.le_refl _, h⟩
  · obtain ⟨m, h'⟩ := hf
    refine ⟨n + m, Nat.le_add_right _ _, ?_, by rw [h'.rbuf, h.rbuf, List.drop_drop], h'.totalSize.trans h.totalSize,
      h'.minReadSize.trans h.minReadSize, fun hlt => h'.consumedSize (h.consumedSize hlt)⟩
    have := h'.length_rbuf
    have := h.length_rbuf
    omega

end Takes

section Functions

variable (flags : UInt8) (rbuf : Bytes) (payload : PayloadStage)

theorem readPaddingLength_takes : ∃ n, Takes rbuf payload n (readPaddingLength flags rbuf payload) := by
  unfold readPaddingLength
  split
  · exact ⟨0, .zero rfl rfl⟩
  · rename_i hread
    simp only [Bool.or_eq_true, Bool.not_eq_true', decide_eq_true_eq, not_or, Bool.not_eq_false] at hread
    cases rbuf with
    | nil => exact ⟨0, .zero rfl rfl⟩
    | cons padding rest =>
        simp only
        split
        · exact ⟨1, by simp, rfl, rfl, rfl, fun _ => by simp only; omega⟩
        · exact ⟨1, by simp, rfl, rfl, rfl, fun _ => by simp only; omega⟩

theorem readPriority_takes : ∃ n, Takes rbuf payload n (readPriority flags rbuf payload) := by
  unfold readPriority
  split
  · exact ⟨0, .zero rfl rfl⟩
  · split
    · exact ⟨0, .zero rfl rfl⟩
    · rename_i hread _
      simp only [Bool.or_eq_true, Bool.not_eq_true', decide_eq_true_eq, not_or, Bool.not_eq_false] at hread
      have hsize : priorityConsumedSize flags ≤ 6 := by unfold priorityConsumedSize; split <;> omega
      exact ⟨5, by omega, rfl, rfl, rfl, fun _ => by simp only; omega⟩

theorem readDataContent_takes : ∃ n, Takes rbuf payload n (readDataContent flags rbuf payload) := by
  unfold readDataContent
  split
  · exact ⟨0, .zero rfl rfl⟩
  · split
    · exact ⟨0, .zero rfl rfl⟩
    · exact ⟨_, Nat.min_le_right _ _, rfl, rfl, rfl, fun _ => addSize_lt _ _⟩

theorem readPaddingContent_takes : ∃ n, Takes rbuf payload n (readPaddingContent flags rbuf payload) := by
  unfold readPaddingContent
  split
  · exact ⟨0, .zero rfl rfl⟩
  · split
    · exact ⟨0, .zero rfl rfl⟩
    · split
      · exact ⟨0, .zero rfl rfl⟩
      · simp only
        split
        · exact ⟨0, .zero rfl rfl⟩
        · split
          · exact ⟨_, Nat.min_le_right _ _, rfl, rfl, rfl, fun h => h⟩
          · exact ⟨_, Nat.min_le_right _ _, rfl, rfl, rfl, fun _ => addSize_lt _ _⟩

theorem readFrame_takes : ∃ n, Takes rbuf payload n (readFrame flags rbuf payload) := by
  obtain ⟨n₁, h₁⟩ := readPaddingLength_takes flags rbuf payload
  obtain ⟨n₂, -, h₂⟩ := h₁.andThen (readPriority_takes flags _ _)
  obtain ⟨n₃, -, h₃⟩ := h₂.andThen (readDataContent_takes flags _ _)
  obtain ⟨n₄, -, h₄⟩ := h₃.andThen (readPaddingContent_takes flags _ _)
  exact ⟨n₄, h₄⟩

end Functions

/-! ## A pass reads something -/

/-- A function returns true, sets an error or reads something. -/
def Moves (rbuf : Bytes) (r : PayloadRead) : Prop := failed r.ec ∨ r.res ∨ r.rbuf.length < rbuf.length

section Moves

variable {flags : UInt8} {rbuf : Bytes} {payload : PayloadStage}

/-- A function that has read something has read something at the end, one that has read nothing leaves the buffer. -/
theorem Moves.andThen {n : Nat} {r : PayloadRead} {f : Bytes → PayloadStage → PayloadRead} (h : Takes rbuf payload n r)
    (hr : Moves rbuf r) (hf : ∃ m, Takes r.rbuf r.payload m (f r.rbuf r.payload))
    (hmoves : r.res → failed r.ec = false → r.rbuf = rbuf → Moves r.rbuf (f r.rbuf r.payload)) :
    Moves rbuf (r.andThen f) := by
  obtain ⟨m, hle, h'⟩ := h.andThen hf
  have hlen := h.length_rbuf
  have hlen' := h'.length_rbuf
  rcases Nat.eq_zero_or_pos n with rfl | hpos
  · have hsame : r.rbuf = rbuf := by rw [h.rbuf, List.drop_zero]
    unfold PayloadRead.andThen
    split
    · exact hr
    · rename_i hgo
      simp only [Bool.or_eq_true, Bool.not_eq_true', not_or, Bool.not_eq_false, Bool.not_eq_true] at hgo
      simpa only [Moves, hsame] using hmoves hgo.1 hgo.2 hsame
  · exact .inr (.inr (by omega))

theorem readPaddingLength_moves (hne : rbuf ≠ []) : Moves rbuf (readPaddingLength flags rbuf payload) := by
  unfold readPaddingLength
  split
  · exact .inr (.inl rfl)
  · cases rbuf with
    | nil => exact absurd rfl hne
    | cons padding rest =>
        simp only
        split
        · exact .inl rfl
        · exact .inr (.inl rfl)

theorem readPriority_moves (hcut : ¬(hasFlag flags priorityFlag ∧ payload.consumedSize < priorityConsumedSize flags ∧
    rbuf.length < 5)) : Moves rbuf (readPriority flags rbuf payload) := by
  unfold readPriority
  split
  · exact .inr (.inl rfl)
  · rename_i hread
    split
    · rename_i hshort
      simp only [Bool.or_eq_true, Bool.not_eq_true', decide_eq_true_eq, not_or, Bool.not_eq_false] at hread
      exact absurd ⟨hread.1, by omega, hshort⟩ hcut
    · exact .inr (.inl rfl)

theorem readDataContent_moves (hne : rbuf ≠ []) : Moves rbuf (readDataContent flags rbuf payload) := by
  unfold readDataContent
  split
  · exact .inr (.inl rfl)
  · rename_i hdata
    have hpos : 0 < subSize (dataLen flags payload) (consumedData flags payload) :=
      subSize_pos (subSize_lt _ _) (subSize_lt _ _) hdata
    have hlen : 0 < rbuf.length := List.length_pos_iff.2 hne
    refine .inr (.inr ?_)
    simp only [List.length_drop]
    omega

/-- Once the data is read, what is left is as much as the padding, whatever wraps around. -/
theorem subSize_consumed_pos (hdata : consumedData flags payload = dataLen flags payload)
    (hpadded : hasFlag flags paddedFlag = true) (hpadding : payload.padding ≠ 0) :
    0 < subSize payload.totalSize payload.consumedSize := by
  have hpos : 0 < payload.padding.toNat := Nat.pos_of_ne_zero fun h => hpadding (UInt8.toNat_inj.1 h)
  have hlt : payload.padding.toNat < 256 := payload.padding.toNat_lt
  simp only [consumedData, dataLen, hpadded, ↓reduceIte] at hdata
  split at hdata
  · unfold subSize at hdata ⊢; omega
  · unfold subSize at hdata ⊢; omega

theorem readPaddingContent_moves (hne : rbuf ≠ []) (hdata : consumedData flags payload = dataLen flags payload) :
    Moves rbuf (readPaddingContent flags rbuf payload) := by
  unfold readPaddingContent
  have hlen : 0 < rbuf.length := List.length_pos_iff.2 hne
  rw [if_neg (by omega)]
  split
  · exact .inr (.inl rfl)
  · rename_i hpadded
    simp only [Bool.or_eq_true, Bool.not_eq_true', beq_iff_eq, not_or, Bool.not_eq_false] at hpadded
    have hpos := subSize_consumed_pos hdata hpadded.1 hpadded.2
    simp only
    split
    · exact .inl rfl
    · split
      · exact .inl rfl
      · refine .inr (.inr ?_)
        simp only [List.length_drop]
        omega

theorem PayloadRead.andThen_res {r : PayloadRead} {f : Bytes → PayloadStage → PayloadRead}
    (hres : (r.andThen f).res = true) (hec : failed (r.andThen f).ec = false) :
    r.res = true ∧ failed r.ec = false ∧ r.andThen f = { f r.rbuf r.payload with data := r.data ++ (f r.rbuf r.payload).data } := by
  unfold PayloadRead.andThen at hres hec ⊢
  split at hres
  · rename_i hstop
    rw [if_pos hstop] at hec
    simp [hres, hec] at hstop
  · rename_i hgo
    rw [if_neg hgo]
    simp only [Bool.or_eq_true, Bool.not_eq_true', not_or, Bool.not_eq_false, Bool.not_eq_true] at hgo
    exact ⟨hgo.1, hgo.2, rfl⟩

theorem consumedData_add (n : Nat) :
    consumedData flags { payload with consumedSize := addSize payload.consumedSize n } =
      addSize (consumedData flags payload) n := by
  have hadd : ∀ a b : Nat, subSize (addSize a n) b = addSize (subSize a b) n := by
    intro a b; unfold subSize addSize; omega
  simp only [consumedData]
  rw [hadd, hadd]

theorem readDataContent_res (hres : (readDataContent flags rbuf payload).res = true) :
    consumedData flags (readDataContent flags rbuf payload).payload =
      dataLen flags (readDataContent flags rbuf payload).payload := by
  unfold readDataContent at hres ⊢
  split
  · assumption
  · rename_i hdata
    rw [if_neg hdata] at hres
    split
    · rename_i hnil
      simp [hnil] at hres
    · rename_i hne
      rw [if_neg hne] at hres
      simp only [beq_iff_eq] at hres
      rw [consumedData_add]
      exact hres

theorem readPaddingLength_same (hres : (readPaddingLength flags rbuf payload).res = true)
    (hsame : (readPaddingLength flags rbuf payload).rbuf = rbuf) :
    (readPaddingLength flags rbuf payload).payload = payload ∧ (hasFlag flags paddedFlag → 1 ≤ payload.consumedSize) := by
  unfold readPaddingLength at hres hsame ⊢
  split
  · rename_i hskip
    simp only [Bool.or_eq_true, Bool.not_eq_true', decide_eq_true_eq] at hskip
    exact ⟨rfl, fun hpadded => hskip.resolve_left (by simp [hpadded])⟩
  · rename_i hread
    rw [if_neg hread] at hres hsame
    cases rbuf with
    | nil => simp at hres
    | cons padding rest =>
        simp only at hsame
        split at hsame <;> simp at hsame

/-- With something in the buffer, a pass over a frame comes to its end, fails or reads something, unless the priority is
cut. -/
theorem readFrame_moves (hne : rbuf ≠ []) (hcut : ¬PriorityCut flags rbuf payload) :
    Moves rbuf (readFrame flags rbuf payload) := by
  obtain ⟨n₁, h₁⟩ := readPaddingLength_takes flags rbuf payload
  obtain ⟨n₂, -, h₂⟩ := h₁.andThen (readPriority_takes flags _ _)
  obtain ⟨n₃, -, h₃⟩ := h₂.andThen (readDataContent_takes flags _ _)
  have m₂ : Moves rbuf ((readPaddingLength flags rbuf payload).andThen (readPriority flags)) := by
    refine Moves.andThen h₁ (readPaddingLength_moves hne) (readPriority_takes flags _ _) fun hres _ hsame => ?_
    obtain ⟨hpayload, hpadded⟩ := readPaddingLength_same hres hsame
    rw [hsame, hpayload]
    exact readPriority_moves fun h => hcut ⟨h.1, hpadded, h.2⟩
  have m₃ := Moves.andThen h₂ m₂ (readDataContent_takes flags _ _) fun _ _ hsame =>
    readDataContent_moves (by rw [hsame]; exact hne)
  refine Moves.andThen h₃ m₃ (readPaddingContent_takes flags _ _) fun hres hec hsame => ?_
  obtain ⟨-, -, hdata⟩ := PayloadRead.andThen_res hres hec
  refine readPaddingContent_moves (by rw [hsame]; exact hne) ?_
  rw [hdata] at hres ⊢
  exact readDataContent_res hres

end Moves

/-! ## The phases of a frame -/

/-- The length that a frame header may have. -/
structure Sized (flags : UInt8) (total : Nat) : Prop where
  lt : total < 2 ^ 64
  le : prefixSize flags ≤ total
  priority : hasFlag flags priorityFlag → prefixSize flags < total

/-- What is behind the data is the padding and nothing else. -/
structure Body (flags : UInt8) (payload : PayloadStage) : Prop where
  start : prefixSize flags ≤ payload.consumedSize
  fits : payload.consumedSize + payload.padding.toNat ≤ payload.totalSize
  padding : hasFlag flags paddedFlag = false → payload.padding = 0

/-- The states of a frame between two passes: nothing is read, the priority is the next to be read, or the data is. -/
inductive Phase (flags : UInt8) (payload : PayloadStage) : Prop where
  | start (consumed : payload.consumedSize = 0) (padding : payload.padding = 0)
  | priority (padded : hasFlag flags paddedFlag) (priority : hasFlag flags priorityFlag)
      (consumed : payload.consumedSize = 1) (fits : prefixSize flags + payload.padding.toNat ≤ payload.totalSize)
  | body (body : Body flags payload) (consumed : payload.consumedSize < payload.totalSize)

section Phases

variable {flags : UInt8} {rbuf : Bytes} {payload : PayloadStage}

theorem Body.dataLen_eq (h : Body flags payload) (hsized : Sized flags payload.totalSize) :
    dataLen flags payload = payload.totalSize - payload.padding.toNat - prefixSize flags := by
  have hlt := hsized.lt
  have hfits := h.fits
  have hstart := h.start
  simp only [dataLen, prefixSize] at hstart ⊢
  cases hpadded : hasFlag flags paddedFlag
  · have hzero : payload.padding.toNat = 0 := by rw [h.padding hpadded]; rfl
    simp only [hpadded, Bool.false_eq_true, ↓reduceIte] at hstart ⊢
    rw [subSize_subSize (by omega) hlt]
    omega
  · simp only [hpadded, ↓reduceIte] at hstart ⊢
    rw [subSize_subSize (by omega) hlt]
    omega

theorem Body.consumedData_eq (h : Body flags payload) (hsized : Sized flags payload.totalSize) :
    consumedData flags payload = payload.consumedSize - prefixSize flags := by
  have hlt := hsized.lt
  have hfits := h.fits
  have hstart := h.start
  simp only [consumedData, prefixSize] at hstart ⊢
  rw [subSize_subSize (by omega) (by omega)]
  omega

/-- The bytes that leave the buffer are counted. -/
def Counts (rbuf : Bytes) (payload : PayloadStage) (r : PayloadRead) : Prop :=
  r.payload.consumedSize + r.rbuf.length = payload.consumedSize + rbuf.length

/-- What a function leaves for the next one, when it lets it be called. -/
def Leads (r : PayloadRead) (P : PayloadStage → Prop) : Prop := r.res = true → failed r.ec = false → P r.payload

/-- The state behind the padding length: the padding fits in behind the bytes in front of the data. -/
structure Fitted (flags : UInt8) (payload : PayloadStage) : Prop where
  fits : prefixSize flags + payload.padding.toNat ≤ payload.totalSize
  padding : hasFlag flags paddedFlag = false → payload.padding = 0
  next : (hasFlag flags priorityFlag ∧ payload.consumedSize + 5 = prefixSize flags) ∨ Body flags payload

theorem Phase.fitted_of_skip (h : Phase flags payload) (hsized : Sized flags payload.totalSize)
    (hskip : hasFlag flags paddedFlag = false ∨ 1 ≤ payload.consumedSize) : Fitted flags payload := by
  cases h with
  | start consumed padding =>
      have hpadded : hasFlag flags paddedFlag = false := hskip.resolve_right (by omega)
      have hle := hsized.le
      have hzero : payload.padding.toNat = 0 := by rw [padding]; rfl
      refine ⟨by omega, fun _ => padding, ?_⟩
      cases hpriority : hasFlag flags priorityFlag
      · have hsize₀ : prefixSize flags = 0 := by simp [prefixSize, hpadded, hpriority]
        exact .inr ⟨by omega, by omega, fun _ => padding⟩
      · have hsize₀ : prefixSize flags = 5 := by simp [prefixSize, hpadded, hpriority]
        exact .inl ⟨rfl, by omega⟩
  | priority padded priority consumed fits =>
      have hsize₀ : prefixSize flags = 6 := by simp [prefixSize, padded, priority]
      exact ⟨fits, fun h => by simp [padded] at h, .inl ⟨priority, by omega⟩⟩
  | body body consumed =>
      have := body.fits
      have := body.start
      exact ⟨by omega, body.padding, .inr body⟩

theorem readPaddingLength_phase (h : Phase flags payload) (hsized : Sized flags payload.totalSize)
    (hwraps : ¬PaddingWraps flags rbuf payload) :
    Counts rbuf payload (readPaddingLength flags rbuf payload) ∧
    Leads (readPaddingLength flags rbuf payload) (Fitted flags) ∧
    ((readPaddingLength flags rbuf payload).res = false → failed (readPaddingLength flags rbuf payload).ec = false →
      (readPaddingLength flags rbuf payload).rbuf = [] ∧ (readPaddingLength flags rbuf payload).payload = payload ∧
      payload.consumedSize < payload.totalSize) := by
  unfold Leads readPaddingLength
  split
  · rename_i hskip
    simp only [Bool.or_eq_true, Bool.not_eq_true', decide_eq_true_eq] at hskip
    exact ⟨rfl, fun _ _ => h.fitted_of_skip hsized hskip, fun hres => by simp at hres⟩
  · rename_i hread
    simp only [Bool.or_eq_true, Bool.not_eq_true', decide_eq_true_eq, not_or, Bool.not_eq_false, ge_iff_le,
      Nat.not_le] at hread
    cases rbuf with
    | nil =>
        have hle := hsized.le
        simp only [prefixSize, hread.1, ↓reduceIte] at hle
        exact ⟨rfl, fun hres => by simp at hres, fun _ _ => ⟨rfl, rfl, by omega⟩⟩
    | cons padding rest =>
        have hcounts : payload.consumedSize + 1 + rest.length = payload.consumedSize + (padding :: rest).length := by
          rw [List.length_cons]; omega
        simp only
        split
        · exact ⟨hcounts, fun hres => by simp at hres, fun _ hec => by simp [failed, Error.value] at hec⟩
        · rename_i hlt
          refine ⟨hcounts, fun _ _ => ?_, fun hres => by simp at hres⟩
          have hfits : prefixSize flags + padding.toNat ≤ payload.totalSize := by
            by_contra hbad
            exact hwraps ⟨hread.1, by omega, padding, rest, rfl, by omega, by omega⟩
          refine ⟨hfits, fun hpadded => by simp [hread.1] at hpadded, ?_⟩
          cases hpriority : hasFlag flags priorityFlag
          · have hsize₀ : prefixSize flags = 1 := by simp [prefixSize, hread.1, hpriority]
            exact .inr ⟨by simp only; omega, by simp only; omega, fun hpadded => by simp [hread.1] at hpadded⟩
          · have hsize₀ : prefixSize flags = 6 := by simp [prefixSize, hread.1, hpriority]
            exact .inl ⟨rfl, by simp only; omega⟩

theorem Fitted.phase_of_next (h : Fitted flags payload) (hpriority : hasFlag flags priorityFlag)
    (hnext : payload.consumedSize + 5 = prefixSize flags) : Phase flags payload := by
  cases hpadded : hasFlag flags paddedFlag
  · have hsize₀ : prefixSize flags = 5 := by simp [prefixSize, hpadded, hpriority]
    exact .start (by omega) (h.padding hpadded)
  · have hsize₀ : prefixSize flags = 6 := by simp [prefixSize, hpadded, hpriority]
    exact .priority hpadded hpriority (by omega) h.fits

theorem readPriority_phase (h : Fitted flags payload) :
    Counts rbuf payload (readPriority flags rbuf payload) ∧ Leads (readPriority flags rbuf payload) (Body flags) ∧
    ((readPriority flags rbuf payload).res = false → (readPriority flags rbuf payload).rbuf.length < 5 ∧
      hasFlag flags priorityFlag ∧ (readPriority flags rbuf payload).payload = payload ∧
      payload.consumedSize + 5 = prefixSize flags) := by
  have hsize : priorityConsumedSize flags = 5 + if hasFlag flags paddedFlag then 1 else 0 := rfl
  unfold Leads readPriority
  split
  · rename_i hskip
    simp only [Bool.or_eq_true, Bool.not_eq_true', decide_eq_true_eq] at hskip
    refine ⟨rfl, fun _ _ => h.next.resolve_left ?_, fun hres => by simp at hres⟩
    rintro ⟨hpriority, hnext⟩
    have := hskip.resolve_left (by simp [hpriority])
    simp only [prefixSize, hpriority, ↓reduceIte] at hnext
    omega
  · rename_i hread
    simp only [Bool.or_eq_true, Bool.not_eq_true', decide_eq_true_eq, not_or, Bool.not_eq_false, ge_iff_le,
      Nat.not_le] at hread
    have hnext : payload.consumedSize + 5 = prefixSize flags := by
      rcases h.next with ⟨-, hnext⟩ | hbody
      · exact hnext
      · have := hbody.start
        simp only [prefixSize, hread.1, ↓reduceIte] at this
        omega
    split
    · rename_i hshort
      exact ⟨rfl, fun hres => by simp at hres, fun _ => ⟨hshort, hread.1, rfl, hnext⟩⟩
    · have := h.fits
      refine ⟨by simp only [Counts, List.length_drop]; omega, fun _ _ => ⟨by simp only; omega, by simp only; omega, h.padding⟩, fun hres => by simp at hres⟩

theorem readDataContent_phase (h : Body flags payload) (hsized : Sized flags payload.totalSize) :
    Counts rbuf payload (readDataContent flags rbuf payload) ∧ Body flags (readDataContent flags rbuf payload).payload ∧
    ((readDataContent flags rbuf payload).res = true →
      (readDataContent flags rbuf payload).payload.consumedSize + payload.padding.toNat = payload.totalSize) ∧
    ((readDataContent flags rbuf payload).res = false → (readDataContent flags rbuf payload).rbuf = [] ∧
      (readDataContent flags rbuf payload).payload.consumedSize < payload.totalSize) := by
  have hlen := h.dataLen_eq hsized
  have hconsumed := h.consumedData_eq hsized
  have hstart := h.start
  have hfits := h.fits
  have hlt := hsized.lt
  unfold readDataContent
  split
  · rename_i hdata
    exact ⟨rfl, h, fun _ => by simp only; omega, fun hres => by simp at hres⟩
  · rename_i hdata
    split
    · rename_i hnil
      exact ⟨rfl, h, fun hres => by simp at hres, fun _ => ⟨hnil, by simp only; omega⟩⟩
    · have hleft : subSize (dataLen flags payload) (consumedData flags payload) =
          payload.totalSize - payload.padding.toNat - payload.consumedSize := by
        rw [subSize_of_le (by omega) (by omega)]; omega
      simp only [hleft]
      set n := min (payload.totalSize - payload.padding.toNat - payload.consumedSize) rbuf.length with hn
      simp only [hlen, hconsumed, addSize_of_lt (show payload.consumedSize + n < 2 ^ 64 by omega),
        addSize_of_lt (show payload.consumedSize - prefixSize flags + n < 2 ^ 64 by omega), beq_iff_eq,
        beq_eq_false_iff_ne, ne_eq]
      refine ⟨by simp only [Counts, List.length_drop]; omega, ⟨by simp only; omega, by simp only; omega, h.padding⟩,
        fun hres => by omega, fun hres => ?_⟩
      exact ⟨by rw [List.drop_eq_nil_iff]; omega, by omega⟩

theorem readPaddingContent_phase (h : Body flags payload) (hsized : Sized flags payload.totalSize)
    (hdata : payload.consumedSize + payload.padding.toNat = payload.totalSize)
    (hcut : ¬(hasFlag flags paddedFlag ∧ 0 < rbuf.length ∧ rbuf.length < payload.padding.toNat ∧ rbuf.all (· == 0)))
    (hec : failed (readPaddingContent flags rbuf payload).ec = false) :
    Counts rbuf payload (readPaddingContent flags rbuf payload) ∧
    ((readPaddingContent flags rbuf payload).res = true →
      (readPaddingContent flags rbuf payload).payload.consumedSize = payload.totalSize) ∧
    ((readPaddingContent flags rbuf payload).res = false → (readPaddingContent flags rbuf payload).rbuf = [] ∧
      (readPaddingContent flags rbuf payload).payload = payload ∧ payload.consumedSize < payload.totalSize) := by
  have hlt := hsized.lt
  have hlen := h.dataLen_eq hsized
  have hconsumed := h.consumedData_eq hsized
  unfold readPaddingContent at hec ⊢
  rw [if_neg (by omega)] at hec ⊢
  split
  · rename_i hskip
    refine ⟨rfl, fun _ => ?_, fun hres => by simp at hres⟩
    have hzero : payload.padding.toNat = 0 := by
      simp only [Bool.or_eq_true, Bool.not_eq_true', beq_iff_eq] at hskip
      rcases hskip with hpadded | hpadding
      · rw [h.padding hpadded]; rfl
      · rw [hpadding]; rfl
    simp only; omega
  · rename_i hread
    simp only [Bool.or_eq_true, Bool.not_eq_true', beq_iff_eq, not_or, Bool.not_eq_false] at hread
    have hpos : 0 < payload.padding.toNat := Nat.pos_of_ne_zero fun h => hread.2 (UInt8.toNat_inj.1 h)
    rw [if_neg (by simp [hread.1, hread.2])] at hec
    split
    · rename_i hnil
      exact ⟨rfl, fun hres => by simp at hres, fun _ => ⟨hnil, rfl, by omega⟩⟩
    · rename_i hne
      have hleft : subSize payload.totalSize payload.consumedSize = payload.padding.toNat := by
        rw [subSize_of_le (by omega) hlt]; omega
      rw [if_neg hne] at hec
      simp only [hleft] at hec ⊢
      rw [if_neg (by omega)] at hec ⊢
      split
      · rename_i hnonzero
        rw [if_pos hnonzero] at hec
        simp [failed, Error.value] at hec
      · rename_i hzero
        have hadd : addSize payload.consumedSize (min payload.padding.toNat rbuf.length) =
            payload.consumedSize + min payload.padding.toNat rbuf.length := addSize_of_lt (by omega)
        simp only [hadd]
        refine ⟨by simp only [Counts, List.length_drop]; omega, fun hres => by simpa using hres, fun hres => ?_⟩
        simp only [beq_eq_false_iff_ne, ne_eq] at hres
        -- not all of the padding is there: the buffer ends inside it
        refine absurd ⟨hread.1, List.length_pos_iff.2 hne, by omega, ?_⟩ hcut
        rw [Nat.min_eq_right (by omega), List.take_length] at hzero
        simpa using hzero

theorem readPaddingLength_padding (hpadded : hasFlag flags paddedFlag)
    (hres : (readPaddingLength flags rbuf payload).res = true) :
    (readPaddingLength flags rbuf payload).payload.padding.toNat = paddingLength rbuf payload := by
  unfold readPaddingLength paddingLength at *
  simp only [hpadded, Bool.not_true, Bool.false_or, decide_eq_true_eq] at hres ⊢
  by_cases hskip : payload.consumedSize ≥ 1
  · rw [if_pos hskip, if_neg (by omega)]
  · rw [if_neg hskip] at hres ⊢
    rw [if_pos (by omega)]
    cases rbuf with
    | nil => simp at hres
    | cons padding rest =>
        simp only
        split <;> rfl

theorem readPriority_padding : (readPriority flags rbuf payload).payload.padding = payload.padding := by
  unfold readPriority
  split
  · rfl
  · split <;> rfl

theorem readDataContent_padding : (readDataContent flags rbuf payload).payload.padding = payload.padding := by
  unfold readDataContent
  split
  · rfl
  · split <;> rfl

theorem readPriority_ec : (readPriority flags rbuf payload).ec = none := by
  unfold readPriority
  split
  · rfl
  · split <;> rfl

theorem readDataContent_ec : (readDataContent flags rbuf payload).ec = none := by
  unfold readDataContent
  split
  · rfl
  · split <;> rfl

theorem PayloadRead.andThen_stop {r : PayloadRead} {f : Bytes → PayloadStage → PayloadRead}
    (h : r.res = false ∨ failed r.ec = true) : r.andThen f = r := by
  unfold PayloadRead.andThen
  rw [if_pos]
  rcases h with h | h <;> simp [h]

theorem PayloadRead.andThen_go {r : PayloadRead} {f : Bytes → PayloadStage → PayloadRead} (hres : r.res = true)
    (hec : failed r.ec = false) :
    (r.andThen f).res = (f r.rbuf r.payload).res ∧ (r.andThen f).ec = (f r.rbuf r.payload).ec ∧
      (r.andThen f).rbuf = (f r.rbuf r.payload).rbuf ∧ (r.andThen f).payload = (f r.rbuf r.payload).payload := by
  unfold PayloadRead.andThen
  rw [if_neg (by simp [hres, hec])]
  exact ⟨rfl, rfl, rfl, rfl⟩

/-- How a pass over a frame ends that does not fail: it has read the frame to its end, or it leaves it in one of its
phases with nothing in the buffer but a part of the priority. -/
structure FrameRead (flags : UInt8) (rbuf : Bytes) (payload : PayloadStage) (r : PayloadRead) : Prop where
  counts : Counts rbuf payload r
  ends : (r.res = true ∧ r.payload.consumedSize = payload.totalSize) ∨
    (r.res = false ∧ Phase flags r.payload ∧ r.payload.consumedSize < payload.totalSize ∧
      (r.rbuf = [] ∨ PriorityCut flags r.rbuf r.payload))

theorem readBody_phase {r : PayloadRead} (hres : r.res = true) (hr : failed r.ec = false) (h : Body flags r.payload)
    (hsized : Sized flags r.payload.totalSize)
    (hcut : ¬(hasFlag flags paddedFlag ∧
      r.payload.totalSize < r.payload.consumedSize + r.rbuf.length + r.payload.padding.toNat ∧
      r.payload.consumedSize + r.rbuf.length < r.payload.totalSize ∧
      (r.rbuf.drop (r.payload.totalSize - r.payload.padding.toNat - r.payload.consumedSize)).all (· == 0)))
    (hec : failed ((r.andThen (readDataContent flags)).andThen (readPaddingContent flags)).ec = false) :
    FrameRead flags r.rbuf r.payload ((r.andThen (readDataContent flags)).andThen (readPaddingContent flags)) := by
  obtain ⟨n, htakes⟩ := readDataContent_takes flags r.rbuf r.payload
  obtain ⟨hcounts, hbody, hend, hwait⟩ := @readDataContent_phase flags r.rbuf r.payload h hsized
  have hpadding : (readDataContent flags r.rbuf r.payload).payload.padding = r.payload.padding := readDataContent_padding
  have hnone : failed (readDataContent flags r.rbuf r.payload).ec = false := by rw [readDataContent_ec]; rfl
  have htotal := htakes.totalSize
  have hlen := htakes.length_rbuf
  have hrbuf := htakes.rbuf
  obtain ⟨eres, eec, erbuf, epayload⟩ := PayloadRead.andThen_go (f := readDataContent flags) hres hr
  rw [← eres, ← epayload] at hend
  rw [← eres, ← erbuf, ← epayload] at hwait
  rw [← eec] at hnone
  rw [← erbuf] at hlen hrbuf
  rw [← epayload] at hbody hpadding htotal
  rw [Counts, ← erbuf, ← epayload] at hcounts
  set r₃ := r.andThen (readDataContent flags)
  cases hres₃ : r₃.res with
  | false =>
      rw [PayloadRead.andThen_stop (.inl hres₃)] at hec ⊢
      obtain ⟨hnil, hlt⟩ := hwait hres₃
      exact ⟨hcounts, .inr ⟨hres₃, .body hbody (by rw [htotal]; exact hlt), hlt, .inl hnil⟩⟩
  | true =>
      have hdata := hend hres₃
      obtain ⟨fres, fec, frbuf, fpayload⟩ := PayloadRead.andThen_go (f := readPaddingContent flags) hres₃ hnone
      rw [fec] at hec
      have hcut' : ¬(hasFlag flags paddedFlag ∧ 0 < r₃.rbuf.length ∧ r₃.rbuf.length < r₃.payload.padding.toNat ∧
          r₃.rbuf.all (· == 0)) := by
        rintro ⟨hpadded, hpos, hshort, hzero⟩
        rw [hpadding] at hshort
        refine hcut ⟨hpadded, by omega, by omega, ?_⟩
        have hn : r.payload.totalSize - r.payload.padding.toNat - r.payload.consumedSize = n := by omega
        rw [hn, ← hrbuf]
        exact hzero
      obtain ⟨hcounts₄, hend₄, hwait₄⟩ :=
        readPaddingContent_phase hbody (htotal ▸ hsized) (by rw [hpadding, htotal, hdata]) hcut' hec
      refine ⟨?_, ?_⟩
      · rw [Counts, frbuf, fpayload]
        exact hcounts₄.trans hcounts
      · rw [fres, frbuf, fpayload]
        cases hres₄ : (readPaddingContent flags r₃.rbuf r₃.payload).res with
        | true => exact .inl ⟨rfl, by rw [← htotal]; exact hend₄ hres₄⟩
        | false =>
            obtain ⟨hnil, hsame, hlt⟩ := hwait₄ hres₄
            rw [hsame]
            exact .inr ⟨rfl, .body hbody hlt, by rw [← htotal]; exact hlt, .inl hnil⟩

theorem readFrame_phase (h : Phase flags payload) (hsized : Sized flags payload.totalSize)
    (hwraps : ¬PaddingWraps flags rbuf payload) (hcut : ¬PaddingCut flags rbuf payload)
    (hec : failed (readFrame flags rbuf payload).ec = false) :
    FrameRead flags rbuf payload (readFrame flags rbuf payload) := by
  unfold readFrame at hec ⊢
  obtain ⟨hcounts₁, hfitted, hwait⟩ := readPaddingLength_phase h hsized hwraps
  obtain ⟨n₁, htakes₁⟩ := readPaddingLength_takes flags rbuf payload
  have hpadding₁ := @readPaddingLength_padding flags rbuf payload
  set r₁ := readPaddingLength flags rbuf payload
  cases hres₁ : r₁.res with
  | false =>
      simp only [PayloadRead.andThen_stop (.inl hres₁)] at hec ⊢
      obtain ⟨hnil, hsame, hlt⟩ := hwait hres₁ hec
      refine ⟨hcounts₁, .inr ⟨hres₁, ?_, ?_, .inl hnil⟩⟩
      · rw [hsame]; exact h
      · rw [hsame]; exact hlt
  | true =>
      cases hec₁ : failed r₁.ec with
      | true =>
          simp only [PayloadRead.andThen_stop (.inr hec₁)] at hec
          rw [hec₁] at hec
          cases hec
      | false =>
          have hfit := hfitted hres₁ hec₁
          obtain ⟨hcounts₂, hbody, hshort⟩ := @readPriority_phase flags r₁.rbuf r₁.payload hfit
          obtain ⟨n₂, htakes₂⟩ := readPriority_takes flags r₁.rbuf r₁.payload
          have hnone : failed (readPriority flags r₁.rbuf r₁.payload).ec = false := by rw [readPriority_ec]; rfl
          have hpadding₂ : (readPriority flags r₁.rbuf r₁.payload).payload.padding = r₁.payload.padding :=
            readPriority_padding
          have htotal := htakes₂.totalSize.trans htakes₁.totalSize
          have hlen₁ := htakes₁.length_rbuf
          have hlen₂ := htakes₂.length_rbuf
          have hrbuf := htakes₂.rbuf
          obtain ⟨eres, eec, erbuf, epayload⟩ := PayloadRead.andThen_go (f := readPriority flags) hres₁ hec₁
          rw [← eec] at hnone
          rw [← erbuf] at hlen₂ hrbuf
          rw [← epayload] at hpadding₂ htotal
          rw [← eres, ← erbuf, ← epayload] at hshort
          rw [Leads, ← eres, ← eec, ← epayload] at hbody
          rw [Counts, ← erbuf, ← epayload] at hcounts₂
          have hcounts := hcounts₂.trans hcounts₁
          set r₂ := r₁.andThen (readPriority flags)
          cases hres₂ : r₂.res with
          | false =>
              simp only [PayloadRead.andThen_stop (.inl hres₂)] at hec ⊢
              obtain ⟨hlen, hpriority, hsame, hnext⟩ := hshort hres₂
              have hless := hsized.priority hpriority
              refine ⟨hcounts, .inr ?_⟩
              rw [hsame]
              refine ⟨hres₂, hfit.phase_of_next hpriority hnext, by omega, .inr ⟨hpriority, ?_, ?_, hlen⟩⟩
              · intro hpadded
                simp only [prefixSize, hpadded, hpriority, ↓reduceIte] at hnext
                omega
              · simp only [priorityConsumedSize]
                simp only [prefixSize, hpriority, ↓reduceIte] at hnext
                omega
          | true =>
              have hbody₂ := hbody hres₂ hnone
              have hfits := hbody₂.fits
              have hread := readBody_phase hres₂ hnone hbody₂ (htotal ▸ hsized) ?_ hec
              · exact ⟨hread.counts.trans hcounts, by rw [← htotal]; exact hread.ends⟩
              rintro ⟨hpadded, hmore, hless, hzero⟩
              have hpad : r₂.payload.padding.toNat = paddingLength rbuf payload := by
                rw [hpadding₂, hpadding₁ hpadded hres₁]
              refine hcut ⟨hpadded, by omega, by omega, ?_⟩
              have hdrop : n₁ + (n₂ + (r₂.payload.totalSize - r₂.payload.padding.toNat - r₂.payload.consumedSize)) =
                  payload.totalSize - paddingLength rbuf payload - payload.consumedSize := by omega
              rw [hrbuf, htakes₁.rbuf, List.drop_drop, List.drop_drop, hdrop] at hzero
              exact hzero

theorem readFrame_complete (h : Phase flags payload) (hsized : Sized flags payload.totalSize)
    (hwraps : ¬PaddingWraps flags rbuf payload) (hall : payload.totalSize ≤ payload.consumedSize + rbuf.length)
    (hec : failed (readFrame flags rbuf payload).ec = false) :
    (readFrame flags rbuf payload).res = true ∧
      (readFrame flags rbuf payload).payload.consumedSize = payload.totalSize := by
  have hcut : ¬PaddingCut flags rbuf payload := fun hcut => absurd hcut.2.2.1 (by omega)
  obtain ⟨hcounts, hends⟩ := readFrame_phase h hsized hwraps hcut hec
  unfold Counts at hcounts
  refine hends.resolve_right ?_
  rintro ⟨-, hphase, hlt, hnil | ⟨hpriority, -, hless, hshort⟩⟩
  · have hzero : (readFrame flags rbuf payload).rbuf.length = 0 := by rw [hnil]; rfl
    omega
  · have hmore := hsized.priority hpriority
    have hsize : priorityConsumedSize flags = prefixSize flags := by
      simp only [priorityConsumedSize, prefixSize, hpriority, ↓reduceIte]; omega
    cases hphase with
    | start consumed => simp only [prefixSize, hpriority, ↓reduceIte] at hmore; omega
    | priority padded priority consumed fits => simp only [prefixSize, padded, hpriority, ↓reduceIte] at hmore; omega
    | body body consumed => have := body.start; omega

end Phases

end Rad.Http2
