import Rad.Hpack.Codec
import Rad.Lib.BoundedFifo
import Rad.RingBuffer.Lemmas.Bulk

/-!
# The dynamic table as a FIFO table with a budget
-/

namespace Rad.RingBuffer

open Lib

variable {α : Type*} {b : RingBuffer α} {l : List α}

/-! ## Rings that may have no storage yet -/

/-- The ring holds the elements `l`; without storage it holds none. -/
def Stores (b : RingBuffer α) (l : List α) : Prop := (b = null ∧ l = []) ∨ Repr b l

theorem Stores.size_eq (h : Stores b l) : b.size = l.length := by
  rcases h with ⟨rfl, rfl⟩ | h
  · rfl
  · exact h.count_eq

theorem Stores.empty_iff (h : Stores b l) : b.empty = true ↔ l = [] := by
  simp [RingBuffer.empty, h.size_eq]

theorem Stores.clear (h : Stores b l) : Stores b.clear [] := by
  rcases h with ⟨rfl, rfl⟩ | h
  · exact Or.inl ⟨rfl, rfl⟩
  · exact Or.inr h.clear

theorem Stores.popFrontValue {x : α} (h : Stores b (x :: l)) :
    b.popFrontValue.1 = some x ∧ Stores b.popFrontValue.2 l := by
  rcases h with ⟨-, hl⟩ | h
  · cases hl
  · rw [h.popFrontValue]
    exact ⟨rfl, Or.inr (h.popFront (by simp))⟩

theorem Stores.findIf_eq (h : Stores b l) (pred : α → Bool) :
    (b.findIf pred).map (fun it => b.pointerToIndex (some it) - b.pointerToIndex b.begin) = l.findIdx? pred := by
  rcases h with ⟨rfl, rfl⟩ | h
  · rfl
  · rw [h.findIf_eq, Option.map_map]
    rcases hf : l.findIdx? pred with _ | i
    · rfl
    · have hi : i < l.length := (List.findIdx?_eq_some_iff_findIdx_eq.mp hf).1
      have hbegin : b.pointerToIndex b.begin = 0 := by
        have hne : ¬ b.empty = true := by rw [h.empty_iff]; rintro rfl; simp at hi
        simp [begin, hne, pointerToIndex]
      simp only [Option.map_some, Function.comp_apply, h.pointerToIndex_wrap hi, hbegin, Nat.sub_zero]

theorem Stores.get_eq (h : Stores b l) {i : Nat} (hi : i < l.length) : b.get i = l[i]? := by
  rcases h with ⟨-, rfl⟩ | h
  · simp at hi
  · exact h.get_eq hi

theorem Stores.growEmplaceBack (h : Stores b l) (x : α) :
    Stores ((if b.full then b.setCapacity (max (b.capacity * 2) 1) else b).emplaceBack x) (l ++ [x]) := by
  right
  rcases h with ⟨rfl, rfl⟩ | h
  · have hnull := Repr.setCapacity_null (α := α) (n := 1) (by omega)
    have := hnull.1.emplaceBack x
    rw [hnull.2] at this
    exact this
  · have hp := h.cap_pos
    have hle := h.length_le
    by_cases hfull : l.length = b.capacity
    · obtain ⟨hr, hcap⟩ := h.setCapacity (n := max (b.capacity * 2) 1) (by omega)
      rw [if_pos (h.full_iff.mpr hfull)]
      have := hr.emplaceBack x
      rwa [hcap, show l.length - max (b.capacity * 2) 1 = 0 by omega, List.drop_zero, pushSpec,
        if_neg (by omega)] at this
    · rw [if_neg fun hf => hfull (h.full_iff.mp hf)]
      have := h.emplaceBack x
      rwa [pushSpec, if_neg hfull] at this

end Rad.RingBuffer

namespace Rad.Hpack

open Lib BoundedFifo

/-! ## The representation -/

/-- The table holds the entries `l`, oldest first, counts their size and is within its budget. -/
structure DynamicTable.Holds (t : DynamicTable) (l : List (Bytes × Bytes)) : Prop where
  stores : t.headers.Stores l
  size_eq : t.headersSize = total headerSize l
  size_le : t.headersSize ≤ t.maxSize

namespace DynamicTable

variable {t : DynamicTable} {l : List (Bytes × Bytes)}

theorem Holds.fresh : Holds {} [] := ⟨Or.inl ⟨rfl, rfl⟩, rfl, Nat.le_refl _⟩

theorem removeSize_spec (l : List (Bytes × Bytes)) : ∀ {t : DynamicTable} {n : Nat}, t.headers.Stores l →
    t.headersSize = total headerSize l → n ≤ total headerSize l →
      (t.removeSize n).headers.Stores (evict headerSize (total headerSize l - n) l) ∧
      (t.removeSize n).headersSize = total headerSize (evict headerSize (total headerSize l - n) l) ∧
      (t.removeSize n).maxSize = t.maxSize := by
  induction l with
  | nil =>
      intro t n hs hsize hn
      rw [removeSize, if_neg (by simpa using hn)]
      exact ⟨hs, hsize, rfl⟩
  | cons x l ih =>
      intro t n hs hsize hn
      rw [removeSize]
      by_cases hpos : n > 0
      · have hne : ¬ t.headers.empty = true := by rw [hs.empty_iff]; simp
        obtain ⟨hx, hrest⟩ := hs.popFrontValue
        rw [total_cons] at hsize hn
        rw [if_pos hpos, dif_neg hne]
        simp only [hx, Option.getD_some]
        obtain ⟨h1, h2, h3⟩ := ih (t := { t with
            headers := t.headers.popFrontValue.2
            headersSize := t.headersSize - min t.headersSize (headerSize x) })
          (n := n - min n (headerSize x)) hrest (by simp only; omega) (by omega)
        -- what is left to remove leaves the same budget for the entries behind `x`
        have hevict : evict headerSize (total headerSize (x :: l) - n) (x :: l) =
            evict headerSize (total headerSize l - (n - min n (headerSize x))) l := by
          rw [evict, if_neg (by rw [total_cons]; omega), total_cons]
          by_cases hle : n ≤ headerSize x
          · rw [evict_of_le (by omega), evict_of_le (by omega)]
          · congr 1; omega
        rw [hevict]
        exact ⟨h1, h2, h3⟩
      · rw [if_neg hpos, show n = 0 by omega, Nat.sub_zero, evict_of_le (Nat.le_refl _)]
        exact ⟨hs, hsize, rfl⟩

theorem Holds.add (h : t.Holds l) (name value : Bytes) :
    (t.add name value).Holds (insert headerSize t.maxSize l (name, value)) ∧
      (t.add name value).maxSize = t.maxSize := by
  have hsize := h.size_eq
  have hle := h.size_le
  unfold DynamicTable.add BoundedFifo.insert
  by_cases hbig : headerSize (name, value) > t.maxSize
  · simp only [if_pos hbig]
    exact ⟨⟨h.stores.clear, rfl, Nat.zero_le _⟩, trivial⟩
  · simp only [if_neg hbig]
    generalize ht' : (if t.headersSize + headerSize (name, value) > t.maxSize then
      t.removeSize (t.headersSize + headerSize (name, value) - t.maxSize) else t) = t'
    have hroom : t'.headers.Stores (evict headerSize (t.maxSize - headerSize (name, value)) l) ∧
        t'.headersSize = total headerSize (evict headerSize (t.maxSize - headerSize (name, value)) l) ∧
        t'.maxSize = t.maxSize := by
      subst ht'
      split
      · have := removeSize_spec l (n := t.headersSize + headerSize (name, value) - t.maxSize) h.stores hsize (by omega)
        rwa [show total headerSize l - (t.headersSize + headerSize (name, value) - t.maxSize) =
          t.maxSize - headerSize (name, value) by omega] at this
      · rw [evict_of_le (by omega)]
        exact ⟨h.stores, hsize, rfl⟩
    obtain ⟨hst, hsz, hmax⟩ := hroom
    have htotal := @total_evict_le _ headerSize (t.maxSize - headerSize (name, value)) l
    refine ⟨⟨hst.growEmplaceBack _, ?_, ?_⟩, hmax⟩
    · simp only [hsz, total_append, total_cons, total_nil, Nat.add_zero]
    · simp only [hsz, hmax]; omega

theorem evict_zero (l : List (Bytes × Bytes)) : evict headerSize 0 l = [] := by
  induction l with
  | nil => rfl
  | cons x l ih => rw [evict, if_neg (by rw [total_cons, headerSize]; omega), ih]

theorem Holds.setMaxSize (h : t.Holds l) (n : Nat) :
    (t.setMaxSize n).Holds (evict headerSize n l) ∧ (t.setMaxSize n).maxSize = n := by
  have hsize := h.size_eq
  unfold DynamicTable.setMaxSize
  by_cases hn : n = 0
  · rw [if_pos hn, hn, evict_zero]
    exact ⟨⟨h.stores.clear, rfl, Nat.le_refl _⟩, rfl⟩
  · simp only [if_neg hn]
    by_cases hlt : n < t.headersSize
    · simp only [if_pos hlt]
      obtain ⟨h1, h2, h3⟩ := removeSize_spec l (t := { t with maxSize := n }) (n := t.headersSize - n)
        h.stores hsize (by omega)
      have hbudget : total headerSize l - (t.headersSize - n) = n := by omega
      rw [hbudget] at h1 h2
      have htotal := @total_evict_le _ headerSize n l
      exact ⟨⟨h1, h2, by rw [h2, h3]; exact htotal⟩, h3⟩
    · simp only [if_neg hlt]
      rw [evict_of_le (by omega)]
      exact ⟨⟨h.stores, hsize, by simp only; omega⟩, trivial⟩

/-! ## Looking up -/

theorem Holds.indexOf_eq (h : t.Holds l) (pred : Bytes × Bytes → Bool) :
    (t.headers.findIf pred).map t.indexOf = (l.findIdx? pred).map fun i => l.length - i + 61 := by
  rw [← h.stores.findIf_eq pred, Option.map_map]
  congr 1
  funext it
  rw [Function.comp_apply, indexOf, h.stores.size_eq]

theorem Holds.find_eq (h : t.Holds l) (name value : Bytes) :
    t.find name value =
      (l.findIdx? fun header => iequal name header.1 && value == header.2).map fun i => l.length - i + 61 :=
  h.indexOf_eq _

theorem Holds.findName_eq (h : t.Holds l) (name : Bytes) :
    t.findName name = (l.findIdx? fun header => iequal name header.1).map fun i => l.length - i + 61 :=
  h.indexOf_eq _

theorem Holds.getHeader_eq (h : t.Holds l) (i : Nat) :
    t.getHeader i = if i ≥ l.length then none else l[l.length - i - 1]? := by
  rw [getHeader, h.stores.size_eq]
  split
  · rfl
  · exact h.stores.get_eq (by omega)

theorem Holds.getHeader_indexOf (h : t.Holds l) {i : Nat} (hi : i < l.length) :
    t.getHeader (l.length - i + 61 - 1 - 61) = l[i]? := by
  rw [h.getHeader_eq, if_neg (by omega)]
  congr 1
  omega

theorem Holds.length_le (h : t.Holds l) : 32 * l.length ≤ t.maxSize := by
  have hsum : ∀ l : List (Bytes × Bytes), 32 * l.length ≤ total headerSize l := by
    intro l
    induction l with
    | nil => simp
    | cons x l ih => rw [total_cons, List.length_cons, headerSize]; omega
  have := hsum l
  have := h.size_eq
  have := h.size_le
  omega

end DynamicTable

end Rad.Hpack
