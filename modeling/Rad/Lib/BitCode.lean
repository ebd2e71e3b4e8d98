import Mathlib.Algebra.Group.Int.Defs
import Mathlib.Algebra.GroupWithZero.Nat
import Mathlib.Data.List.Basic
import Mathlib.Data.List.Induction

/-!
# Bit strings and prefix codes

Bit strings are lists of booleans, the most significant bit first. A prefix code is read by extending a window bit by
bit until it is a code word.
-/

namespace Rad.Lib

/-! ## Codes

A code has a word for each of its symbols. A text of words is read from the front, one word after the other.
-/

/-- A reader that takes a word from the front of a text, whatever is behind it, and nothing else. -/
structure Code (κ υ : Type*) where
  valid : κ → Prop
  word : κ → List υ
  read : List υ → Option (κ × List υ)
  word_ne_nil : ∀ {k}, valid k → word k ≠ []
  read_iff : ∀ {t k rest}, read t = some (k, rest) ↔ valid k ∧ t = word k ++ rest

namespace Code

variable {κ υ : Type*} (c : Code κ υ)

/-- The symbols of a text. -/
def Spells (ks : List κ) (t : List υ) : Prop := (∀ k ∈ ks, c.valid k) ∧ ks.flatMap c.word = t

/-- A text of words. -/
def IsText (t : List υ) : Prop := ∃ ks, c.Spells ks t

variable {c} {k : κ} {ks : List κ} {t rest : List υ}

theorem read_word (h : c.valid k) : c.read (c.word k ++ rest) = some (k, rest) := c.read_iff.2 ⟨h, rfl⟩

theorem length_lt_of_read (h : c.read t = some (k, rest)) : rest.length < t.length := by
  obtain ⟨hvalid, rfl⟩ := c.read_iff.1 h
  have := List.length_pos_of_ne_nil (c.word_ne_nil hvalid)
  rw [List.length_append]
  omega

theorem spells_nil : c.Spells [] [] := ⟨nofun, rfl⟩

theorem Spells.cons (h : c.valid k) (hks : c.Spells ks rest) : c.Spells (k :: ks) (c.word k ++ rest) :=
  ⟨List.forall_mem_cons.2 ⟨h, hks.1⟩, by rw [List.flatMap_cons, hks.2]⟩

theorem spells_cons_iff : c.Spells (k :: ks) t ↔ c.valid k ∧ ∃ rest, t = c.word k ++ rest ∧ c.Spells ks rest := by
  constructor
  · rintro ⟨hvalid, rfl⟩
    obtain ⟨hk, hks⟩ := List.forall_mem_cons.1 hvalid
    exact ⟨hk, _, List.flatMap_cons, hks, rfl⟩
  · rintro ⟨hk, rest, rfl, hks⟩
    exact .cons hk hks

theorem isText_nil : c.IsText [] := ⟨[], spells_nil⟩

/-- What is read from a text leaves a text, and only this. -/
theorem isText_iff_of_read (h : c.read t = some (k, rest)) : c.IsText t ↔ c.IsText rest := by
  obtain ⟨hvalid, rfl⟩ := c.read_iff.1 h
  constructor
  · rintro ⟨ks, hks⟩
    cases ks with
    | nil => exact absurd (List.append_eq_nil_iff.1 hks.2.symm).1 (c.word_ne_nil hvalid)
    | cons k' ks =>
        obtain ⟨hk', rest', htext, hks⟩ := spells_cons_iff.1 hks
        have hread : c.read (c.word k' ++ rest') = some (k', rest') := read_word hk'
        rw [← htext, h] at hread
        cases hread
        exact ⟨ks, hks⟩
  · rintro ⟨ks, hks⟩
    exact ⟨k :: ks, hks.cons hvalid⟩

/-- Where nothing can be read there is no text, but for the empty one. -/
theorem not_isText_of_read (h : c.read t = none) (hne : t ≠ []) : ¬c.IsText t := by
  rintro ⟨ks, hks⟩
  cases ks with
  | nil => exact hne hks.2.symm
  | cons k ks =>
      obtain ⟨hk, rest, rfl, -⟩ := spells_cons_iff.1 hks
      rw [read_word hk] at h
      cases h

end Code

/-! ## Bit strings as numbers -/

/-- The number that a bit string writes. -/
def ofBits (bits : List Bool) : Nat := bits.foldl (fun n b => 2 * n + b.toNat) 0

/-- The lowest `k` bits of a number. -/
def toBits : Nat → Nat → List Bool
  | 0, _ => []
  | k + 1, n => toBits k (n / 2) ++ [n % 2 == 1]

@[simp] theorem ofBits_nil : ofBits [] = 0 := rfl

@[simp] theorem ofBits_concat (bits : List Bool) (b : Bool) : ofBits (bits ++ [b]) = 2 * ofBits bits + b.toNat := by
  simp [ofBits]

theorem ofBits_lt (bits : List Bool) : ofBits bits < 2 ^ bits.length := by
  induction bits using List.reverseRecOn with
  | nil => simp
  | append_singleton bits b ih =>
      have := b.toNat_lt
      rw [ofBits_concat, List.length_append, List.length_singleton, Nat.pow_succ]
      omega

example : ofBits [true, false, true] = 5 := by decide +kernel

theorem ofBits_append (xs ys : List Bool) : ofBits (xs ++ ys) = ofBits xs * 2 ^ ys.length + ofBits ys := by
  induction ys using List.reverseRecOn with
  | nil => simp
  | append_singleton ys b ih =>
      rw [← List.append_assoc, ofBits_concat, ofBits_concat, ih, List.length_append, List.length_singleton,
        Nat.pow_succ, ← Nat.mul_assoc]
      omega

theorem ofBits_replicate_true (k : Nat) : ofBits (List.replicate k true) = 2 ^ k - 1 := by
  induction k with
  | zero => rfl
  | succ k ih =>
      have := Nat.one_le_two_pow (n := k)
      rw [List.replicate_succ', ofBits_concat, ih, Nat.pow_succ]
      simp only [Bool.toNat_true]
      omega

@[simp] theorem length_toBits (k n : Nat) : (toBits k n).length = k := by
  induction k generalizing n with
  | zero => rfl
  | succ k ih => simp [toBits, ih]

theorem toBits_ofBits (bits : List Bool) : toBits bits.length (ofBits bits) = bits := by
  induction bits using List.reverseRecOn with
  | nil => rfl
  | append_singleton bits b ih =>
      have hdiv : (2 * ofBits bits + b.toNat) / 2 = ofBits bits := by
        have := b.toNat_lt; omega
      have hmod : ((2 * ofBits bits + b.toNat) % 2 == 1) = b := by
        cases b <;> simp [Nat.add_mod]
      rw [List.length_append, List.length_singleton, toBits, ofBits_concat, hdiv, hmod, ih]

theorem ofBits_toBits (k n : Nat) : ofBits (toBits k n) = n % 2 ^ k := by
  induction k generalizing n with
  | zero => rw [toBits, ofBits_nil, Nat.pow_zero, Nat.mod_one]
  | succ k ih =>
      have hbit : (n % 2 == 1).toNat = n % 2 := by
        rcases Nat.mod_two_eq_zero_or_one n with h | h <;> simp [h]
      rw [toBits, ofBits_concat, ih, hbit, Nat.pow_succ', Nat.mod_mul, Nat.add_comm]

theorem ofBits_inj {xs ys : List Bool} (hlen : xs.length = ys.length) (h : ofBits xs = ofBits ys) : xs = ys := by
  rw [← toBits_ofBits xs, ← toBits_ofBits ys, hlen, h]

theorem ofBits_div_of_prefix {xs ys : List Bool} (h : xs <+: ys) :
    ofBits ys / 2 ^ (ys.length - xs.length) = ofBits xs := by
  obtain ⟨t, rfl⟩ := h
  have ht : (xs ++ t).length - xs.length = t.length := by rw [List.length_append]; omega
  rw [ht, ofBits_append, Nat.mul_comm, Nat.mul_add_div (Nat.two_pow_pos _), Nat.div_eq_of_lt (ofBits_lt t)]
  rfl

/-! ## Prefix codes -/

variable {σ : Type*}

/-- No code word is the beginning of another one. -/
def PrefixFree (code : σ → List Bool) : Prop := ∀ s t, code s <+: code t → s = t

/-- What reading one code word ends with. -/
inductive Word (σ : Type*) where
  | symbol (s : σ) (rest : List Bool)
  | exhausted (window : List Bool)
  | notFound

/-- Extends the window, by at most `n` bits, until it is a code word. -/
def readWord (lookup : List Bool → Option σ) : Nat → List Bool → List Bool → Word σ
  | 0, _, _ => .notFound
  | _ + 1, window, [] => .exhausted window
  | n + 1, window, b :: bits =>
    match lookup (window ++ [b]) with
    | some s => .symbol s bits
    | none => readWord lookup n (window ++ [b]) bits

section

variable {code : σ → List Bool} {lookup : List Bool → Option σ}

theorem readWord_cons (n : Nat) (window : List Bool) (b : Bool) (bits : List Bool) :
    readWord lookup (n + 1) window (b :: bits) =
      match lookup (window ++ [b]) with
      | some s => .symbol s bits
      | none => readWord lookup n (window ++ [b]) bits := rfl

/-- The rest of the code word of `s` completes the window to `s` and leaves what follows. -/
theorem readWord_code (hfree : PrefixFree code) (hlookup : ∀ w s, lookup w = some s ↔ code s = w) {s : σ}
    {rest : List Bool} : ∀ {more window : List Bool} {n : Nat}, window ++ more = code s → more ≠ [] →
      more.length ≤ n → readWord lookup n window (more ++ rest) = .symbol s rest
  | [], _, _, _, hne, _ => absurd rfl hne
  | b :: more, window, 0, _, _, hn => absurd hn (by simp)
  | b :: more, window, n + 1, hcode, _, hn => by
      rw [List.cons_append, readWord_cons]
      rcases hl : lookup (window ++ [b]) with _ | t
      · have hne : more ≠ [] := by
          rintro rfl
          rw [(hlookup _ s).mpr hcode.symm] at hl
          cases hl
        exact readWord_code hfree hlookup (by simpa using hcode) hne (by simpa using hn)
      · -- a code word inside the code word of `s` is the code word of `s`
        have ht := (hlookup _ t).mp hl
        have hpre : code t <+: code s := by
          rw [ht, ← hcode]; exact ⟨more, by simp⟩
        obtain rfl := hfree t s hpre
        have hmore : more = [] := by
          rw [ht] at hcode
          simpa using hcode
        rw [hmore]; rfl

/-- Bits that complete no code word exhaust the input. -/
theorem readWord_padding : ∀ {bits window : List Bool} {n : Nat}, bits.length < n →
    (∀ w, w <+: window ++ bits → lookup w = none) → readWord lookup n window bits = .exhausted (window ++ bits)
  | [], window, n + 1, _, _ => by simp [readWord]
  | b :: bits, window, n + 1, hn, hnone => by
      have hassoc : window ++ b :: bits = (window ++ [b]) ++ bits := by simp
      rw [readWord_cons, hnone (window ++ [b]) (by rw [hassoc]; exact List.prefix_append _ _), hassoc]
      exact readWord_padding (by simpa using hn) (by rwa [← hassoc])

/-- A symbol is read when the window has grown to its code word. -/
theorem readWord_eq_symbol : ∀ {bits window : List Bool} {n : Nat} {s : σ} {rest : List Bool},
    readWord lookup n window bits = .symbol s rest → ∃ more, bits = more ++ rest ∧ lookup (window ++ more) = some s
  | _, _, 0, _, _, h => nomatch h
  | [], _, _ + 1, _, _, h => nomatch h
  | b :: bits, window, n + 1, s, rest, h => by
      rw [readWord_cons] at h
      cases hl : lookup (window ++ [b]) with
      | none =>
          rw [hl] at h
          obtain ⟨more, hbits, hmore⟩ := readWord_eq_symbol h
          exact ⟨b :: more, by rw [hbits, List.cons_append], by simpa using hmore⟩
      | some t =>
          rw [hl] at h
          cases h
          exact ⟨[b], rfl, hl⟩

/-- The input is exhausted when all of it is in the window. -/
theorem readWord_eq_exhausted : ∀ {bits window : List Bool} {n : Nat} {w : List Bool},
    readWord lookup n window bits = .exhausted w → w = window ++ bits ∧ bits.length < n
  | [], _, 0, _, h => nomatch h
  | _ :: _, _, 0, _, h => nomatch h
  | [], _, _ + 1, _, h => by
      cases h
      simp
  | b :: bits, window, n + 1, w, h => by
      rw [readWord_cons] at h
      cases hl : lookup (window ++ [b]) with
      | none =>
          rw [hl] at h
          obtain ⟨hw, hn⟩ := readWord_eq_exhausted h
          exact ⟨by simpa using hw, by simpa using hn⟩
      | some t =>
          rw [hl] at h
          cases h

end

end Rad.Lib
