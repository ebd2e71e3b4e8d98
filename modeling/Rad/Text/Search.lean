import Rad.Lib.Loop
import Rad.Text.Ascii

/-!
# Searching in strings (include/rad/string.h)

The functions are templates over the character type, so `tolower_ch` is a parameter. A position is `none` where the code has
`npos`. The loops that count and replace are left by returning only, and they have no result where `substr` throws.

The search without case finds what the search in the folded strings finds, but for a match that is the whole rest of the
string: there it returns zero, and the callers go back to the beginning.
-/

namespace Rad.Text

open Lib

section

variable {CharT : Type} [DecidableEq CharT]

/-! ## `std::basic_string_view::find` -/

/-- `toFind` stands at the index. -/
def MatchesAt (str toFind : List CharT) (i : Nat) : Prop := i ≤ str.length ∧ toFind <+: str.drop i

instance (str toFind : List CharT) (i : Nat) : Decidable (MatchesAt str toFind i) :=
  inferInstanceAs (Decidable (_ ∧ _))

def find (str toFind : List CharT) (pos : Nat) : Option Nat :=
  (List.range (str.length + 1)).find? fun i => pos ≤ i ∧ MatchesAt str toFind i

/-! ## Loops -/

/-- A pass of the loop of `count_occurance` and `icount_occurance`; the state is the count and the index. -/
def countPass (search : Nat → Option (Option Nat)) : Nat × Option Nat → Pass (Nat × Option Nat) (Option Nat)
  | (count, none) => .done (some count)
  | (count, some index) =>
    match search (index + 1) with
    | none => .done none
    | some r => .next (count + 1, r)

/-- `std::basic_string::replace`. -/
def replaceAt (str : List CharT) (pos count : Nat) (to' : List CharT) : List CharT :=
  str.take pos ++ (to' ++ str.drop (pos + count))

/-- A pass of the loop of `replace_all` and `ireplace_all`; the state is the string and the position. -/
def replacePass (search : List CharT → Nat → Option (Option Nat)) (count : Nat) (to' : List CharT) :
    List CharT × Option Nat → Pass (List CharT × Option Nat) (Option (List CharT))
  | (str, none) => .done (some str)
  | (str, some pos) =>
    let str := replaceAt str pos count to'
    match search str (pos + to'.length) with
    | none => .done none
    | some r => .next (str, r)

/-- `count_occurance`. -/
def CountOccurance (str toFind : List CharT) (n : Nat) : Prop :=
  Returns (countPass fun pos => some (find str toFind pos)) (0, find str toFind 0) (some n)

/-- `replace_all`. -/
def ReplaceAll (str from' to' str' : List CharT) : Prop :=
  Returns (replacePass (fun str pos => some (find str from' pos)) from'.length to') (str, find str from' 0) (some str')

section

variable (tolowerCh : CharT → CharT)

def iequal (str1 str2 : List CharT) : Bool :=
  str1.length == str2.length && (str1.zip str2).all fun p => tolowerCh p.1 == tolowerCh p.2

/-- The loop of `ifind` behind the `i` characters in front of `str`. -/
def ifindLoop (toFind : List CharT) (i : Nat) (str : List CharT) : Option Nat :=
  match str with
  | [] => none
  | ch :: rest =>
    if (ch :: rest).length < toFind.length then none
    else if ((ch :: rest).zip toFind).all fun p => tolowerCh p.1 == tolowerCh p.2 then some i
    else ifindLoop toFind (i + 1) rest

/-- `ifind`; no result where `substr` throws. -/
def ifind (str toFind : List CharT) (pos : Nat) : Option (Option Nat) :=
  if str.length < pos then none
  else
    let str := str.drop pos
    if str.length < toFind.length then some none
    else if toFind.length = str.length then some (if iequal tolowerCh str toFind then some 0 else none)
    else some (ifindLoop tolowerCh toFind pos str)

/-- `icount_occurance`. -/
def IcountOccurance (str toFind : List CharT) (n : Nat) : Prop :=
  ∃ index, ifind tolowerCh str toFind 0 = some index ∧ Returns (countPass (ifind tolowerCh str toFind)) (0, index) (some n)

/-- `ireplace_all`. -/
def IreplaceAll (str from' to' str' : List CharT) : Prop :=
  ∃ pos, ifind tolowerCh str from' 0 = some pos ∧
    Returns (replacePass (fun str => ifind tolowerCh str from') from'.length to') (str, pos) (some str')

end

end

variable {CharT : Type} {str toFind : List CharT} {i pos : Nat}

/-! ## `find` -/

theorem MatchesAt.le (h : MatchesAt str toFind i) : i + toFind.length ≤ str.length := by
  have hlength := h.2.length_le
  rw [List.length_drop] at hlength
  have := h.1
  omega

theorem matchesAt_cons_succ {ch : CharT} {rest : List CharT} :
    MatchesAt (ch :: rest) toFind (i + 1) ↔ MatchesAt rest toFind i := by
  rw [MatchesAt, MatchesAt, List.length_cons, Nat.add_le_add_iff_right, List.drop_succ_cons]

/-- The first index from a position on at which the pattern stands, if there is one. -/
def IsFirstMatch (str toFind : List CharT) (pos : Nat) : Option Nat → Prop
  | some i => pos ≤ i ∧ MatchesAt str toFind i ∧ ∀ j, pos ≤ j → j < i → ¬MatchesAt str toFind j
  | none => ∀ j, pos ≤ j → ¬MatchesAt str toFind j

variable [DecidableEq CharT]

theorem find_eq_some_iff :
    find str toFind pos = some i ↔ pos ≤ i ∧ MatchesAt str toFind i ∧ ∀ j, pos ≤ j → j < i → ¬MatchesAt str toFind j := by
  rw [find, List.find?_range_eq_some]
  simp only [decide_eq_true_eq, List.mem_range, Bool.not_eq_true', decide_eq_false_iff_not, not_and]
  constructor
  · rintro ⟨⟨hpos, hmatch⟩, -, hleast⟩
    exact ⟨hpos, hmatch, fun j hpos hlt => hleast j hlt hpos⟩
  · rintro ⟨hpos, hmatch, hleast⟩
    exact ⟨⟨hpos, hmatch⟩, Nat.lt_succ_of_le hmatch.1, fun j hlt hpos => hleast j hpos hlt⟩

theorem find_eq_none_iff : find str toFind pos = none ↔ ∀ j, pos ≤ j → ¬MatchesAt str toFind j := by
  rw [find, List.find?_range_eq_none]
  simp only [Bool.not_eq_true', decide_eq_false_iff_not, not_and]
  exact ⟨fun h j hpos hmatch => h j (Nat.lt_succ_of_le hmatch.1) hpos hmatch, fun h j _ hpos => h j hpos⟩

theorem isFirstMatch_iff {r : Option Nat} : IsFirstMatch str toFind pos r ↔ find str toFind pos = r := by
  cases r with
  | none => exact find_eq_none_iff.symm
  | some i => exact find_eq_some_iff.symm

/-- The next character is in front of a pattern that does not stand here. -/
theorem find_cons {ch : CharT} {rest : List CharT} (h : ¬toFind <+: ch :: rest) :
    find (ch :: rest) toFind 0 = (find rest toFind 0).map (· + 1) := by
  have hzero : ¬MatchesAt (ch :: rest) toFind 0 := fun hmatch => h hmatch.2
  cases hrest : find rest toFind 0 with
  | none =>
      rw [Option.map_none, find_eq_none_iff]
      rw [find_eq_none_iff] at hrest
      intro j _ hmatch
      cases j with
      | zero => exact hzero hmatch
      | succ j => exact hrest j (Nat.zero_le j) (matchesAt_cons_succ.1 hmatch)
  | some i =>
      rw [Option.map_some, find_eq_some_iff]
      obtain ⟨-, hmatch, hleast⟩ := find_eq_some_iff.1 hrest
      refine ⟨Nat.zero_le _, matchesAt_cons_succ.2 hmatch, fun j _ hlt hj => ?_⟩
      cases j with
      | zero => exact hzero hj
      | succ j => exact hleast j (Nat.zero_le j) (Nat.lt_of_succ_lt_succ hlt) (matchesAt_cons_succ.1 hj)

theorem find_drop (hpos : pos ≤ str.length) : find str toFind pos = (find (str.drop pos) toFind 0).map (pos + ·) := by
  have hmatches {k : Nat} : MatchesAt (str.drop pos) toFind k ↔ MatchesAt str toFind (pos + k) := by
    rw [MatchesAt, MatchesAt, List.drop_drop, List.length_drop, Nat.le_sub_iff_add_le' hpos]
  cases hfind : find (str.drop pos) toFind 0 with
  | none =>
      rw [Option.map_none, find_eq_none_iff]
      intro j hj hmatch
      obtain ⟨k, rfl⟩ := Nat.exists_eq_add_of_le hj
      exact find_eq_none_iff.1 hfind k (Nat.zero_le k) (hmatches.2 hmatch)
  | some i =>
      rw [Option.map_some, find_eq_some_iff]
      obtain ⟨-, hmatch, hleast⟩ := find_eq_some_iff.1 hfind
      refine ⟨Nat.le_add_right pos i, hmatches.1 hmatch, fun j hj hlt hmatch => ?_⟩
      obtain ⟨k, rfl⟩ := Nat.exists_eq_add_of_le hj
      exact hleast k (Nat.zero_le k) (Nat.lt_of_add_lt_add_left hlt) (hmatches.2 hmatch)

/-! ## `ifind` -/

section

variable (tolowerCh : CharT → CharT)

theorem all_zip_iff {a b : List CharT} (h : b.length ≤ a.length) :
    ((a.zip b).all fun p => tolowerCh p.1 == tolowerCh p.2) = true ↔ b.map tolowerCh <+: a.map tolowerCh := by
  induction b generalizing a with
  | nil => simp
  | cons x b ih =>
      cases a with
      | nil => cases h
      | cons y a =>
          rw [List.zip_cons_cons, List.all_cons, Bool.and_eq_true, beq_iff_eq, ih (Nat.le_of_succ_le_succ h), List.map_cons,
            List.map_cons, List.cons_prefix_cons, eq_comm]

theorem iequal_iff {a b : List CharT} : iequal tolowerCh a b = true ↔ a.map tolowerCh = b.map tolowerCh := by
  rw [iequal, Bool.and_eq_true, beq_iff_eq]
  constructor
  · rintro ⟨hlength, hall⟩
    exact (((all_zip_iff tolowerCh hlength.ge).1 hall).eq_of_length (by simpa using hlength.symm)).symm
  · intro h
    have hlength : a.length = b.length := by simpa using congrArg List.length h
    exact ⟨hlength, (all_zip_iff tolowerCh hlength.ge).2 (h ▸ List.prefix_refl _)⟩

/-- The loop finds the first match, for a pattern without characters only in front of a character. -/
theorem ifindLoop_eq (str : List CharT) (h : toFind ≠ [] ∨ str ≠ []) (pos : Nat) :
    ifindLoop tolowerCh toFind pos str = (find (str.map tolowerCh) (toFind.map tolowerCh) 0).map (pos + ·) := by
  induction str generalizing pos with
  | nil =>
      have hnone : find [] (toFind.map tolowerCh) 0 = none := find_eq_none_iff.2 fun j _ hmatch => by
        have hle := hmatch.le
        rw [List.length_map] at hle
        exact (h.resolve_right fun h => h rfl) (List.length_eq_zero_iff.1 (Nat.eq_zero_of_add_eq_zero_left (Nat.le_zero.1 hle)))
      rw [List.map_nil, hnone]
      rfl
  | cons ch rest ih =>
      rw [ifindLoop]
      split
      · rename_i hshort
        have hnone : find ((ch :: rest).map tolowerCh) (toFind.map tolowerCh) 0 = none :=
          find_eq_none_iff.2 fun j _ hmatch => by
            have hle := hmatch.le
            rw [List.length_map, List.length_map] at hle
            omega
        rw [hnone]
        rfl
      · rename_i hlong
        have hall := all_zip_iff tolowerCh (Nat.not_lt.1 hlong)
        split
        · rename_i hfound
          have hprefix := hall.1 hfound
          have hzero : find ((ch :: rest).map tolowerCh) (toFind.map tolowerCh) 0 = some 0 :=
            find_eq_some_iff.2 ⟨Nat.le_refl 0, ⟨Nat.zero_le _, hprefix⟩, fun j _ hlt => absurd hlt (Nat.not_lt_zero j)⟩
          rw [hzero]
          rfl
        · rename_i hfound
          have hprefix := mt hall.2 hfound
          have hne : toFind ≠ [] := by
            rintro rfl
            exact hprefix List.nil_prefix
          rw [ih (.inl hne), List.map_cons, find_cons hprefix, Option.map_map]
          exact congrArg (Option.map · _) (funext fun k => Nat.add_right_comm pos 1 k)

variable (str toFind) in
/-- The rest of the string behind a character is the pattern. -/
def EndsBehind (pos : Nat) : Prop := 0 < pos ∧ (str.drop pos).map tolowerCh = toFind.map tolowerCh

theorem ifind_eq (hpos : pos ≤ str.length) (h : ¬EndsBehind str toFind tolowerCh pos) :
    ifind tolowerCh str toFind pos = some (find (str.map tolowerCh) (toFind.map tolowerCh) pos) := by
  have hle {j : Nat} (hj : MatchesAt (str.map tolowerCh) (toFind.map tolowerCh) j) : j + toFind.length ≤ str.length := by
    simpa using hj.le
  rw [ifind, if_neg (Nat.not_lt.2 hpos)]
  dsimp only
  rw [List.length_drop]
  split
  · rename_i hshort
    exact congrArg some (find_eq_none_iff.2 fun j hj hmatch => by have := hle hmatch; omega).symm
  split
  · rename_i hlength
    split
    · rename_i hequal
      rw [iequal_iff] at hequal
      -- the position that is returned is right at the beginning only
      obtain rfl : pos = 0 := Nat.eq_zero_of_not_pos fun hlt => h ⟨hlt, hequal⟩
      refine congrArg some (find_eq_some_iff.2 ⟨Nat.le_refl 0, ⟨Nat.zero_le _, ?_⟩, ?_⟩).symm
      rotate_left
      · exact fun j _ hlt => absurd hlt (Nat.not_lt_zero j)
      rw [← hequal]
      exact List.prefix_refl _
    · rename_i hequal
      refine congrArg some (find_eq_none_iff.2 fun j hj hmatch => hequal ?_).symm
      obtain rfl : j = pos := by have := hle hmatch; omega
      rw [iequal_iff, List.map_drop]
      exact (hmatch.2.eq_of_length (by simp [hlength])).symm
  · have hne : str.drop pos ≠ [] := List.length_pos_iff.1 (by rw [List.length_drop]; omega)
    rw [ifindLoop_eq tolowerCh _ (.inr hne), List.map_drop, ← find_drop (by simpa using hpos)]

theorem ifind_endsBehind (hpos : pos ≤ str.length) (h : EndsBehind str toFind tolowerCh pos) :
    ifind tolowerCh str toFind pos = some (some 0) := by
  have hlength : toFind.length = (str.drop pos).length := by simpa using (congrArg List.length h.2).symm
  rw [ifind, if_neg (Nat.not_lt.2 hpos)]
  simp only [hlength, lt_irrefl, if_false, if_true, (iequal_iff tolowerCh).2 h.2]

theorem ifind_iff (hpos : pos ≤ str.length) :
    (∃ r, ifind tolowerCh str toFind pos = some r ∧ IsFirstMatch (str.map tolowerCh) (toFind.map tolowerCh) pos r) ↔
      ¬EndsBehind str toFind tolowerCh pos := by
  constructor
  · rintro ⟨r, hr, hfirst⟩ hends
    rw [ifind_endsBehind tolowerCh hpos hends] at hr
    cases hr
    exact absurd hfirst.1 (Nat.not_le.2 hends.1)
  · exact fun h => ⟨_, ifind_eq tolowerCh hpos h, isFirstMatch_iff.2 rfl⟩

theorem ifind_zero : ifind tolowerCh str toFind 0 = some (find (str.map tolowerCh) (toFind.map tolowerCh) 0) :=
  ifind_eq tolowerCh (Nat.zero_le _) fun h => Nat.lt_irrefl 0 h.1

/-! ## `icount_occurance` -/

variable (str toFind) in
/-- The pattern stands at the end, and also one character in front of it. -/
def TwiceAtEnd : Prop :=
  ∃ p < str.length, MatchesAt (str.map tolowerCh) (toFind.map tolowerCh) p ∧ EndsBehind str toFind tolowerCh (p + 1)

theorem exists_count (hne : toFind ≠ []) (h : ¬TwiceAtEnd str toFind tolowerCh) (hpos : pos ≤ str.length) (count : Nat) :
    let first := find (str.map tolowerCh) (toFind.map tolowerCh)
    ∃ n, Returns (countPass (ifind tolowerCh str toFind)) (count, first pos) (some n) ∧
      Returns (countPass fun pos => some (first pos)) (count, first pos) (some n) := by
  -- on the characters behind the position
  induction hrest : str.length - pos using Nat.strongRecOn generalizing pos count with
  | ind rest ih =>
      intro first
      cases hfirst : first pos with
      | none => exact ⟨count, .done rfl, .done rfl⟩
      | some i =>
          obtain ⟨hi, hmatch, -⟩ := find_eq_some_iff.1 hfirst
          have hlt : i < str.length := by
            have hle := hmatch.le
            have hpos := List.length_pos_of_ne_nil hne
            simp only [List.length_map] at hle
            omega
          obtain ⟨n, hfind, hcount⟩ := ih (str.length - (i + 1)) (by omega) hlt (count + 1) rfl
          have hnext := ifind_eq tolowerCh (Nat.succ_le_of_lt hlt) fun hends => h ⟨i, hlt, hmatch, hends⟩
          exact ⟨n, .next (by rw [countPass, hnext]) hfind, .next rfl hcount⟩

omit [DecidableEq CharT] in
theorem EndsBehind.unique {pos' : Nat} (h : EndsBehind str toFind tolowerCh pos) (h' : EndsBehind str toFind tolowerCh pos')
    (hpos : pos ≤ str.length) (hpos' : pos' ≤ str.length) : pos = pos' := by
  have hlength := congrArg List.length (h.2.trans h'.2.symm)
  rw [List.length_map, List.length_map, List.length_drop, List.length_drop] at hlength
  omega

/-- The loop does not come behind the first of the two matches. -/
theorem TwiceAtEnd.not_icountOccurance (h : TwiceAtEnd str toFind tolowerCh) (n : Nat) :
    ¬IcountOccurance tolowerCh str toFind n := by
  obtain ⟨p, hlt, hmatch, hends⟩ := h
  have hfirst {pos : Nat} (hpos : pos ≤ p) :
      ∃ i ≤ p, find (str.map tolowerCh) (toFind.map tolowerCh) pos = some i := by
    cases hfind : find (str.map tolowerCh) (toFind.map tolowerCh) pos with
    | none => exact absurd hmatch (find_eq_none_iff.1 hfind p hpos)
    | some i =>
        refine ⟨i, Nat.not_lt.1 fun hp => ?_, rfl⟩
        exact (find_eq_some_iff.1 hfind).2.2 p hpos hp hmatch
  rintro ⟨index, hindex, hreturns⟩
  rw [ifind_zero] at hindex
  obtain ⟨i, hi, hfind⟩ := hfirst (Nat.zero_le p)
  refine not_returns_of_trap (D := fun s => ∃ i ≤ p, s.2 = some i) ?_
    ⟨i, hi, (Option.some.inj hindex).symm.trans hfind⟩ _ hreturns
  rintro ⟨count, _⟩ ⟨i, hi, rfl⟩
  rcases Nat.eq_or_lt_of_le hi with rfl | hlt'
  · refine ⟨(count + 1, some 0), ?_, 0, Nat.zero_le _, rfl⟩
    rw [countPass, ifind_endsBehind tolowerCh hlt hends]
  · have hnot : ¬EndsBehind str toFind tolowerCh (i + 1) := fun h => by
      have := h.unique tolowerCh hends (by omega) hlt
      omega
    obtain ⟨k, hk, hfind⟩ := hfirst (Nat.succ_le_of_lt hlt')
    refine ⟨(count + 1, some k), ?_, k, hk, rfl⟩
    rw [countPass, ifind_eq tolowerCh (by omega) hnot, hfind]

theorem icountOccurance_iff (hne : toFind ≠ []) :
    (∃ n, IcountOccurance tolowerCh str toFind n ∧ CountOccurance (str.map tolowerCh) (toFind.map tolowerCh) n) ↔
      ¬TwiceAtEnd str toFind tolowerCh := by
  constructor
  · rintro ⟨n, hn, -⟩ htwice
    exact htwice.not_icountOccurance tolowerCh n hn
  · intro h
    obtain ⟨n, hfind, hcount⟩ := exists_count tolowerCh hne h (Nat.zero_le _) 0
    exact ⟨n, ⟨_, ifind_zero tolowerCh, hfind⟩, hcount⟩

/-! ## `ireplace_all` -/

omit [DecidableEq CharT] in
theorem map_replaceAt (str to' : List CharT) (pos count : Nat) :
    (replaceAt str pos count to').map tolowerCh = replaceAt (str.map tolowerCh) pos count (to'.map tolowerCh) := by
  rw [replaceAt, replaceAt, List.map_append, List.map_append, List.map_take, List.map_drop]

/-- The search goes on in what is left of the string, behind the replacement. -/
theorem exists_replace (hne : toFind ≠ []) (h : ∀ pos ≤ str.length, ¬EndsBehind str toFind tolowerCh pos)
    (to' : List CharT) {k : Nat} (hk : k ≤ str.length) (front : List CharT) :
    let first := fun s => find s (toFind.map tolowerCh)
    let s := front ++ str.drop k
    ∃ t, Returns (replacePass (fun s => ifind tolowerCh s toFind) toFind.length to')
        (s, first (s.map tolowerCh) front.length) (some t) ∧
      Returns (replacePass (fun s pos => some (first s pos)) (toFind.map tolowerCh).length (to'.map tolowerCh))
        (s.map tolowerCh, first (s.map tolowerCh) front.length) (some (t.map tolowerCh)) := by
  -- on the characters that are left
  induction hrest : str.length - k using Nat.strongRecOn generalizing k front with
  | ind rest ih =>
      intro first s
      cases hfirst : first (s.map tolowerCh) front.length with
      | none => exact ⟨s, .done rfl, .done rfl⟩
      | some pos =>
          obtain ⟨hpos, hmatch, -⟩ := find_eq_some_iff.1 hfirst
          have hle : pos + toFind.length ≤ front.length + (str.length - k) := by simpa [s] using hmatch.le
          have hpattern := List.length_pos_of_ne_nil hne
          obtain ⟨k', hk', hdrop⟩ : ∃ k' ≤ str.length, k < k' ∧ s.drop (pos + toFind.length) = str.drop k' := by
            refine ⟨k + (pos + toFind.length - front.length), by omega, by omega, ?_⟩
            rw [List.drop_append, List.drop_of_length_le (by omega), List.nil_append, List.drop_drop]
          have hreplaced : replaceAt s pos toFind.length to' = s.take pos ++ to' ++ str.drop k' := by
            rw [replaceAt, hdrop.2, List.append_assoc]
          have hfront : (s.take pos ++ to').length = pos + to'.length := by
            rw [List.length_append, List.length_take, List.length_append, List.length_drop]
            omega
          obtain ⟨t, hfind, hreplace⟩ := ih (str.length - k') (by omega) hk' (s.take pos ++ to') rfl
          rw [hfront, ← hreplaced] at hfind hreplace
          have hnext : ifind tolowerCh (replaceAt s pos toFind.length to') toFind (pos + to'.length) =
              some (first ((replaceAt s pos toFind.length to').map tolowerCh) (pos + to'.length)) := by
            rw [hreplaced, ← hfront]
            refine ifind_eq tolowerCh (by simp) fun hends => h k' hk' ⟨by omega, ?_⟩
            rw [← hends.2, List.drop_left]
          refine ⟨t, .next ?_ hfind, .next ?_ hreplace⟩
          · rw [replacePass]
            simp only [hnext, first]
          · rw [replacePass]
            simp only [List.length_map, map_replaceAt, first]

theorem exists_ireplaceAll (hne : toFind ≠ []) (h : ∀ pos ≤ str.length, ¬EndsBehind str toFind tolowerCh pos)
    (to' : List CharT) : ∃ t, IreplaceAll tolowerCh str toFind to' t ∧
      ReplaceAll (str.map tolowerCh) (toFind.map tolowerCh) (to'.map tolowerCh) (t.map tolowerCh) := by
  obtain ⟨t, hfind, hreplace⟩ := exists_replace tolowerCh hne h to' (Nat.zero_le _) []
  exact ⟨t, ⟨_, ifind_zero tolowerCh, hfind⟩, hreplace⟩

/-! ## The functions together -/

variable (str toFind) in
/-- The functions do on all strings what their counterparts do on the folded ones. -/
structure FindsIgnoringCase : Prop where
  ifind : ∀ pos ≤ str.length, ∃ r, ifind tolowerCh str toFind pos = some r ∧
    IsFirstMatch (str.map tolowerCh) (toFind.map tolowerCh) pos r
  icountOccurance : toFind ≠ [] →
    ∃ n, IcountOccurance tolowerCh str toFind n ∧ CountOccurance (str.map tolowerCh) (toFind.map tolowerCh) n
  ireplaceAll : toFind ≠ [] → ∀ to', ∃ t, IreplaceAll tolowerCh str toFind to' t ∧
    ReplaceAll (str.map tolowerCh) (toFind.map tolowerCh) (to'.map tolowerCh) (t.map tolowerCh)

variable (str toFind) in
/-- They do where the pattern is not the end of a longer string; `ifind` does for each position behind which the rest is not
the pattern, and `icount_occurance` where the match at the end is not the second of two that are one character apart. -/
theorem findsIgnoringCase_iff :
    (FindsIgnoringCase str toFind tolowerCh ↔ ∀ pos ≤ str.length, ¬EndsBehind str toFind tolowerCh pos) ∧
      (∀ pos ≤ str.length,
        (∃ r, ifind tolowerCh str toFind pos = some r ∧ IsFirstMatch (str.map tolowerCh) (toFind.map tolowerCh) pos r) ↔
          ¬EndsBehind str toFind tolowerCh pos) ∧
      (toFind ≠ [] →
        ((∃ n, IcountOccurance tolowerCh str toFind n ∧ CountOccurance (str.map tolowerCh) (toFind.map tolowerCh) n) ↔
          ¬TwiceAtEnd str toFind tolowerCh)) := by
  refine ⟨⟨fun h pos hpos => (ifind_iff tolowerCh hpos).1 (h.ifind pos hpos), fun h => ?_⟩,
    fun pos hpos => ifind_iff tolowerCh hpos, icountOccurance_iff tolowerCh⟩
  refine ⟨fun pos hpos => (ifind_iff tolowerCh hpos).2 (h pos hpos), fun hne => ?_,
    fun hne => exists_ireplaceAll tolowerCh hne h⟩
  rw [icountOccurance_iff tolowerCh hne]
  rintro ⟨p, hlt, -, hends⟩
  exact h (p + 1) hlt hends

/-- `icount_occurance("aa", "a")` does not return. -/
theorem not_findsIgnoringCase : ¬∀ str toFind : Bytes, FindsIgnoringCase str toFind Rad.tolowerCh := by
  intro h
  obtain ⟨n, hn, -⟩ := (h (ascii "aa") (ascii "a")).icountOccurance (by decide)
  refine TwiceAtEnd.not_icountOccurance Rad.tolowerCh ⟨0, by decide, by decide, by decide, by decide⟩ n hn

end

end Rad.Text
