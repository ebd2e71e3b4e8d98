import Mathlib.Algebra.Group.Int.Defs
import Mathlib.Algebra.GroupWithZero.Nat
import Mathlib.Data.List.Basic

/-!
# Command lines (`win_line_parser` and `split_winmain` of src/cli.cpp)

An iterator is its distance from the beginning of the line, and the end of the line is where there is no character. The
functions that append to the token give it back with the iterator.
-/

namespace Rad.Cli

/-- What the casts of the characters with a meaning give, for `char` and for `wchar_t`. -/
structure Marks (CharT : Type*) where
  space : CharT
  backSlash : CharT
  quote : CharT
  space_ne_backSlash : space ≠ backSlash
  space_ne_quote : space ≠ quote
  backSlash_ne_quote : backSlash ≠ quote

def narrow : Marks UInt8 := ⟨0x20, 0x5c, 0x22, by decide, by decide, by decide⟩

def wide : Marks UInt32 := ⟨0x20, 0x5c, 0x22, by decide, by decide, by decide⟩

theorem lt_of_getElem? {CharT : Type*} {cmdLine : List CharT} {it : Nat} {ch : CharT} (h : cmdLine[it]? = some ch) :
    it < cmdLine.length :=
  (List.getElem?_eq_some_iff.1 h).1

variable {CharT : Type*} [DecidableEq CharT] (m : Marks CharT) (cmdLine : List CharT)

/-- The loop of `read_quotes`. -/
def readQuotesLoop (it : Nat) (token : List CharT) : List CharT × Nat :=
  match _h : cmdLine[it]? with
  | none => (token, it)
  | some ch =>
    if ch = m.quote then
      match cmdLine[it + 1]? with
      | none => (token, it)
      | some ch =>
        if ch = m.space ∨ ch ≠ m.quote then (token, it) else readQuotesLoop (it + 2) (token ++ [m.quote])
    else if ch = m.backSlash then
      match cmdLine[it + 1]? with
      | none => (token, it + 1)
      | some ch =>
        if ch = m.backSlash then readQuotesLoop (it + 2) (token ++ [m.backSlash])
        else if ch = m.quote then readQuotesLoop (it + 2) (token ++ [m.quote])
        else readQuotesLoop (it + 2) token
    else readQuotesLoop (it + 1) (token ++ [ch])
termination_by cmdLine.length - it
decreasing_by
  all_goals
    have := lt_of_getElem? _h
    omega

def readQuotes (it : Nat) (token : List CharT) : List CharT × Nat :=
  if it = cmdLine.length then (token, it)
  else if it + 1 = cmdLine.length then (token, it + 1)
  else readQuotesLoop m cmdLine (it + 1) token

/-- The loop of `read_backslashes`. -/
def readBackslashesLoop (it slashesCount : Nat) (token : List CharT) : List CharT × Nat :=
  match _h : cmdLine[it]? with
  | none => (token ++ List.replicate slashesCount m.backSlash, it)
  | some ch =>
    if ch = m.backSlash then readBackslashesLoop (it + 1) (slashesCount + 1) token
    else if ch = m.quote then
      let token := token ++ List.replicate (slashesCount / 2) m.backSlash
      if slashesCount % 2 = 0 then readQuotes m cmdLine it token else (token ++ [m.quote], it)
    else if ch = m.space then (token ++ List.replicate slashesCount m.backSlash, it - 1)
    else (token ++ List.replicate slashesCount m.backSlash ++ [ch], it)
termination_by cmdLine.length - it
decreasing_by
  have := lt_of_getElem? _h
  omega

def readBackslashes (it : Nat) (token : List CharT) : List CharT × Nat := readBackslashesLoop m cmdLine it 0 token

theorem readQuotesLoop_le (it : Nat) (token : List CharT) : it ≤ (readQuotesLoop m cmdLine it token).2 := by
  induction hn : cmdLine.length - it using Nat.strongRecOn generalizing it token with
  | ind n ih =>
      rw [readQuotesLoop]
      split
      · exact Nat.le_refl _
      rename_i ch hch
      have hlt := lt_of_getElem? hch
      have hnext {k : Nat} (token : List CharT) (hk : 0 < k) : it ≤ (readQuotesLoop m cmdLine (it + k) token).2 :=
        Nat.le_trans (Nat.le_add_right _ _) (ih _ (by omega) (it + k) token rfl)
      split
      · split
        · exact Nat.le_refl _
        split
        · exact Nat.le_refl _
        · exact hnext _ (by decide)
      split
      · split
        · exact Nat.le_succ _
        split
        · exact hnext _ (by decide)
        split
        · exact hnext _ (by decide)
        · exact hnext _ (by decide)
      · exact hnext _ (by decide)

theorem readQuotes_le (it : Nat) (token : List CharT) : it ≤ (readQuotes m cmdLine it token).2 := by
  rw [readQuotes]
  split
  · exact Nat.le_refl _
  split
  · exact Nat.le_succ _
  · exact Nat.le_trans (Nat.le_succ _) (readQuotesLoop_le m cmdLine _ _)

theorem readBackslashesLoop_le (it slashesCount : Nat) (token : List CharT) :
    it - 1 ≤ (readBackslashesLoop m cmdLine it slashesCount token).2 := by
  induction hn : cmdLine.length - it using Nat.strongRecOn generalizing it slashesCount token with
  | ind n ih =>
      rw [readBackslashesLoop]
      split
      · exact Nat.sub_le _ _
      rename_i ch hch
      have hlt := lt_of_getElem? hch
      split
      · exact Nat.le_trans (Nat.sub_le _ _) (ih _ (by omega) (it + 1) (slashesCount + 1) token rfl)
      split
      · dsimp only
        split
        · exact Nat.le_trans (Nat.sub_le _ _) (readQuotes_le m cmdLine _ _)
        · exact Nat.sub_le _ _
      split
      · exact Nat.le_refl _
      · exact Nat.sub_le _ _

/-- Back slashes are read from the first of them on. -/
theorem readBackslashes_le {it : Nat} (h : cmdLine[it]? = some m.backSlash) (token : List CharT) :
    it ≤ (readBackslashes m cmdLine it token).2 := by
  rw [readBackslashes, readBackslashesLoop]
  split
  · exact Nat.le_refl _
  · rename_i ch hch
    obtain rfl : m.backSlash = ch := Option.some.inj (h.symm.trans hch)
    rw [if_pos rfl]
    exact readBackslashesLoop_le m cmdLine (it + 1) 1 token

/-- The loop of `read_token` behind the spaces. -/
def readTokenLoop (it : Nat) (token : List CharT) : List CharT × Nat :=
  match _h : cmdLine[it]? with
  | none => (token, it)
  | some ch =>
    if ch = m.space then (token, it)
    else if _hch : ch = m.backSlash then
      let r := readBackslashes m cmdLine it token
      if r.2 = cmdLine.length then r else readTokenLoop (r.2 + 1) r.1
    else if ch = m.quote then
      let r := readQuotes m cmdLine it token
      if r.2 = cmdLine.length then r else readTokenLoop (r.2 + 1) r.1
    else readTokenLoop (it + 1) (token ++ [ch])
termination_by cmdLine.length - it
decreasing_by
  all_goals have hlt := lt_of_getElem? _h
  · have hle := readBackslashes_le m cmdLine (_h.trans (congrArg some _hch)) token
    omega
  · have hle := readQuotes_le m cmdLine it token
    omega
  · omega

theorem readTokenLoop_le (it : Nat) (token : List CharT) : it ≤ (readTokenLoop m cmdLine it token).2 := by
  induction hn : cmdLine.length - it using Nat.strongRecOn generalizing it token with
  | ind n ih =>
      rw [readTokenLoop]
      split
      · exact Nat.le_refl _
      rename_i ch hch
      have hlt := lt_of_getElem? hch
      have hnext {k : Nat} (token : List CharT) (hk : it ≤ k) : it ≤ (readTokenLoop m cmdLine (k + 1) token).2 :=
        Nat.le_trans (Nat.le_trans hk (Nat.le_succ k)) (ih _ (by omega) (k + 1) token rfl)
      split
      · exact Nat.le_refl _
      split
      · rename_i hslash
        have hle := readBackslashes_le m cmdLine (hch.trans (congrArg some hslash)) token
        dsimp only
        split
        · exact hle
        · exact hnext _ hle
      split
      · have hle := readQuotes_le m cmdLine it token
        dsimp only
        split
        · exact hle
        · exact hnext _ hle
      · exact hnext _ (Nat.le_refl _)

/-- `read_token`: the token and what is left of the line. The spaces in front of a token are removed by reading the first
character, which is read behind the end when there are only spaces. -/
def readToken (cmdLine : List CharT) : Option (List CharT × List CharT) :=
  if cmdLine = [] then some ([], [])
  else
    match cmdLine.dropWhile (· = m.space) with
    | [] => none
    | ch :: cmdLine =>
      let r := readTokenLoop m (ch :: cmdLine) 0 []
      some (r.1, (ch :: cmdLine).drop r.2)

/-- A character that is no space is read. -/
theorem readTokenLoop_pos {ch : CharT} (h : ch ≠ m.space) (cmdLine token : List CharT) :
    0 < (readTokenLoop m (ch :: cmdLine) 0 token).2 := by
  have hnext (k : Nat) (token : List CharT) : 0 < (readTokenLoop m (ch :: cmdLine) (k + 1) token).2 :=
    Nat.lt_of_lt_of_le (Nat.succ_pos k) (readTokenLoop_le m _ _ _)
  rw [readTokenLoop]
  simp only [List.getElem?_cons_zero, if_neg h]
  split
  · split
    · rename_i hend
      rw [hend]
      exact Nat.succ_pos _
    · exact hnext _ _
  split
  · split
    · rename_i hend
      rw [hend]
      exact Nat.succ_pos _
    · exact hnext _ _
  · exact hnext _ _

theorem readToken_lt {cmdLine rest token : List CharT} (hne : cmdLine ≠ []) (h : readToken m cmdLine = some (token, rest)) :
    rest.length < cmdLine.length := by
  rw [readToken, if_neg hne] at h
  split at h
  · cases h
  · rename_i ch tail htail
    cases h
    have hspace : ch ≠ m.space := by
      have := List.head?_dropWhile_not (fun c => decide (c = m.space)) cmdLine
      rw [htail] at this
      simpa using this
    have hpos := readTokenLoop_pos m hspace tail []
    have hle := (List.dropWhile_suffix (fun c => decide (c = m.space)) (l := cmdLine)).length_le
    rw [htail] at hle
    rw [List.length_drop]
    simp only [List.length_cons] at hle ⊢
    omega

/-- `split_winmain`; no result where a character behind the end of the line is read. -/
def splitWinmain (cmdLine : List CharT) : Option (List (List CharT)) :=
  if _hne : cmdLine = [] then some []
  else
    match _h : readToken m cmdLine with
    | none => none
    | some (token, rest) => (splitWinmain rest).map (token :: ·)
termination_by cmdLine.length
decreasing_by exact readToken_lt m _hne _h

end Rad.Cli
