import Rad.Cli.Line

/-!
# Quoted arguments

In a string between quotation marks two back slashes are read as one, and with another character the back slash is lost
together with it. The spaces behind the last argument are read up to their end and further.
-/

namespace Rad.Cli

variable {CharT : Type*} [DecidableEq CharT] {m : Marks CharT}

/-! ## A string between quotation marks -/

/-- What a string without quotation marks is read as. -/
def readAs (m : Marks CharT) : List CharT → List CharT
  | [] => []
  | [ch] => if ch = m.backSlash then [] else [ch]
  | ch :: ch' :: s =>
    if ch = m.backSlash then if ch' = m.backSlash then m.backSlash :: readAs m s else readAs m s
    else ch :: readAs m (ch' :: s)

/-- The strings that can be written between quotation marks: without one, and with no back slash before the closing one. -/
structure Quotable (m : Marks CharT) (s : List CharT) : Prop where
  noQuote : m.quote ∉ s
  noSlashBehind : s.getLast? ≠ some m.backSlash

theorem length_readAs_le (s : List CharT) : (readAs m s).length ≤ s.length := by
  induction s using readAs.induct m with
  | case1 => exact Nat.le_refl _
  | case2 => simp [readAs]
  | case3 ch h => simp [readAs, h]
  | case4 s ih =>
      simp only [readAs, if_true, List.length_cons]
      omega
  | case5 ch' s h ih =>
      simp only [readAs, if_true, if_neg h, List.length_cons]
      omega
  | case6 ch ch' s h ih =>
      simp only [readAs, if_neg h, List.length_cons] at ih ⊢
      omega

/-- A string is read as it is written when there is no back slash in it, and as a shorter one otherwise. -/
theorem readAs_eq_iff (s : List CharT) : readAs m s = s ↔ m.backSlash ∉ s := by
  induction s using readAs.induct m with
  | case1 => exact iff_of_true rfl List.not_mem_nil
  | case2 => simp [readAs]
  | case3 ch h => simp [readAs, h, Ne.symm h]
  | case4 s ih =>
      have hlength := @length_readAs_le _ _ m s
      refine iff_of_false (fun heq => ?_) (by simp)
      have := congrArg List.length heq
      simp only [readAs, if_true, List.length_cons] at this
      omega
  | case5 ch' s h ih =>
      have hlength := @length_readAs_le _ _ m s
      refine iff_of_false (fun heq => ?_) (by simp)
      have := congrArg List.length heq
      simp only [readAs, if_true, if_neg h, List.length_cons] at this
      omega
  | case6 ch ch' s h ih =>
      rw [readAs, if_neg h, List.cons.injEq, ih, List.mem_cons (b := ch), not_or]
      exact and_congr_left fun _ => iff_of_true rfl (Ne.symm h)

section

variable {cmdLine token : List CharT} {it : Nat} {ch ch' : CharT}

theorem readQuotesLoop_at (h : cmdLine[it]? = some ch) :
    readQuotesLoop m cmdLine it token =
      if ch = m.quote then
        match cmdLine[it + 1]? with
        | none => (token, it)
        | some ch =>
          if ch = m.space ∨ ch ≠ m.quote then (token, it) else readQuotesLoop m cmdLine (it + 2) (token ++ [m.quote])
      else if ch = m.backSlash then
        match cmdLine[it + 1]? with
        | none => (token, it + 1)
        | some ch =>
          if ch = m.backSlash then readQuotesLoop m cmdLine (it + 2) (token ++ [m.backSlash])
          else if ch = m.quote then readQuotesLoop m cmdLine (it + 2) (token ++ [m.quote])
          else readQuotesLoop m cmdLine (it + 2) token
      else readQuotesLoop m cmdLine (it + 1) (token ++ [ch]) := by
  rw [readQuotesLoop]
  split
  · rename_i hnone
    rw [h] at hnone
    cases hnone
  · rename_i ch' hch
    obtain rfl : ch = ch' := Option.some.inj (h.symm.trans hch)
    rfl

theorem readQuotesLoop_close (h : cmdLine[it]? = some m.quote) (hnext : cmdLine[it + 1]? ≠ some m.quote) :
    readQuotesLoop m cmdLine it token = (token, it) := by
  rw [readQuotesLoop_at h, if_pos rfl]
  cases hch : cmdLine[it + 1]? with
  | none => rfl
  | some ch =>
      refine if_pos (.inr ?_)
      rintro rfl
      exact hnext hch

theorem readQuotesLoop_plain (h : cmdLine[it]? = some ch) (hquote : ch ≠ m.quote) (hslash : ch ≠ m.backSlash) :
    readQuotesLoop m cmdLine it token = readQuotesLoop m cmdLine (it + 1) (token ++ [ch]) := by
  rw [readQuotesLoop_at h, if_neg hquote, if_neg hslash]

/-- A back slash and the character behind it. -/
theorem readQuotesLoop_slash (h : cmdLine[it]? = some m.backSlash) (hnext : cmdLine[it + 1]? = some ch')
    (hquote : ch' ≠ m.quote) :
    readQuotesLoop m cmdLine it token =
      readQuotesLoop m cmdLine (it + 2) (token ++ if ch' = m.backSlash then [m.backSlash] else []) := by
  rw [readQuotesLoop_at h, if_neg m.backSlash_ne_quote, if_pos rfl, hnext]
  dsimp only
  rw [if_neg hquote]
  split
  · rfl
  · rw [List.append_nil]

end

theorem readAs_plain {ch : CharT} (h : ch ≠ m.backSlash) (s : List CharT) : readAs m (ch :: s) = ch :: readAs m s := by
  cases s with
  | nil => simp [readAs, h]
  | cons ch' s => rw [readAs, if_neg h]

theorem readAs_slash (ch' : CharT) (s : List CharT) :
    readAs m (m.backSlash :: ch' :: s) = (if ch' = m.backSlash then [m.backSlash] else []) ++ readAs m s := by
  rw [readAs, if_pos rfl]
  split <;> rfl

omit [DecidableEq CharT] in
theorem Quotable.tail {ch : CharT} {s : List CharT} (h : Quotable m (ch :: s)) : ch ≠ m.quote ∧ Quotable m s := by
  obtain ⟨hquote, hslash⟩ := h
  rw [List.mem_cons, not_or] at hquote
  refine ⟨Ne.symm hquote.1, hquote.2, fun hlast => ?_⟩
  cases s with
  | nil => cases hlast
  | cons ch' s => exact hslash (by rwa [List.getLast?_cons_cons])

/-- The loop of the reader of quoted characters comes to the closing quotation mark. -/
theorem readQuotesLoop_eq {s rest : List CharT} (h : Quotable m s) (hrest : rest.head? ≠ some m.quote)
    (pre token : List CharT) :
    readQuotesLoop m (pre ++ (s ++ m.quote :: rest)) pre.length token = (token ++ readAs m s, pre.length + s.length) := by
  induction hn : s.length using Nat.strongRecOn generalizing s pre token with
  | ind n ih =>
      cases s with
      | nil =>
          rw [readQuotesLoop_close (by simp) (by simpa [List.getElem?_append_right, List.head?_eq_getElem?] using hrest)]
          rw [← hn, readAs, List.append_nil]
          rfl
      | cons ch s =>
          obtain ⟨hquote, htail⟩ := h.tail
          rw [List.length_cons] at hn
          by_cases hslash : ch = m.backSlash
          · subst hslash
            cases s with
            | nil => exact absurd rfl h.noSlashBehind
            | cons ch' s =>
                obtain ⟨hquote', htail'⟩ := htail.tail
                rw [List.length_cons] at hn
                have hmore := ih _ (by omega) htail' (pre ++ [m.backSlash, ch'])
                  (token ++ if ch' = m.backSlash then [m.backSlash] else []) rfl
                simp only [List.append_assoc, List.cons_append, List.nil_append, List.length_append, List.length_cons,
                  List.length_nil] at hmore
                rw [readQuotesLoop_slash  (by simp) (by simp) hquote', readAs_slash,
                  ← hn, List.cons_append, List.cons_append, hmore]
                simp only [Prod.mk.injEq, true_and]
                omega
          · have hmore := ih _ (by omega) htail (pre ++ [ch]) (token ++ [ch]) rfl
            simp only [List.append_assoc, List.cons_append, List.nil_append, List.length_append, List.length_cons,
              List.length_nil] at hmore
            rw [readQuotesLoop_plain (by simp) hquote hslash, readAs_plain hslash, ← hn, List.cons_append, hmore]
            simp only [Prod.mk.injEq, true_and]
            omega

/-! ## A quoted argument -/

theorem readQuotes_eq {s rest : List CharT} (h : Quotable m s) (hrest : rest.head? ≠ some m.quote) :
    readQuotes m (m.quote :: (s ++ m.quote :: rest)) 0 [] = (readAs m s, s.length + 1) := by
  have hloop := readQuotesLoop_eq h hrest [m.quote] []
  rw [List.singleton_append, List.nil_append, List.length_singleton] at hloop
  rw [readQuotes, if_neg (by simp), if_neg (by simp), hloop, Nat.add_comm 1]

/-- Behind a token stands a space or nothing. -/
theorem readTokenLoop_end {cmdLine token : List CharT} {it : Nat} (h : ∀ ch ∈ cmdLine[it]?, ch = m.space) :
    readTokenLoop m cmdLine it token = (token, it) := by
  rw [readTokenLoop]
  split
  · rfl
  · rename_i ch hch
    rw [if_pos (h ch hch)]

theorem readTokenLoop_quote {cmdLine token : List CharT} {it : Nat} (h : cmdLine[it]? = some m.quote)
    (hend : (readQuotes m cmdLine it token).2 ≠ cmdLine.length) :
    readTokenLoop m cmdLine it token =
      readTokenLoop m cmdLine ((readQuotes m cmdLine it token).2 + 1) (readQuotes m cmdLine it token).1 := by
  rw [readTokenLoop]
  split
  · rename_i hnone
    rw [h] at hnone
    cases hnone
  · rename_i ch hch
    obtain rfl : m.quote = ch := Option.some.inj (h.symm.trans hch)
    rw [if_neg (Ne.symm m.space_ne_quote), dif_neg (Ne.symm m.backSlash_ne_quote), if_pos rfl]
    dsimp only
    rw [if_neg hend]

/-- The spaces in front of a quoted argument and the argument. -/
theorem readToken_quoted {s rest : List CharT} (h : Quotable m s) (hrest : ∀ ch ∈ rest.head?, ch = m.space) (before : Nat) :
    readToken m (List.replicate before m.space ++ m.quote :: (s ++ m.quote :: rest)) = some (readAs m s, rest) := by
  have hnoQuote : rest.head? ≠ some m.quote := fun hquote => m.space_ne_quote (hrest _ hquote).symm
  have hquotes := readQuotes_eq h hnoQuote
  have hat : (m.quote :: (s ++ m.quote :: rest))[s.length + 1 + 1]? = rest.head? := by
    rw [List.getElem?_cons_succ, List.getElem?_append_right (Nat.le_succ _), List.head?_eq_getElem?]
    simp
  have hloop : readTokenLoop m (m.quote :: (s ++ m.quote :: rest)) 0 [] = (readAs m s, s.length + 1 + 1) := by
    rw [readTokenLoop_quote rfl (by simp [hquotes]), hquotes]
    exact readTokenLoop_end (hat ▸ hrest)
  have hspaces : (List.replicate before m.space ++ m.quote :: (s ++ m.quote :: rest)).dropWhile (· = m.space) =
      m.quote :: (s ++ m.quote :: rest) := by
    rw [List.dropWhile_append_of_pos (by simp), List.dropWhile_cons_of_neg (by simpa using Ne.symm m.space_ne_quote)]
  rw [readToken, if_neg (by simp), hspaces]
  dsimp only
  rw [hloop]
  simp

theorem readToken_spaces {n : Nat} (h : 0 < n) : readToken m (List.replicate n m.space) = none := by
  have hspaces : (List.replicate n m.space).dropWhile (· = m.space) = [] := by simp
  rw [readToken, if_neg (by simpa using Nat.ne_of_gt h), hspaces]

/-! ## A line of quoted arguments -/

/-- The arguments, each between quotation marks and with the spaces behind it. -/
def commandLine (m : Marks CharT) (before : Nat) (args : List (List CharT × Nat)) : List CharT :=
  List.replicate before m.space ++
    args.flatMap fun (s, behind) => m.quote :: (s ++ m.quote :: List.replicate behind m.space)

/-- The spaces behind the last argument. -/
def spacesAtEnd (before : Nat) (args : List (List CharT × Nat)) : Nat := args.getLast?.elim before (·.2)

omit [DecidableEq CharT] in
theorem commandLine_cons (before : Nat) (a : List CharT × Nat) (args : List (List CharT × Nat)) :
    commandLine m before (a :: args) =
      List.replicate before m.space ++ m.quote :: (a.1 ++ m.quote :: commandLine m a.2 args) := by
  simp [commandLine]

omit [DecidableEq CharT] in
theorem spacesAtEnd_cons (before : Nat) (a : List CharT × Nat) (args : List (List CharT × Nat)) :
    spacesAtEnd before (a :: args) = spacesAtEnd a.2 args := by
  rw [spacesAtEnd, spacesAtEnd, List.getLast?_cons]
  cases args.getLast? <;> rfl

/-- The spaces of an argument are followed by nothing or by an argument, and in front of an argument there is one. -/
theorem head_commandLine {a : List CharT × Nat} {args : List (List CharT × Nat)} (h : ∀ a' ∈ (a :: args).dropLast, 0 < a'.2) :
    ∀ ch ∈ (commandLine m a.2 args).head?, ch = m.space := by
  intro ch hch
  cases hbehind : a.2 with
  | zero =>
      cases args with
      | nil =>
          rw [hbehind] at hch
          cases hch
      | cons a' args =>
          have hpos := h a List.mem_cons_self
          omega
  | succ n =>
      rw [hbehind, commandLine, List.replicate_succ, List.cons_append, List.head?_cons] at hch
      exact (Option.some.inj hch).symm

theorem splitWinmain_of_readToken {cmdLine token rest : List CharT} (hne : cmdLine ≠ [])
    (h : readToken m cmdLine = some (token, rest)) :
    splitWinmain m cmdLine = (splitWinmain m rest).map (token :: ·) := by
  rw [splitWinmain, dif_neg hne]
  split
  · rename_i hnone
    rw [h] at hnone
    cases hnone
  · rename_i token' rest' hsome
    rw [h] at hsome
    cases hsome
    rfl

theorem splitWinmain_spaces (n : Nat) : splitWinmain m (List.replicate n m.space) = if n = 0 then some [] else none := by
  rw [splitWinmain]
  split
  · rename_i hnil
    rw [if_pos (by simpa using hnil)]
  · rename_i hne
    have hpos : 0 < n := Nat.pos_of_ne_zero fun hzero => hne (by rw [hzero]; rfl)
    rw [if_neg (Nat.ne_of_gt hpos)]
    split
    · rfl
    · rename_i hsome
      rw [readToken_spaces hpos] at hsome
      cases hsome

/-- What a line of quoted arguments is split into. -/
theorem splitWinmain_commandLine {args : List (List CharT × Nat)} (hargs : ∀ a ∈ args, Quotable m a.1)
    (hapart : ∀ a ∈ args.dropLast, 0 < a.2) (before : Nat) :
    splitWinmain m (commandLine m before args) =
      if spacesAtEnd before args = 0 then some (args.map fun a => readAs m a.1) else none := by
  induction args generalizing before with
  | nil =>
      rw [commandLine, List.flatMap_nil, List.append_nil, splitWinmain_spaces]
      rfl
  | cons a args ih =>
      obtain ⟨ha, hargs⟩ := List.forall_mem_cons.1 hargs
      have htail : ∀ a ∈ args.dropLast, 0 < a.2 := fun a' ha' => hapart a' (by
        cases args with
        | nil => cases ha'
        | cons b args => exact List.mem_cons_of_mem _ ha')
      have htoken := readToken_quoted ha (head_commandLine hapart) before
      rw [commandLine_cons, splitWinmain_of_readToken (by simp) htoken, ih hargs htail, spacesAtEnd_cons]
      split <;> rfl

/-- Quoted arguments are given back when no back slash is in them and no space behind the last one. -/
theorem splitWinmain_quoted_iff (m : Marks CharT) (before : Nat) {args : List (List CharT × Nat)}
    (hquote : ∀ a ∈ args, m.quote ∉ a.1) (hslash : ∀ a ∈ args, a.1.getLast? ≠ some m.backSlash)
    (hapart : ∀ a ∈ args.dropLast, 0 < a.2) :
    splitWinmain m (commandLine m before args) = some (args.map Prod.fst) ↔
      (∀ a ∈ args, m.backSlash ∉ a.1) ∧ spacesAtEnd before args = 0 := by
  rw [splitWinmain_commandLine (fun a ha => ⟨hquote a ha, hslash a ha⟩) hapart]
  have hsame : (args.map fun a => readAs m a.1) = args.map Prod.fst ↔ ∀ a ∈ args, m.backSlash ∉ a.1 := by
    rw [List.map_inj_left]
    exact forall₂_congr fun a _ => readAs_eq_iff a.1
  split
  · rename_i hzero
    rw [Option.some.injEq, hsame, and_iff_left hzero]
  · rename_i hspaces
    exact iff_of_false nofun fun h => hspaces h.2

/-- `"a b"  ""`, in both widths. -/
theorem splitWinmain_quoted_iff_two :
    splitWinmain narrow (commandLine narrow 1 [([0x61, 0x20, 0x62], 2), ([], 0)]) = some [[0x61, 0x20, 0x62], []] ∧
      splitWinmain wide (commandLine wide 0 [([0x61, 0x20, 0x62], 2), ([], 0)]) = some [[0x61, 0x20, 0x62], []] := by
  have hnarrow := @splitWinmain_quoted_iff _ _ narrow 1 [([0x61, 0x20, 0x62], 2), ([], 0)]
    (by decide) (by decide) (by decide)
  have hwide := @splitWinmain_quoted_iff _ _ wide 0 [([0x61, 0x20, 0x62], 2), ([], 0)]
    (by decide) (by decide) (by decide)
  exact ⟨hnarrow.2 (by decide), hwide.2 (by decide)⟩

/-- `"C:\dir"` is read as `C:ir`. -/
theorem splitWinmain_path :
    ¬∀ (before : Nat) (args : List (List UInt8 × Nat)), (∀ a ∈ args, narrow.quote ∉ a.1) →
      (∀ a ∈ args, a.1.getLast? ≠ some narrow.backSlash) → (∀ a ∈ args.dropLast, 0 < a.2) →
      splitWinmain narrow (commandLine narrow before args) = some (args.map Prod.fst) := by
  intro h
  have hsplit := h 0 [([0x43, 0x3a, 0x5c, 0x64, 0x69, 0x72], 0)] (by decide) (by decide) (by decide)
  have hargs : ∀ a ∈ [([0x43, 0x3a, 0x5c, 0x64, 0x69, 0x72], 0)], Quotable narrow a.1 := fun a ha => by
    obtain rfl := List.mem_singleton.1 ha
    exact ⟨by decide, by decide⟩
  rw [splitWinmain_commandLine hargs (by decide)] at hsplit
  exact absurd hsplit (by decide)

end Rad.Cli
