import Rad.Url.Lemmas.HostText

/-!
# IPv6 addresses are read back

The text is the groups in front of a run of zeros and the groups behind it, and these are read as the words that they are.
-/

namespace Rad.Url

variable {text front behind : Bytes} {words : List UInt16} {word : UInt16}

/-! ## Groups -/

def groupText (word : UInt16) : Bytes := toChars 16 word.toNat

/-- Groups with colons between them. -/
def groupsText (words : List UInt16) : Bytes := [0x3a].intercalate (words.map groupText)

theorem groupsText_nil : groupsText [] = [] := rfl

theorem groupsText_singleton (word : UInt16) : groupsText [word] = groupText word := List.intercalate_singleton

theorem groupsText_cons_cons (word word' : UInt16) (words : List UInt16) :
    groupsText (word :: word' :: words) = groupText word ++ 0x3a :: groupsText (word' :: words) := by
  rw [groupsText, List.map_cons, List.map_cons, List.intercalate_cons_cons, List.append_assoc]
  rfl

theorem groupText_facts (word : UInt16) :
    (∀ b ∈ groupText word, isHexDigit b = true) ∧ groupText word ≠ [] ∧ (groupText word).length ≤ 4 := by
  have hlt := word.toNat_lt
  have hdigit {d : Nat} (h : d < 16) : isHexDigit (Nat.digitChar d).toNat.toUInt8 = true := by
    have hall : ∀ d < 16, isHexDigit (Nat.digitChar d).toNat.toUInt8 = true := by decide
    exact hall d h
  have hdigits (fuel : Nat) : ∀ n < 16 ^ (fuel + 1),
      (∀ b ∈ toChars 16 n, isHexDigit b = true) ∧ (toChars 16 n).length ≤ fuel + 1 := by
    -- one digit after the other from the last one on
    induction fuel with
    | zero =>
        intro n hn
        have hdigit' : n < 16 := hn
        rw [toChars_of_lt hdigit']
        refine ⟨fun b hb => ?_, Nat.le_refl _⟩
        rw [List.mem_singleton.1 hb]
        exact hdigit hn
    | succ fuel ih =>
        intro n hn
        rcases Nat.lt_or_ge n 16 with h | h
        · rw [toChars_of_lt h]
          refine ⟨fun b hb => ?_, by rw [List.length_singleton]; omega⟩
          rw [List.mem_singleton.1 hb]
          exact hdigit h
        · obtain ⟨hfront, hlength⟩ := ih (n / 16) (by rw [Nat.div_lt_iff_lt_mul (by decide)]; rwa [Nat.pow_succ] at hn)
          rw [toChars_of_le (by decide) h]
          refine ⟨fun b hb => ?_, ?_⟩
          · rcases List.mem_append.1 hb with hb | hb
            · exact hfront b hb
            · rw [List.mem_singleton.1 hb]
              exact hdigit (Nat.mod_lt _ (by decide))
          · rw [List.length_append, List.length_singleton]
            omega
  obtain ⟨hhex, hlength⟩ := hdigits 3 word.toNat hlt
  exact ⟨hhex, toChars_ne_nil (by decide), hlength⟩

theorem hexGroup_groupText (word : UInt16) : hexGroup (groupText word) = some [word] := by
  rw [hexGroup, if_pos (groupText_facts word).2.2, groupText,
    toNumeric_toChars (by decide) (by decide) word.toNat_lt, Option.map_some, UInt16.ofNat_toNat]

theorem isHexDigit_ne_colon {b : UInt8} (h : isHexDigit b = true) : b ≠ 0x3a := by
  rintro rfl
  exact absurd h (by decide)

theorem groupText_no_colon (word : UInt16) : 0x3a ∉ groupText word := fun hmem =>
  isHexDigit_ne_colon ((groupText_facts word).1 _ hmem) rfl

theorem groupsText_eq_nil (h : groupsText words = []) : words = [] := by
  cases words with
  | nil => rfl
  | cons word words =>
      cases words with
      | nil =>
          rw [groupsText_singleton] at h
          exact absurd h (groupText_facts word).2.1
      | cons word' words =>
          rw [groupsText_cons_cons] at h
          exact absurd h (List.append_ne_nil_of_right_ne_nil _ (List.cons_ne_nil _ _))

theorem groups_groupsText (words : List UInt16) : groups (groupsText words) = words.map groupText := by
  rw [groups]
  split
  · rename_i h
    rw [groupsText_eq_nil h]
    rfl
  · rename_i h
    refine List.splitOn_intercalate _ ?_ ?_
    · intro text htext
      obtain ⟨word, -, rfl⟩ := List.mem_map.1 htext
      exact groupText_no_colon word
    · intro hnil
      rw [List.map_eq_nil_iff.1 hnil] at h
      exact h rfl

theorem mapM_hexGroup (words : List UInt16) : (words.map groupText).mapM hexGroup = some (words.map fun word => [word]) := by
  induction words with
  | nil => rfl
  | cons word words ih =>
      rw [List.map_cons, List.mapM_cons, hexGroup_groupText, ih]
      rfl

theorem wordsOfGroups_groupText (words : List UInt16) : wordsOfGroups (words.map groupText) = some words := by
  induction words with
  | nil => rfl
  | cons word words ih =>
      cases words with
      | nil =>
          rw [List.map_cons, List.map_nil, wordsOfGroups, hexGroup_groupText]
          rfl
      | cons word' words =>
          rw [List.map_cons] at ih ⊢
          rw [List.map_cons, wordsOfGroups, hexGroup_groupText, Option.bind_some, ih]
          · rfl
          · nofun

theorem mem_groupsText {b : UInt8} (h : b ∈ groupsText words) : b = 0x3a ∨ isHexDigit b = true := by
  rcases Lib.mem_intercalate h with rfl | ⟨text, htext, hb⟩
  · exact .inl rfl
  · obtain ⟨word, -, rfl⟩ := List.mem_map.1 htext
    exact .inr ((groupText_facts word).1 b hb)

theorem length_groupsText (words : List UInt16) : (groupsText words).length ≤ 5 * words.length := by
  induction words with
  | nil => exact Nat.le_refl _
  | cons word words ih =>
      have hlength := (groupText_facts word).2.2
      cases words with
      | nil =>
          rw [groupsText_singleton, List.length_singleton]
          omega
      | cons word' words =>
          rw [groupsText_cons_cons, List.length_append, List.length_cons, List.length_cons]
          omega

/-! ## Two colons -/

theorem cutAtColons_group (h : 0x3a ∉ text) (rest : Bytes) :
    cutAtColons (text ++ rest) = (cutAtColons rest).map fun (front, behind) => (text ++ front, behind) := by
  induction text with
  | nil =>
      cases hrest : cutAtColons rest with
      | none => rw [List.nil_append, hrest]; rfl
      | some r => rw [List.nil_append, hrest]; rfl
  | cons b text ih =>
      rw [List.mem_cons, not_or] at h
      rw [List.cons_append, cutAtColons, if_neg fun hb => h.1 hb.1.symm, ih h.2, Option.map_map]
      rfl

/-- A colon in front of a group is no cut. -/
theorem cutAtColons_colon (word : UInt16) (rest : Bytes) :
    cutAtColons (0x3a :: (groupText word ++ rest)) =
      (cutAtColons (groupText word ++ rest)).map fun (front, behind) => (0x3a :: front, behind) := by
  rw [cutAtColons, if_neg]
  rintro ⟨-, hhead⟩
  cases hgroup : groupText word with
  | nil => exact (groupText_facts word).2.1 hgroup
  | cons b text =>
      rw [hgroup] at hhead
      cases hhead
      exact groupText_no_colon word (by rw [hgroup]; exact List.mem_cons_self)

theorem cutAtColons_groupsText (words : List UInt16) (rest : Bytes) :
    cutAtColons (groupsText words ++ rest) =
      (cutAtColons rest).map fun (front, behind) => (groupsText words ++ front, behind) := by
  induction words with
  | nil =>
      cases h : cutAtColons rest with
      | none => rw [groupsText_nil, List.nil_append, h]; rfl
      | some r => rw [groupsText_nil, List.nil_append, h]; rfl
  | cons word words ih =>
      cases words with
      | nil =>
          rw [groupsText_singleton]
          exact cutAtColons_group (groupText_no_colon word) rest
      | cons word' words =>
          obtain ⟨tail, htail⟩ : ∃ tail, groupsText (word' :: words) = groupText word' ++ tail := by
            cases words with
            | nil => exact ⟨[], by rw [groupsText_singleton, List.append_nil]⟩
            | cons word'' words => exact ⟨_, groupsText_cons_cons word' word'' words⟩
          rw [groupsText_cons_cons, List.append_assoc, cutAtColons_group (groupText_no_colon word), List.cons_append, htail,
            List.append_assoc, cutAtColons_colon, ← List.append_assoc, ← htail, ih, Option.map_map, Option.map_map]
          cases cutAtColons rest with
          | none => rfl
          | some r =>
              simp only [Option.map_some, Function.comp_apply, List.append_assoc, List.cons_append]

/-! ## The run of zeros -/

/-- What the loop over the words keeps: where it has found zeros, there are some. -/
structure CompressedPiece.Holds (s : CompressedPiece) (front : List UInt16) : Prop where
  longest : ∀ i, s.longestIndex = some i → front[i]? = some 0
  found : ∀ i, s.foundIndex = some i → front[i]? = some 0

theorem CompressedPiece.Holds.next {s : CompressedPiece} {front : List UInt16} (h : s.Holds front) (piece : UInt16) :
    (s.next front.length piece).Holds (front ++ [piece]) := by
  have hfront {i : Nat} (hi : front[i]? = some 0) : (front ++ [piece])[i]? = some 0 := by
    rw [List.getElem?_append_left (List.getElem?_eq_some_iff.1 hi).1, hi]
  rw [CompressedPiece.next]
  split
  · refine ⟨fun i hi => hfront ?_, nofun⟩
    simp only at hi
    split at hi
    · exact h.found i hi
    · exact h.longest i hi
  · rename_i hzero
    rw [not_not] at hzero
    refine ⟨fun i hi => hfront (h.longest i hi), fun i hi => ?_⟩
    cases hfound : s.foundIndex with
    | some j =>
        simp only [hfound, Option.some_or, Option.some.injEq] at hi
        rw [← hi]
        exact hfront (h.found j hfound)
    | none =>
        simp only [hfound, Option.none_or, Option.some.injEq] at hi
        rw [← hi, List.getElem?_append_right (Nat.le_refl _), Nat.sub_self, hzero]
        rfl

theorem CompressedPiece.Holds.foldl {s : CompressedPiece} {front : List UInt16} (h : s.Holds front) (pieces : List UInt16) :
    ((pieces.zipIdx front.length).foldl (fun s (piece, i) => s.next i piece) s).Holds (front ++ pieces) := by
  induction pieces generalizing s front with
  | nil =>
      rw [List.append_nil]
      exact h
  | cons piece pieces ih =>
      have hrest := ih (h.next piece)
      rw [List.length_append, List.length_singleton, List.append_assoc, List.singleton_append] at hrest
      exact hrest

/-- The piece that is found is a zero. -/
theorem getElem_of_find {address : Ipv6} {i : Nat} (h : findIpv6CompressedPieceIndex address = some i) :
    address.words[i]? = some 0 := by
  have hbegin : CompressedPiece.Holds {} [] := ⟨nofun, nofun⟩
  have hholds := hbegin.foldl address.words
  rw [findIpv6CompressedPieceIndex] at h
  simp only at h
  split at h
  · exact hholds.found i h
  · exact hholds.longest i h

/-! ## The text of an address -/

/-- Behind the run all the groups are written. -/
theorem serializePieces_behind {compress : Option Nat} {pieces : List UInt16} {index : Nat}
    (hcompress : ∀ i, compress = some i → i < index) (hlength : index + pieces.length = 8) :
    serializePieces compress false index pieces = groupsText pieces := by
  induction pieces generalizing index with
  | nil => rfl
  | cons piece pieces ih =>
      rw [List.length_cons] at hlength
      rw [serializePieces, Bool.false_and, if_neg Bool.false_ne_true, if_neg fun h => absurd (hcompress _ h) (Nat.lt_irrefl _),
        ih (fun i hi => Nat.lt_succ_of_lt (hcompress i hi)) (by omega)]
      cases pieces with
      | nil =>
          rw [List.length_nil] at hlength
          rw [if_neg (by omega), groupsText_singleton]
          exact List.append_nil _
      | cons piece' pieces =>
          rw [List.length_cons] at hlength
          rw [if_pos (by omega), groupsText_cons_cons]
          rfl

theorem serializePieces_ignore {compress : Option Nat} {pieces : List UInt16} {index : Nat}
    (hcompress : ∀ i, compress = some i → i < index) (hlength : index + pieces.length = 8) :
    ∃ zeros behind, pieces = List.replicate zeros 0 ++ behind ∧ behind.head? ≠ some 0 ∧
      serializePieces compress true index pieces = groupsText behind := by
  induction pieces generalizing index with
  | nil => exact ⟨0, [], rfl, nofun, rfl⟩
  | cons piece pieces ih =>
      have hcompress' : ∀ i, compress = some i → i < index + 1 := fun i hi => Nat.lt_succ_of_lt (hcompress i hi)
      rw [List.length_cons] at hlength
      by_cases hzero : piece = 0
      · obtain ⟨zeros, behind, hpieces, hbehind, htext⟩ := ih hcompress' (by omega)
        refine ⟨zeros + 1, behind, ?_, hbehind, ?_⟩
        · rw [hzero, hpieces]
          rfl
        · rw [serializePieces, hzero, if_pos (by decide), htext]
      · refine ⟨0, piece :: pieces, rfl, fun hhead => hzero (Option.some.inj hhead), ?_⟩
        have hsame : serializePieces compress true index (piece :: pieces) =
            serializePieces compress false index (piece :: pieces) := by
          rw [serializePieces, serializePieces, decide_eq_false hzero, Bool.and_false, Bool.and_false]
        rw [hsame]
        exact serializePieces_behind hcompress (by rw [List.length_cons]; exact hlength)

/-- The run begins here. -/
theorem serializePieces_run {pieces : List UInt16} {index : Nat} (hlength : index + (pieces.length + 1) = 8) :
    ∃ zeros behind, pieces = List.replicate zeros 0 ++ behind ∧ behind.head? ≠ some 0 ∧
      serializePieces (some index) false index (0 :: pieces) =
        ascii (if index = 0 then "::" else ":") ++ groupsText behind := by
  have hcompress : ∀ i, some index = some i → i < index + 1 := fun i hi => by
    cases hi
    exact Nat.lt_succ_self _
  have hlength' : index + 1 + pieces.length = 8 := by omega
  obtain ⟨zeros, behind, hpieces, hbehind, htext⟩ := serializePieces_ignore hcompress hlength'
  refine ⟨zeros, behind, hpieces, hbehind, ?_⟩
  rw [serializePieces, Bool.false_and, if_neg Bool.false_ne_true, if_pos rfl, htext]

/-- The groups in front of the run end with a colon each, and one more begins it. -/
theorem serializePieces_front {front pieces : List UInt16} {index : Nat}
    (hlength : index + (front.length + (pieces.length + 1)) = 8) (hstart : index ≠ 0 ∨ front ≠ []) :
    ∃ zeros behind, pieces = List.replicate zeros 0 ++ behind ∧ behind.head? ≠ some 0 ∧
      serializePieces (some (index + front.length)) false index (front ++ 0 :: pieces) =
        groupsText front ++ (if front = [] then ascii ":" else ascii "::") ++ groupsText behind := by
  induction front generalizing index with
  | nil =>
      rw [List.length_nil, Nat.zero_add] at hlength
      obtain ⟨zeros, behind, hpieces, hbehind, htext⟩ := serializePieces_run hlength
      rw [if_neg (hstart.resolve_right fun h => h rfl)] at htext
      exact ⟨zeros, behind, hpieces, hbehind, htext⟩
  | cons piece front ih =>
      rw [List.length_cons] at hlength
      have hlength' : index + 1 + (front.length + (pieces.length + 1)) = 8 := by omega
      obtain ⟨zeros, behind, hpieces, hbehind, htext⟩ := ih hlength' (.inl (Nat.succ_ne_zero _))
      refine ⟨zeros, behind, hpieces, hbehind, ?_⟩
      rw [List.cons_append, serializePieces, Bool.false_and, if_neg Bool.false_ne_true, List.length_cons, if_neg, if_pos,
        show index + (front.length + 1) = index + 1 + front.length by omega, htext, if_neg (List.cons_ne_nil _ _)]
      · cases front with
        | nil =>
            rw [groupsText_singleton, if_pos rfl, groupsText_nil, groupText, List.append_assoc, List.append_assoc]
            rfl
        | cons piece' front =>
            rw [groupsText_cons_cons, if_neg (List.cons_ne_nil _ _)]
            simp only [groupText, List.append_assoc, List.cons_append, List.nil_append]
      · omega
      · simp only [Option.some.injEq]
        omega

/-- The text of an address: its groups, or the ones around a run of zeros. -/
theorem urlSerializeIpv6_cases (address : Ipv6) :
    (findIpv6CompressedPieceIndex address = none ∧
        urlSerializeIpv6 address = [0x5b] ++ groupsText address.words ++ [0x5d]) ∨
      ∃ front zeros behind, address.words = front ++ 0 :: (List.replicate zeros 0 ++ behind) ∧ behind.head? ≠ some 0 ∧
        findIpv6CompressedPieceIndex address = some front.length ∧
        urlSerializeIpv6 address = [0x5b] ++ (groupsText front ++ 0x3a :: 0x3a :: groupsText behind) ++ [0x5d] := by
  rw [urlSerializeIpv6]
  cases hfind : findIpv6CompressedPieceIndex address with
  | none =>
      rw [serializePieces_behind (fun _ hi => by cases hi) (by rw [address.length])]
      exact .inl ⟨rfl, rfl⟩
  | some i =>
      obtain ⟨hlt, hzero⟩ := List.getElem?_eq_some_iff.1 (getElem_of_find hfind)
      have hwords : address.words = address.words.take i ++ 0 :: address.words.drop (i + 1) := by
        rw [← hzero, ← List.drop_eq_getElem_cons hlt, List.take_append_drop]
      have hfront : (address.words.take i).length = i := List.length_take_of_le (Nat.le_of_lt hlt)
      have hlength : 0 + ((address.words.take i).length + ((address.words.drop (i + 1)).length + 1)) = 8 := by
        have := address.length
        rw [hfront, List.length_drop]
        omega
      right
      cases hcases : address.words.take i with
      | nil =>
          rw [hcases] at hfront hlength hwords
          rw [List.length_nil, Nat.zero_add] at hlength
          obtain ⟨zeros, behind, hpieces, hbehind, htext⟩ := serializePieces_run hlength
          cases hfront
          rw [List.nil_append] at hwords
          refine ⟨[], zeros, behind, ?_, hbehind, rfl, ?_⟩
          · rw [hwords, hpieces]
            rfl
          · rw [List.length_nil] at hwords htext ⊢
            rw [hwords, htext]
            rfl
      | cons piece front =>
          obtain ⟨zeros, behind, hpieces, hbehind, htext⟩ :=
            serializePieces_front hlength (.inr (by rw [hcases]; exact List.cons_ne_nil _ _))
          rw [Nat.zero_add, hfront, ← hwords, hcases, if_neg (List.cons_ne_nil _ _)] at htext
          rw [hcases, hpieces] at hwords
          rw [hcases] at hfront
          refine ⟨piece :: front, zeros, behind, hwords, hbehind, by rw [hfront], ?_⟩
          rw [htext]
          simp only [List.append_assoc]
          rfl

/-- The text is read as the address. -/
theorem inetPton_groups (address : Ipv6) : inetPton (groupsText address.words) = some address := by
  have hcut : cutAtColons (groupsText address.words) = none := by
    have h := cutAtColons_groupsText address.words []
    rwa [List.append_nil] at h
  rw [inetPton, hcut]
  simp only [groups_groupsText, wordsOfGroups_groupText, Option.bind_some, address.length, dite_true]

theorem inetPton_compressed {address : Ipv6} {front behind : List UInt16} {zeros : Nat}
    (h : address.words = front ++ 0 :: (List.replicate zeros 0 ++ behind)) :
    inetPton (groupsText front ++ 0x3a :: 0x3a :: groupsText behind) = some address := by
  have hcut : cutAtColons (groupsText front ++ 0x3a :: 0x3a :: groupsText behind) =
      some (groupsText front, groupsText behind) := by
    rw [cutAtColons_groupsText, cutAtColons, if_pos ⟨rfl, rfl⟩, Option.map_some]
    simp only [List.append_nil, List.drop_succ_cons, List.drop_zero]
  have hlength := address.length
  rw [h] at hlength
  simp only [List.length_append, List.length_cons, List.length_replicate] at hlength
  have hflatten : (front.map fun word => [word]).flatten = front := by
    rw [← List.flatMap_def, List.flatMap_singleton']
  have hwords : front ++ List.replicate (8 - (front.length + behind.length)) 0 ++ behind = address.words := by
    rw [h, show 8 - (front.length + behind.length) = zeros + 1 by omega, List.replicate_succ, List.append_assoc]
    rfl
  rw [inetPton, hcut]
  simp only [groups_groupsText, mapM_hexGroup, wordsOfGroups_groupText, hflatten, hwords]
  rw [if_pos (by omega), dif_pos address.length]

/-- The bytes of the text between the brackets. -/
def isAddressByte (b : UInt8) : Bool := b == 0x3a || isHexDigit b

theorem urlSerializeIpv6_text (address : Ipv6) :
    ∃ text, urlSerializeIpv6 address = 0x5b :: text ++ [0x5d] ∧ (∀ b ∈ text, isAddressByte b = true) ∧
      Ipv6.ofText text = some address := by
  have hbyte {words : List UInt16} : ∀ b ∈ groupsText words, isAddressByte b = true := fun b hb => by
    rw [isAddressByte, Bool.or_eq_true, beq_iff_eq]
    exact mem_groupsText hb
  have htext {text : Bytes} (hbytes : ∀ b ∈ text, isAddressByte b = true) (hlength : text.length ≤ 100)
      (hparse : inetPton text = some address) : Ipv6.ofText text = some address := by
    rw [Ipv6.ofText, if_neg (by omega), List.takeWhile_eq_self_iff.2, hparse]
    intro b hb
    rw [decide_eq_true_eq]
    rintro rfl
    exact absurd (hbytes 0 hb) (by decide)
  have hwords := address.length
  rcases urlSerializeIpv6_cases address with ⟨-, h⟩ | ⟨front, zeros, behind, hsplit, -, -, h⟩
  · refine ⟨groupsText address.words, h, hbyte, htext hbyte ?_ (inetPton_groups address)⟩
    have := length_groupsText address.words
    omega
  · have hbytes : ∀ b ∈ groupsText front ++ 0x3a :: 0x3a :: groupsText behind, isAddressByte b = true := by
      intro b hb
      rw [List.mem_append, List.mem_cons, List.mem_cons] at hb
      rcases hb with hb | rfl | rfl | hb
      · exact hbyte b hb
      · rfl
      · rfl
      · exact hbyte b hb
    refine ⟨groupsText front ++ 0x3a :: 0x3a :: groupsText behind, h, hbytes, htext hbytes ?_ (inetPton_compressed hsplit)⟩
    have hfront := length_groupsText front
    have hbehind := length_groupsText behind
    rw [hsplit] at hwords
    simp only [List.length_append, List.length_cons, List.length_replicate] at hwords ⊢
    omega

/-- An IPv6 host is parsed to itself. -/
theorem parseHostText_ipv6 (address : Ipv6) (isOpaque : Bool) :
    parseHostText (urlSerializeIpv6 address) isOpaque = .ok (urlSerializeIpv6 address, .ipv6) := by
  obtain ⟨text, hserialize, -, hparse⟩ := urlSerializeIpv6_text address
  rw [parseHostText, hserialize, List.cons_append, if_neg (List.cons_ne_nil _ _), List.head?_cons, if_pos rfl, if_neg,
    List.drop_succ_cons, List.drop_zero, List.dropLast_concat, hparse]
  · simp only [hserialize, List.cons_append]
  · rw [List.length_cons, List.length_append, List.length_singleton, ← List.cons_append, List.getLast?_concat]
    rintro (h | h)
    · omega
    · exact h rfl

/-! ## The bytes of addresses -/

/-- A digit, or a mark between groups of digits. -/
def isPtonByte (b : UInt8) : Bool := isHexDigit b || b == 0x2e || b == 0x3a

theorem isPtonByte_of_digit {b : UInt8} {base : Nat} (h : isDigitOf base b = true) : isPtonByte b = true := by
  have hall : ∀ b : UInt8, (!(digitOf b).isSome || isPtonByte b) = true := forall_byte (by decide +kernel)
  have hdigit : (digitOf b).isSome = true := by
    rw [isDigitOf] at h
    exact Option.isSome_of_any h
  have hb := hall b
  rwa [hdigit, Bool.not_true, Bool.false_or] at hb

theorem toNumeric_bytes {bits base n : Nat} {text : Bytes} (h : toNumeric bits base text = some n) :
    ∀ b ∈ text, isPtonByte b = true := by
  rw [toNumeric] at h
  split at h
  · rename_i hdigits
    exact fun b hb => isPtonByte_of_digit (List.all_eq_true.1 hdigits.2.1 b hb)
  · cases h

theorem hexGroup_bytes {group : Bytes} (h : (hexGroup group).isSome = true) : ∀ b ∈ group, isPtonByte b = true := by
  rw [hexGroup] at h
  split at h
  · cases hnumeric : toNumeric 16 16 group with
    | none => rw [hnumeric] at h; cases h
    | some n => exact toNumeric_bytes hnumeric
  · cases h

theorem dottedGroups_bytes {group : Bytes} (h : (dottedGroups group).isSome = true) : ∀ b ∈ group, isPtonByte b = true := by
  intro byte hbyte
  by_cases hdot : byte = 0x2e
  · rw [hdot]
    rfl
  obtain ⟨piece, hpiece, hmem⟩ := Lib.mem_splitOn_iff.2 ⟨hbyte, hdot⟩
  rw [dottedGroups] at h
  split at h
  · rename_i a b c d hsplit
    have hnumber {part : Bytes} {n : Nat}
        (hpart : (if part.length > 1 ∧ part.head? = some 0x30 then none else toNumeric 8 10 part) = some n) :
        ∀ b ∈ part, isPtonByte b = true := by
      split at hpart
      · cases hpart
      · exact toNumeric_bytes hpart
    dsimp only at h
    split at h
    · rename_i ha hb hc hd
      rw [hsplit] at hpiece
      simp only [List.mem_cons, List.not_mem_nil, or_false] at hpiece
      rcases hpiece with rfl | rfl | rfl | rfl
      · exact hnumber ha byte hmem
      · exact hnumber hb byte hmem
      · exact hnumber hc byte hmem
      · exact hnumber hd byte hmem
    · cases h
  · cases h

theorem wordsOfGroups_bytes {texts : List Bytes} {words : List UInt16} (h : wordsOfGroups texts = some words) :
    ∀ group ∈ texts, ∀ b ∈ group, isPtonByte b = true := by
  induction texts generalizing words with
  | nil => nofun
  | cons group texts ih =>
      cases texts with
      | nil =>
          rw [List.forall_mem_singleton]
          rw [wordsOfGroups] at h
          cases hhex : hexGroup group with
          | some word => exact hexGroup_bytes (by rw [hhex]; rfl)
          | none =>
              rw [hhex] at h
              exact dottedGroups_bytes (by rw [show dottedGroups group = some words from h]; rfl)
      | cons group' texts =>
          rw [wordsOfGroups] at h
          · cases hhex : hexGroup group with
            | none => rw [hhex] at h; cases h
            | some word =>
                rw [hhex] at h
                obtain ⟨more, hmore, -⟩ := Option.map_eq_some_iff.1 h
                exact List.forall_mem_cons.2 ⟨hexGroup_bytes (by rw [hhex]; rfl), ih hmore⟩
          · nofun

theorem mapM_hexGroup_bytes {texts : List Bytes} {words : List (List UInt16)} (h : texts.mapM hexGroup = some words) :
    ∀ group ∈ texts, ∀ b ∈ group, isPtonByte b = true := by
  induction texts generalizing words with
  | nil => nofun
  | cons group texts ih =>
      rw [List.mapM_cons] at h
      cases hhex : hexGroup group with
      | none => rw [hhex] at h; cases h
      | some word =>
          rw [hhex] at h
          cases hrest : texts.mapM hexGroup with
          | none => rw [hrest] at h; cases h
          | some more => exact List.forall_mem_cons.2 ⟨hexGroup_bytes (by rw [hhex]; rfl), ih hrest⟩

theorem groups_bytes {text : Bytes} (h : ∀ group ∈ groups text, ∀ b ∈ group, isPtonByte b = true) :
    ∀ b ∈ text, isPtonByte b = true := by
  intro b hb
  by_cases hcolon : b = 0x3a
  · rw [hcolon]
    rfl
  obtain ⟨piece, hpiece, hmem⟩ := Lib.mem_splitOn_iff.2 ⟨hb, hcolon⟩
  rw [groups, if_neg (List.ne_nil_of_mem hb)] at h
  exact h piece hpiece b hmem

theorem cutAtColons_eq_some {text front behind : Bytes} (h : cutAtColons text = some (front, behind)) :
    text = front ++ 0x3a :: 0x3a :: behind := by
  induction text generalizing front with
  | nil => cases h
  | cons ch text ih =>
      rw [cutAtColons] at h
      split at h
      · rename_i hcolons
        cases h
        obtain ⟨rfl, hhead⟩ := hcolons
        cases text with
        | nil => cases hhead
        | cons ch text =>
            cases hhead
            rfl
      · obtain ⟨⟨front', behind'⟩, hcut, hsame⟩ := Option.map_eq_some_iff.1 h
        cases hsame
        rw [ih hcut]
        rfl

/-- An address has no other bytes. -/
theorem inetPton_bytes {text : Bytes} {address : Ipv6} (h : inetPton text = some address) :
    ∀ b ∈ text, isPtonByte b = true := by
  rw [inetPton] at h
  simp only at h
  split at h
  · obtain ⟨words, hwords, -⟩ := Option.bind_eq_some_iff.1 h
    exact groups_bytes (wordsOfGroups_bytes hwords)
  · rename_i front behind hcut
    split at h
    · rename_i frontWords behindWords hfront hbehind
      rw [cutAtColons_eq_some hcut]
      refine List.forall_mem_append.2 ⟨groups_bytes (mapM_hexGroup_bytes hfront), ?_⟩
      exact List.forall_mem_cons.2 ⟨rfl, List.forall_mem_cons.2 ⟨rfl, groups_bytes (wordsOfGroups_bytes hbehind)⟩⟩
    · cases h

/-- The text of an address is read without its brackets only. -/
theorem ofText_serialized (address : Ipv6) : Ipv6.ofText (urlSerializeIpv6 address) = none := by
  obtain ⟨text, htext, -⟩ := urlSerializeIpv6_text address
  rw [Ipv6.ofText]
  split
  · rfl
  · rw [htext]
    cases hparse : inetPton ((0x5b :: text ++ [0x5d]).takeWhile (· ≠ 0)) with
    | none => rfl
    | some address' =>
        have hbracket := inetPton_bytes hparse 0x5b List.mem_cons_self
        cases hbracket

theorem ipv4Byte_toChars {n : Nat} (h : n < 256) : ipv4Byte (toChars 10 n) = some n := by
  have hall : ∀ n < 256, ipv4Byte (toChars 10 n) = some n := by decide +kernel
  exact hall n h

/-- An IPv4 address is read back. -/
theorem ofText_toText (address : Ipv4) : Ipv4.ofText address.toText = some address := by
  have hlt := address.toNat_lt
  have hdot {n : Nat} (h : n < 256) : 0x2e ∉ toChars 10 n := (decimal_facts h).2.1
  rw [Ipv4.ofText, Ipv4.toText, List.splitOn_intercalate]
  · simp only [List.map_cons, List.map_nil, List.mapM_cons, List.mapM_nil]
    rw [ipv4Byte_toChars (by omega), ipv4Byte_toChars (by omega), ipv4Byte_toChars (by omega), ipv4Byte_toChars (by omega)]
    show some (UInt32.ofNat _) = _
    rw [show address.toNat / 0x1000000 * 0x1000000 + address.toNat / 0x10000 % 0x100 * 0x10000 +
      address.toNat / 0x100 % 0x100 * 0x100 + address.toNat % 0x100 = address.toNat by omega, UInt32.ofNat_toNat]
  · simp only [List.map_cons, List.map_nil, List.forall_mem_cons]
    exact ⟨hdot (by omega), hdot (by omega), hdot (by omega), hdot (by omega), (by simp)⟩
  · exact List.cons_ne_nil _ _

end Rad.Url
