import Rad.Http.Tokens

/-!
# Tokens of longer texts

A token that is there as a whole, and one that is refused, is the same when more text comes behind. A token that is read as
far as it is there goes on with the text behind.
-/

namespace Rad.Http

/-! ## Tokens that are read as far as they are there -/

section

variable {act : Bytes → UInt8 → CharAct} {token token' input rest : Bytes} {e : Error}

theorem scanToken_more (h : scanToken act token input = .more token') (u : Bytes) :
    scanToken act token (input ++ u) = scanToken act token' u := by
  induction input generalizing token with
  | nil =>
      cases h
      rfl
  | cons ch text ih =>
      rw [scanToken] at h
      rw [List.cons_append, scanToken]
      cases hact : act token ch with
      | push =>
          rw [hact] at h
          exact ih h
      | endsBefore => rw [hact] at h; cases h
      | endsWith => rw [hact] at h; cases h
      | refuse e => rw [hact] at h; cases h

theorem scanToken_more_ne_nil {ch : UInt8} (h : scanToken act token (ch :: input) = .more token') : token' ≠ [] := by
  induction input generalizing token ch with
  | nil =>
      rw [scanToken] at h
      cases hact : act token ch with
      | push =>
          rw [hact] at h
          cases h
          exact List.append_ne_nil_of_right_ne_nil _ (List.cons_ne_nil _ _)
      | endsBefore => rw [hact] at h; cases h
      | endsWith => rw [hact] at h; cases h
      | refuse e => rw [hact] at h; cases h
  | cons b text ih =>
      rw [scanToken] at h
      cases hact : act token ch with
      | push =>
          rw [hact] at h
          exact ih h
      | endsBefore => rw [hact] at h; cases h
      | endsWith => rw [hact] at h; cases h
      | refuse e => rw [hact] at h; cases h

theorem scanToken_finished (h : scanToken act token input = .finished token' rest) (u : Bytes) :
    scanToken act token (input ++ u) = .finished token' (rest ++ u) := by
  induction input generalizing token with
  | nil => cases h
  | cons ch text ih =>
      rw [scanToken] at h
      rw [List.cons_append, scanToken]
      cases hact : act token ch with
      | push =>
          rw [hact] at h
          exact ih h
      | endsBefore =>
          rw [hact] at h
          cases h
          rfl
      | endsWith =>
          rw [hact] at h
          cases h
          rfl
      | refuse e => rw [hact] at h; cases h

theorem scanToken_failed (h : scanToken act token input = .failed token' e) (u : Bytes) :
    scanToken act token (input ++ u) = .failed token' e := by
  induction input generalizing token with
  | nil => cases h
  | cons ch text ih =>
      rw [scanToken] at h
      rw [List.cons_append, scanToken]
      cases hact : act token ch with
      | push =>
          rw [hact] at h
          exact ih h
      | endsBefore => rw [hact] at h; cases h
      | endsWith => rw [hact] at h; cases h
      | refuse e =>
          rw [hact] at h
          cases h
          rfl

theorem scanToken_append {x : Bytes}
    (h : ∀ y b z, x = y ++ b :: z → act (token ++ y) b = .push) (rest : Bytes) :
    scanToken act token (x ++ rest) = scanToken act (token ++ x) rest := by
  induction x generalizing token with
  | nil => rw [List.nil_append, List.append_nil]
  | cons ch x ih =>
      have hpush := h [] ch x rfl
      rw [List.append_nil] at hpush
      rw [List.cons_append, scanToken, hpush]
      refine (ih fun y b z hx => ?_).trans (by rw [List.append_assoc, List.singleton_append])
      have := h (ch :: y) b z (by rw [hx, List.cons_append])
      rwa [List.append_assoc, List.singleton_append]

/-- What a token that is finished is read from. -/
theorem scanToken_split (h : scanToken act token input = .finished token' rest) :
    ∃ x ch u, input = x ++ ch :: u ∧ token' = token ++ x ∧ (∀ y b z, x = y ++ b :: z → act (token ++ y) b = .push) ∧
      (act token' ch = .endsBefore ∧ rest = ch :: u ∨ act token' ch = .endsWith ∧ rest = u) := by
  induction input generalizing token with
  | nil => cases h
  | cons ch text ih =>
      rw [scanToken] at h
      cases hact : act token ch with
      | push =>
          rw [hact] at h
          obtain ⟨x, b, u, rfl, htoken, hpush, hends⟩ := ih h
          refine ⟨ch :: x, b, u, rfl, by simp [htoken], fun y b z hx => ?_, hends⟩
          cases y with
          | nil =>
              rw [List.nil_append] at hx
              cases hx
              rwa [List.append_nil]
          | cons c y =>
              cases hx
              simpa using hpush y b z rfl
      | endsBefore =>
          rw [hact] at h
          cases h
          exact ⟨[], ch, _, rfl, (List.append_nil _).symm, by simp, .inl ⟨hact, rfl⟩⟩
      | endsWith =>
          rw [hact] at h
          cases h
          exact ⟨[], ch, _, rfl, (List.append_nil _).symm, by simp, .inr ⟨hact, rfl⟩⟩
      | refuse e =>
          rw [hact] at h
          cases h

/-- A token that ends before the character behind it. -/
theorem scanToken_finished_before_iff (hwith : ∀ t ch, act t ch ≠ .endsWith) :
    scanToken act token input = .finished token' rest ↔
      ∃ x ch u, input = x ++ ch :: u ∧ rest = ch :: u ∧ token' = token ++ x ∧ act token' ch = .endsBefore ∧
        ∀ y b z, x = y ++ b :: z → act (token ++ y) b = .push := by
  constructor
  · intro h
    obtain ⟨x, ch, u, hinput, htoken, hpush, ⟨hends, hrest⟩ | ⟨hends, -⟩⟩ := scanToken_split h
    · exact ⟨x, ch, u, hinput, hrest, htoken, hends, hpush⟩
    · exact absurd hends (hwith _ _)
  · rintro ⟨x, ch, u, rfl, rfl, rfl, hends, hpush⟩
    rw [scanToken_append hpush, scanToken, hends]

/-- A token that ends with the character behind it. -/
theorem scanToken_finished_iff (hbefore : ∀ t ch, act t ch ≠ .endsBefore) :
    scanToken act token input = .finished token' rest ↔
      ∃ x ch, input = x ++ ch :: rest ∧ token' = token ++ x ∧ act token' ch = .endsWith ∧
        ∀ y b z, x = y ++ b :: z → act (token ++ y) b = .push := by
  constructor
  · intro h
    obtain ⟨x, ch, u, hinput, htoken, hpush, ⟨hends, -⟩ | ⟨hends, rfl⟩⟩ := scanToken_split h
    · exact absurd hends (hbefore _ _)
    · exact ⟨x, ch, hinput, htoken, hends, hpush⟩
  · rintro ⟨x, ch, rfl, rfl, hends, hpush⟩
    rw [scanToken_append hpush, scanToken, hends]

theorem scanToken_failed_act (h : scanToken act token input = .failed token' e) : ∃ t ch, act t ch = .refuse e := by
  induction input generalizing token with
  | nil => cases h
  | cons ch text ih =>
      rw [scanToken] at h
      cases hact : act token ch with
      | push =>
          rw [hact] at h
          exact ih h
      | endsBefore => rw [hact] at h; cases h
      | endsWith => rw [hact] at h; cases h
      | refuse e' =>
          rw [hact] at h
          cases h
          exact ⟨_, ch, hact⟩

end

/-! ## Tokens that are there as a whole -/

/-- The methods that are the beginning of a text, for a text that has seven characters at least, and for a shorter one. -/
theorem httpVerbs_begins {e : Bytes × Verb} (he : e ∈ httpVerbs) (input : Bytes) :
    e.1.isPrefixOf (input.take 7) = true ↔ e.1 <+: input := by
  have hlen : ∀ e ∈ httpVerbs, e.1.length ≤ 7 := by decide
  rw [List.isPrefixOf_iff_prefix, List.prefix_take_iff]
  exact and_iff_left (hlen e he)

/-- No method is the beginning of another one. -/
theorem httpVerbs_comparable {e e' : Bytes × Verb} (he : e ∈ httpVerbs) (he' : e' ∈ httpVerbs) (h : e.1 <+: e'.1) :
    e = e' := by
  have hall : ∀ e ∈ httpVerbs, ∀ e' ∈ httpVerbs, e.1.isPrefixOf e'.1 = true → e = e' := by decide
  exact hall e he e' he' (List.isPrefixOf_iff_prefix.2 h)

theorem parseHttpMethod_found {e : Bytes × Verb} (he : e ∈ httpVerbs) (rest : Bytes) :
    parseHttpMethod (e.1 ++ rest) = .ok (some (e.2, rest)) := by
  have hbegins : ∀ e' ∈ httpVerbs, e'.1.isPrefixOf ((e.1 ++ rest).take 7) = true → e' = e := by
    intro e' he' h
    rcases List.prefix_or_prefix_of_prefix ((httpVerbs_begins he' _).1 h) (List.prefix_append e.1 rest) with h | h
    · exact httpVerbs_comparable he' he h
    · exact (httpVerbs_comparable he he' h).symm
  have hself := (httpVerbs_begins he (e.1 ++ rest)).2 (List.prefix_append _ _)
  have hfind : (httpVerbs.find? fun e' => e'.1.isPrefixOf ((e.1 ++ rest).take 7)) = some e := by
    cases hfound : httpVerbs.find? fun e' => e'.1.isPrefixOf ((e.1 ++ rest).take 7) with
    | none => exact absurd hself (by simpa using List.find?_eq_none.1 hfound e he)
    | some e' =>
        have htrue := List.find?_some hfound
        rw [hbegins e' (List.mem_of_find?_eq_some hfound) htrue]
  have hverb : ∀ e ∈ httpVerbs, stringToVerb e.1 = e.2 := by decide
  rw [parseHttpMethod, hfind]
  simp only [hverb e he, List.drop_left]

/-- What a method is read from. -/
theorem parseHttpMethod_cases (input : Bytes) :
    (∃ e ∈ httpVerbs, ∃ rest, input = e.1 ++ rest ∧ parseHttpMethod input = .ok (some (e.2, rest))) ∨
    ((∃ e ∈ httpVerbs, input <+: e.1 ∧ input ≠ e.1) ∧ parseHttpMethod input = .ok none) ∨
    ((∀ e ∈ httpVerbs, ¬e.1 <+: input ∧ ¬input <+: e.1) ∧ parseHttpMethod input = .error .badMethod) := by
  by_cases hfound : ∃ e ∈ httpVerbs, e.1 <+: input
  · obtain ⟨e, he, rest, rfl⟩ := hfound
    exact .inl ⟨e, he, rest, rfl, parseHttpMethod_found he rest⟩
  · have hfind : (httpVerbs.find? fun e => e.1.isPrefixOf (input.take 7)) = none :=
      List.find?_eq_none.2 fun e he h => hfound ⟨e, he, (httpVerbs_begins he input).1 h⟩
    have hlen : ∀ e ∈ httpVerbs, e.1.length ≤ 7 := by decide
    by_cases hbegun : ∃ e ∈ httpVerbs, input <+: e.1
    · obtain ⟨e, he, h⟩ := hbegun
      have hne : input ≠ e.1 := fun heq => hfound ⟨e, he, heq ▸ List.prefix_rfl⟩
      refine .inr (.inl ⟨⟨e, he, h, hne⟩, ?_⟩)
      have htake : input.take 7 = input := List.take_of_length_le (Nat.le_trans h.length_le (hlen e he))
      rw [parseHttpMethod, hfind]
      simp only [htake]
      rw [if_pos (List.any_eq_true.2 ⟨e, he, List.isPrefixOf_iff_prefix.2 h⟩)]
    · refine .inr (.inr ⟨fun e he => ⟨fun h => hfound ⟨e, he, h⟩, fun h => hbegun ⟨e, he, h⟩⟩, ?_⟩)
      rw [parseHttpMethod, hfind]
      simp only
      rw [if_neg]
      intro hany
      obtain ⟨e, he, h⟩ := List.any_eq_true.1 hany
      have h := List.isPrefixOf_iff_prefix.1 h
      rcases Nat.lt_or_ge 7 input.length with hlong | hshort
      · -- a method of seven characters is there as a whole
        have heq : input.take 7 = e.1 := h.eq_of_length (by
          have := h.length_le
          have := hlen e he
          rw [List.length_take] at *
          omega)
        exact hfound ⟨e, he, heq ▸ List.take_prefix 7 input⟩
      · rw [List.take_of_length_le hshort] at h
        exact hbegun ⟨e, he, h⟩

theorem parseHttpMethod_some {input rest : Bytes} {v : Verb} (h : parseHttpMethod input = .ok (some (v, rest))) (u : Bytes) :
    parseHttpMethod (input ++ u) = .ok (some (v, rest ++ u)) := by
  rcases parseHttpMethod_cases input with ⟨e, he, rest', rfl, h'⟩ | ⟨-, h'⟩ | ⟨-, h'⟩
  · rw [h] at h'
    cases h'
    rw [List.append_assoc]
    exact parseHttpMethod_found he _
  · rw [h] at h'; cases h'
  · rw [h] at h'; cases h'

theorem parseHttpMethod_error {input : Bytes} {e : Error} (h : parseHttpMethod input = .error e) (u : Bytes) :
    parseHttpMethod (input ++ u) = .error e := by
  rcases parseHttpMethod_cases input with ⟨_, _, _, -, h'⟩ | ⟨-, h'⟩ | ⟨hnone, h'⟩
  · rw [h] at h'; cases h'
  · rw [h] at h'; cases h'
  · rw [h] at h'
    cases h'
    rcases parseHttpMethod_cases (input ++ u) with ⟨e, he, rest, htext, -⟩ | ⟨⟨e, he, hbegins, -⟩, -⟩ | ⟨-, h'⟩
    · rcases List.prefix_or_prefix_of_prefix (List.prefix_append input u) (htext ▸ List.prefix_append e.1 rest) with h | h
      · exact absurd h (hnone e he).2
      · exact absurd h (hnone e he).1
    · exact absurd ((List.prefix_append input u).trans hbegins) (hnone e he).2
    · exact h'

theorem parseHttpSlash_found (rest : Bytes) : parseHttpSlash (httpSlash ++ rest) = .ok (some rest) := by
  have htake : (httpSlash ++ rest).take httpSlash.length = httpSlash := List.take_left
  rw [parseHttpSlash, htake, if_neg (Nat.lt_irrefl _), if_neg (fun h => h rfl), List.drop_left]

/-- What `HTTP/` is read from. -/
theorem parseHttpSlash_cases (input : Bytes) :
    (∃ rest, input = httpSlash ++ rest ∧ parseHttpSlash input = .ok (some rest)) ∨
    ((input <+: httpSlash ∧ input ≠ httpSlash) ∧ parseHttpSlash input = .ok none) ∨
    ((¬httpSlash <+: input ∧ ¬input <+: httpSlash) ∧ parseHttpSlash input = .error .badVersion) := by
  by_cases hwhole : httpSlash <+: input
  · obtain ⟨rest, rfl⟩ := hwhole
    exact .inl ⟨rest, rfl, parseHttpSlash_found rest⟩
  have hne : input ≠ httpSlash := fun h => hwhole (h ▸ List.prefix_rfl)
  by_cases hbegun : input <+: httpSlash
  · refine .inr (.inl ⟨⟨hbegun, hne⟩, ?_⟩)
    have hlt : input.length < httpSlash.length :=
      Nat.lt_of_le_of_ne hbegun.length_le fun h => hne (hbegun.eq_of_length h)
    have htake : input.take httpSlash.length = input := List.take_of_length_le (Nat.le_of_lt hlt)
    rw [parseHttpSlash, htake, if_pos hlt, if_pos (List.isPrefixOf_iff_prefix.2 hbegun)]
  · refine .inr (.inr ⟨⟨hwhole, hbegun⟩, ?_⟩)
    have hsame : input.take httpSlash.length ≠ httpSlash := fun h => hwhole (h ▸ List.take_prefix _ _)
    rw [parseHttpSlash]
    split
    · rename_i hlen
      have htake : input.take httpSlash.length = input := by
        rw [List.length_take] at hlen
        exact List.take_of_length_le (by omega)
      rw [htake, if_neg (fun h => hbegun (List.isPrefixOf_iff_prefix.1 h))]
    · rfl

theorem parseHttpSlash_some {input rest : Bytes} (h : parseHttpSlash input = .ok (some rest)) (u : Bytes) :
    parseHttpSlash (input ++ u) = .ok (some (rest ++ u)) := by
  rcases parseHttpSlash_cases input with ⟨rest', rfl, h'⟩ | ⟨-, h'⟩ | ⟨-, h'⟩
  · rw [h] at h'
    cases h'
    rw [List.append_assoc]
    exact parseHttpSlash_found _
  · rw [h] at h'; cases h'
  · rw [h] at h'; cases h'

theorem parseHttpSlash_error {input : Bytes} {e : Error} (h : parseHttpSlash input = .error e) (u : Bytes) :
    parseHttpSlash (input ++ u) = .error e := by
  rcases parseHttpSlash_cases input with ⟨_, -, h'⟩ | ⟨-, h'⟩ | ⟨⟨hwhole, hbegun⟩, h'⟩
  · rw [h] at h'; cases h'
  · rw [h] at h'; cases h'
  · rw [h] at h'
    cases h'
    rcases parseHttpSlash_cases (input ++ u) with ⟨rest, htext, -⟩ | ⟨⟨hbegins, -⟩, -⟩ | ⟨-, h'⟩
    · rcases List.prefix_or_prefix_of_prefix (List.prefix_append input u) (htext ▸ List.prefix_append httpSlash rest)
        with h | h
      · exact absurd h hbegun
      · exact absurd h hwhole
    · exact absurd ((List.prefix_append input u).trans hbegins) hbegun
    · exact h'

/-- The first characters of a text that are there. -/
theorem take_three_append {input : Bytes} (hne : input ≠ []) (u : Bytes) :
    ((input ++ u).take 3).headD 0 = (input.take 3).headD 0 ∧
      (2 ≤ (input.take 3).length → 2 ≤ ((input ++ u).take 3).length ∧
        ((input ++ u).take 3).getD 1 0 = (input.take 3).getD 1 0) ∧
      (¬(input.take 3).length < 3 → (input ++ u).take 3 = input.take 3 ∧ (input ++ u).drop 3 = input.drop 3 ++ u) := by
  match input, hne with
  | [a], _ => simp
  | [a, b], _ => cases u <;> simp
  | a :: b :: c :: input, _ => simp

theorem parseHttpVersion_some {input rest : Bytes} {v : Version} (hne : input ≠ [])
    (h : parseHttpVersion input = .ok (some (v, rest))) (u : Bytes) :
    parseHttpVersion (input ++ u) = .ok (some (v, rest ++ u)) := by
  obtain ⟨-, -, hthree⟩ := take_three_append hne u
  rw [parseHttpVersion] at h
  by_cases hlen : (input.take 3).length < 3
  · exfalso
    simp only [hlen, if_true] at h
    split at h
    · cases h
    split at h <;> cases h
  · obtain ⟨htake, hdrop⟩ := hthree hlen
    rw [parseHttpVersion, htake, hdrop]
    split at h
    · cases h
    rename_i hone
    split at h
    · cases h
    rename_i hpoint
    split at h
    · cases h
    rename_i hvalid
    cases h
    rw [if_neg hone, if_neg hpoint, if_neg hlen, if_neg hvalid]

theorem parseHttpVersion_error {input : Bytes} {e : Error} (hne : input ≠ []) (h : parseHttpVersion input = .error e)
    (u : Bytes) : parseHttpVersion (input ++ u) = .error e := by
  obtain ⟨hhead, hsecond, hthree⟩ := take_three_append hne u
  rw [parseHttpVersion] at h
  rw [parseHttpVersion, hhead]
  split at h
  · rename_i hone
    rwa [if_pos hone]
  rename_i hone
  rw [if_neg hone]
  split at h
  · rename_i hpoint
    obtain ⟨hlen, hget⟩ := hsecond hpoint.1
    rwa [if_pos ⟨hlen, hget ▸ hpoint.2⟩]
  rename_i hpoint
  split at h
  · cases h
  rename_i hlen
  obtain ⟨htake, -⟩ := hthree hlen
  split at h
  · rename_i hvalid
    rwa [htake, if_neg hpoint, if_neg hlen, if_pos hvalid]
  · cases h

theorem parseHttpStatus_some {input rest : Bytes} {n : Nat} (hne : input ≠ [])
    (h : parseHttpStatus input = .ok (some (n, rest))) (u : Bytes) :
    parseHttpStatus (input ++ u) = .ok (some (n, rest ++ u)) := by
  obtain ⟨-, -, hthree⟩ := take_three_append hne u
  rw [parseHttpStatus] at h
  by_cases hlen : (input.take 3).length < 3
  · exfalso
    simp only [hlen, if_true] at h
    split at h
    · cases h
    split at h <;> cases h
  · obtain ⟨htake, hdrop⟩ := hthree hlen
    rw [parseHttpStatus, htake, hdrop]
    split at h
    · cases h
    rename_i hzero
    split at h
    · cases h
    rename_i hnumber
    cases h
    rw [if_neg hzero, if_neg hlen, if_neg hnumber]

theorem toUint32_all {text : Bytes} (h : (toUint32 text).2 = true) : text.all isDigit = true := by
  rw [toUint32] at h
  split at h
  · cases h
  split at h
  · cases h
  · have hlen : (text.takeWhile isDigit).length = text.length := by simpa using h
    have htake := (List.takeWhile_prefix (l := text) isDigit).eq_of_length hlen
    rw [← htake]
    exact List.all_takeWhile

theorem parseHttpStatus_error {input : Bytes} {e : Error} (hne : input ≠ []) (h : parseHttpStatus input = .error e)
    (u : Bytes) : parseHttpStatus (input ++ u) = .error e := by
  obtain ⟨hhead, -, hthree⟩ := take_three_append hne u
  rw [parseHttpStatus] at h
  rw [parseHttpStatus, hhead]
  split at h
  · rename_i hzero
    rwa [if_pos hzero]
  rename_i hzero
  rw [if_neg hzero]
  split at h
  · rename_i hlen
    split at h
    · cases h
    rename_i hdigits
    cases h
    have hall : ((input ++ u).take 3).all isDigit = false := by
      rw [List.take_append, List.all_append, Bool.and_eq_false_iff]
      exact .inl (by simpa using hdigits)
    split
    · rw [if_neg (by simp [hall])]
    · rw [if_pos]
      cases hnumber : (toUint32 ((input ++ u).take 3)).2 with
      | false => rfl
      | true =>
          rw [toUint32_all hnumber] at hall
          cases hall
  · rename_i hlen
    obtain ⟨htake, -⟩ := hthree hlen
    split at h
    · rename_i hnumber
      rwa [htake, if_neg hlen, if_pos hnumber]
    · cases h

end Rad.Http
