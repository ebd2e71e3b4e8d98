import Rad.Json.Lemmas.Integers

/-!
# Reading arrays and objects

The values of an array and the members of an object are counted in the item of the parser and lie on the value stack
until the closing bracket. By induction on the grammar every text is read to what it denotes.
-/

namespace Rad.Json

variable {toDouble : Bool → Bytes → Except ErrorCode UInt64}

/-! ## The value stack -/

theorem elements_values (vs : List Value) : ValueStack.elements (vs.map .value) = some vs := by
  induction vs with
  | nil => rfl
  | cons v vs ih => rw [List.map_cons, ValueStack.elements, ih, Option.map_some]

theorem pushArray_values {s : ValueStack} {vs : List Value} {base : List StackItem}
    (h : s.stack = (vs.map .value).reverse ++ base) :
    s.pushArray vs.length = some { s with stack := .value (.array vs) :: base } := by
  have hlen : ((vs.map StackItem.value).reverse).length = vs.length := by simp
  have htake : s.stack.take vs.length = (vs.map .value).reverse := by rw [h, List.take_left' hlen]
  have hdrop : s.stack.drop vs.length = base := by rw [h, List.drop_left' hlen]
  have hle : ¬s.stack.length < vs.length := by
    rw [h, List.length_append, hlen]
    omega
  rw [ValueStack.pushArray, if_neg hle, htake, hdrop, List.reverse_reverse, elements_values, Option.map_some]

/-- The items of members on the value stack, the first one first. -/
def memberItems (ms : Members) : List StackItem := ms.flatMap fun kv => [.key kv.1, .value kv.2]

theorem length_memberItems (ms : Members) : (memberItems ms).length = ms.length * 2 := by
  induction ms with
  | nil => rfl
  | cons kv ms ih =>
      rw [memberItems, List.flatMap_cons, List.length_append, ← memberItems, ih, List.length_cons]
      simp only [List.length_cons, List.length_nil]
      omega

theorem members_memberItems (ms o : Members) :
    ValueStack.members o (memberItems ms) = some (ms.foldl (fun o kv => o.insertOrAssign kv.1 kv.2) o) := by
  induction ms generalizing o with
  | nil => rfl
  | cons kv ms ih => exact ih _

theorem insertOrAssign_new {o : Members} {k : Bytes} (v : Value) (h : k ∉ o.map Prod.fst) :
    o.insertOrAssign k v = o ++ [(k, v)] := by
  induction o with
  | nil => rfl
  | cons kw o ih =>
      obtain ⟨hne, hmem⟩ := not_or.1 (List.mem_cons.not.1 h)
      rw [Members.insertOrAssign, if_neg (Ne.symm hne), ih hmem, List.cons_append]

theorem insertOrAssign_old {o : Members} {k : Bytes} (v : Value) (hnodup : (o.map Prod.fst).Nodup)
    (h : k ∈ o.map Prod.fst) : o.insertOrAssign k v = o.map fun kw => (kw.1, if kw.1 = k then v else kw.2) := by
  induction o with
  | nil => cases h
  | cons kw o ih =>
      obtain ⟨hfresh, hnodup⟩ := List.nodup_cons.1 hnodup
      rw [Members.insertOrAssign, List.map_cons]
      by_cases hk : kw.1 = k
      · have hsame : (o.map fun kw' => (kw'.1, if kw'.1 = k then v else kw'.2)) = o := by
          refine (List.map_congr_left fun kw' hkw' => ?_).trans (List.map_id o)
          have hne : kw'.1 ≠ k := fun heq => hfresh (List.mem_map.2 ⟨kw', hkw', heq.trans hk.symm⟩)
          rw [if_neg hne]
          rfl
        rw [if_pos hk, if_pos hk, hsame]
      · have hmem : k ∈ o.map Prod.fst := by
          rcases List.mem_cons.1 h with heq | hmem
          · exact absurd heq.symm hk
          · exact hmem
        rw [if_neg hk, if_neg hk, ih hnodup hmem]

theorem insertOrAssign_keys {o : Members} {k : Bytes} (v : Value) (hnodup : (o.map Prod.fst).Nodup) :
    ((o.insertOrAssign k v).map Prod.fst).Nodup := by
  by_cases h : k ∈ o.map Prod.fst
  · rw [insertOrAssign_old v hnodup h, List.map_map]
    exact hnodup
  · rw [insertOrAssign_new v h, List.map_append]
    exact List.nodup_append.2 ⟨hnodup, by simp, fun a ha b hb => by
      obtain rfl := List.mem_singleton.1 hb
      exact fun heq => h (heq ▸ ha)⟩

/-- What is assigned behind an object: its own members get the last values, and the other keys come behind them. -/
theorem foldl_insertOrAssign (ms : Members) {o : Members} (hnodup : (o.map Prod.fst).Nodup) :
    ms.foldl (fun o kv => o.insertOrAssign kv.1 kv.2) o =
      (o.map fun kv => (kv.1, (lastValue ms kv.1).getD kv.2)) ++
        (uniqueMembers ms).filter fun kv => kv.1 ∉ o.map Prod.fst := by
  induction ms generalizing o with
  | nil => simp [lastValue, uniqueMembers]
  | cons kv ms ih =>
      obtain ⟨k, v⟩ := kv
      have hlast : ∀ key w, (lastValue ((k, v) :: ms) key).getD w =
          (lastValue ms key).getD (if k = key then v else w) := by
        intro key w
        rw [lastValue]
        cases lastValue ms key with
        | some u => rfl
        | none => by_cases hk : k = key <;> simp [hk]
      rw [List.foldl_cons, ih (insertOrAssign_keys v hnodup), uniqueMembers]
      by_cases h : k ∈ o.map Prod.fst
      · have hkeys : (o.insertOrAssign k v).map Prod.fst = o.map Prod.fst := by
          rw [insertOrAssign_old v hnodup h, List.map_map]
          rfl
        rw [hkeys, insertOrAssign_old v hnodup h, List.map_map, List.filter_cons_of_neg (by simp [h]), List.filter_filter]
        congr 1
        · refine List.map_congr_left fun kw _ => ?_
          simp only [Function.comp_apply, hlast, eq_comm]
        · refine List.filter_congr fun kw _ => ?_
          by_cases hk : kw.1 = k
          · simp [hk, h]
          · simp [hk]
      · rw [insertOrAssign_new v h, List.filter_cons_of_pos (by simpa using h), List.filter_filter, List.map_append,
          List.map_append, List.append_assoc]
        congr 1
        · refine List.map_congr_left fun kw hkw => ?_
          have hne : k ≠ kw.1 := fun heq => h (List.mem_map.2 ⟨kw, hkw, heq.symm⟩)
          rw [hlast, if_neg hne]
        · rw [List.map_singleton, List.singleton_append]
          congr 1
          refine List.filter_congr fun kw _ => ?_
          by_cases hk : kw.1 = k <;> simp [hk]

theorem pushObject_members {s : ValueStack} {ms : Members} {base : List StackItem}
    (h : s.stack = (memberItems ms).reverse ++ base) :
    s.pushObject ms.length = some { s with stack := .value (.object (uniqueMembers ms)) :: base } := by
  have hlen : ((memberItems ms).reverse).length = ms.length * 2 := by rw [List.length_reverse, length_memberItems]
  have htake : s.stack.take (ms.length * 2) = (memberItems ms).reverse := by rw [h, List.take_left' hlen]
  have hdrop : s.stack.drop (ms.length * 2) = base := by rw [h, List.drop_left' hlen]
  have hle : ¬s.stack.length < ms.length * 2 := by
    rw [h, List.length_append, hlen]
    omega
  have hfold := @foldl_insertOrAssign ms [] List.nodup_nil
  simp only [List.map_nil, List.nil_append, List.not_mem_nil, not_false_eq_true, decide_true, List.filter_true] at hfold
  rw [ValueStack.pushObject, if_neg hle, htake, hdrop, List.reverse_reverse, members_memberItems, hfold, Option.map_some]

/-! ## Brackets and commas -/

theorem Clean.pushed {p : Parser} (h : Clean p) (v : Value) : Clean (p.pushed v) :=
  ⟨h.reader, h.esc, h.numberText, h.chars, h.state⟩

theorem Clean.onto {p : Parser} (h : Clean p) (stack : List Item) : Clean { p with stack } :=
  ⟨h.reader, h.esc, h.numberText, h.chars, h.state⟩

/-- The parser behind an array or an object: `v` is in the place of what it was built from. -/
def Parser.closed (p : Parser) (v : Value) (base : List StackItem) (stack : List Item) : Parser :=
  { p with handler := { p.handler with stack := .value v :: base }, stack }

theorem run_closeArray {p : Parser} {stack : List Item} {step : ArrayStep} {vs : List Value} {base : List StackItem}
    (hclean : Clean p) (hstack : p.stack = .array vs.length step :: stack) (hstep : step ≠ .mustParseValue)
    (hvalues : p.handler.stack = (vs.map .value).reverse ++ base) (rest : Bytes) :
    run toDouble p (0x5d :: rest) = run toDouble (p.closed (.array vs) base stack) rest := by
  have ht : turn toDouble p [] (0x5d :: rest) = ⟨p.closed (.array vs) base stack, [], rest, none⟩ := by
    simp [turn, hstack, parseArray, withCodepoint_ascii hclean.reader (show (0x5d : UInt8) < 0x80 by decide),
      arrayCodepoint, hstep, pushArray_values hvalues, Act.accept, Parser.closed]
  rw [run_step hclean.reader hclean.state (List.cons_ne_nil _ _) ht, flush_nil]

theorem run_commaArray {p : Parser} {stack : List Item} {n : Nat} (hclean : Clean p)
    (hstack : p.stack = .array n .parseSep :: stack) (rest : Bytes) :
    run toDouble p (0x2c :: rest) = run toDouble { p with stack := .array n .mustParseValue :: stack } rest := by
  have ht : turn toDouble p [] (0x2c :: rest) = ⟨{ p with stack := .array n .mustParseValue :: stack }, [], rest, none⟩ := by
    simp [turn, hstack, parseArray, withCodepoint_ascii hclean.reader (show (0x2c : UInt8) < 0x80 by decide),
      arrayCodepoint, isWhiteSpace, Act.accept]
  rw [run_step hclean.reader hclean.state (List.cons_ne_nil _ _) ht, flush_nil]

theorem run_closeObject {p : Parser} {stack : List Item} {step : ObjectStep} {ms : Members} {base : List StackItem}
    (hclean : Clean p) (hstack : p.stack = .object ms.length step :: stack)
    (hstep : step = .mayParseKey ∨ step = .parseSep) (hmembers : p.handler.stack = (memberItems ms).reverse ++ base)
    (rest : Bytes) :
    run toDouble p (0x7d :: rest) = run toDouble (p.closed (.object (uniqueMembers ms)) base stack) rest := by
  have ht : turn toDouble p [] (0x7d :: rest) = ⟨p.closed (.object (uniqueMembers ms)) base stack, [], rest, none⟩ := by
    rcases hstep with rfl | rfl <;>
      simp [turn, hstack, parseObject, withCodepoint_ascii hclean.reader (show (0x7d : UInt8) < 0x80 by decide),
        objectCodepoint, pushObject_members hmembers, Act.accept, Parser.closed]
  rw [run_step hclean.reader hclean.state (List.cons_ne_nil _ _) ht, flush_nil]

theorem run_commaObject {p : Parser} {stack : List Item} {n : Nat} (hclean : Clean p)
    (hstack : p.stack = .object n .parseSep :: stack) (rest : Bytes) :
    run toDouble p (0x2c :: rest) = run toDouble { p with stack := .object n .mustParseKey :: stack } rest := by
  have ht : turn toDouble p [] (0x2c :: rest) = ⟨{ p with stack := .object n .mustParseKey :: stack }, [], rest, none⟩ := by
    simp [turn, hstack, parseObject, withCodepoint_ascii hclean.reader (show (0x2c : UInt8) < 0x80 by decide),
      objectCodepoint, isWhiteSpace, Act.accept]
  rw [run_step hclean.reader hclean.state (List.cons_ne_nil _ _) ht, flush_nil]

/-! ## The induction -/

/-- What is behind a value in an array or an object. -/
def Delimited (rest : Bytes) : Prop := ∃ b more, rest = b :: more ∧ IsDelimiter b

theorem delimited_white {ws rest : Bytes} (hws : WhiteSpace ws) (hrest : Delimited rest) : Delimited (ws ++ rest) := by
  cases ws with
  | nil => exact hrest
  | cons b ws => exact ⟨b, ws ++ rest, rfl, .inl (hws b List.mem_cons_self)⟩

/-- What the parser makes of the text of a phrase. -/
def Reads (toDouble : Bool → Bytes → Except ErrorCode UInt64) (t : Bytes) : Phrase → Prop
  | .value j => ∀ {p p' : Parser} (rest : Bytes), Awaits toDouble p p' → j.NotNumber ∨ Delimited rest →
      run toDouble p (t ++ rest) = run toDouble (p'.pushed j.value) rest
  | .elements js => ∀ {p : Parser} {step : ArrayStep} {stack : List Item} {vs : List Value} {base : List StackItem}
      (rest : Bytes), Clean p → p.stack = .array vs.length step :: stack → step ≠ .parseSep →
      p.handler.stack = (vs.map .value).reverse ++ base →
      run toDouble p (t ++ rest) = run toDouble (p.closed (.array (vs ++ Meaning.values js)) base stack) rest
  | .members ms => ∀ {p : Parser} {step : ObjectStep} {stack : List Item} {done : Members} {base : List StackItem}
      (rest : Bytes), Clean p → p.stack = .object done.length step :: stack →
      step = .mayParseKey ∨ step = .mustParseKey → p.handler.stack = (memberItems done).reverse ++ base →
      run toDouble p (t ++ rest) =
        run toDouble (p.closed (.object (uniqueMembers (done ++ Meaning.memberValues ms))) base stack) rest

/-- An element of an array, up to the separator. -/
theorem run_element {p : Parser} {step : ArrayStep} {stack : List Item} {n : Nat} {ws t ws' : Bytes} {j : Meaning}
    (hclean : Clean p) (hstack : p.stack = .array n step :: stack) (hstep : step ≠ .parseSep) (hws : WhiteSpace ws)
    (hvalue : Reads toDouble t (.value j)) (hws' : WhiteSpace ws') {b : UInt8} (hb : IsDelimiter b) (rest : Bytes) :
    run toDouble p (ws ++ (t ++ (ws' ++ b :: rest))) =
      run toDouble ({ p with stack := .array (n + 1) .parseSep :: stack }.pushed j.value) (b :: rest) := by
  have hdelimited := delimited_white hws' ⟨b, rest, rfl, hb⟩
  have hclean' := (hclean.onto (.array (n + 1) .parseSep :: stack)).pushed j.value
  rw [run_white hclean (by simp [SkipsWhite, hstack]) hws, hvalue _ (awaits_array hclean hstack hstep) (.inr hdelimited),
    run_white hclean' trivial hws']

/-- A member of an object, up to the separator. -/
theorem run_member {p : Parser} {step : ObjectStep} {stack : List Item} {n : Nat} {ws k ws₁ ws₂ t ws₃ : Bytes}
    {key : List Char} {j : Meaning} (hclean : Clean p) (hstack : p.stack = .object n step :: stack)
    (hstep : step = .mayParseKey ∨ step = .mustParseKey) (hws : WhiteSpace ws) (hkey : StringText k key)
    (hws₁ : WhiteSpace ws₁) (hws₂ : WhiteSpace ws₂) (hvalue : Reads toDouble t (.value j)) (hws₃ : WhiteSpace ws₃)
    {b : UInt8} (hb : IsDelimiter b) (rest : Bytes) :
    run toDouble p (ws ++ 0x22 :: (k ++ 0x22 :: (ws₁ ++ 0x3a :: (ws₂ ++ (t ++ (ws₃ ++ b :: rest)))))) =
      run toDouble ((p.keyed (utf8 key) (.object (n + 1) .parseSep :: stack)).pushed j.value) (b :: rest) := by
  have hdelimited := delimited_white hws₃ ⟨b, rest, rfl, hb⟩
  have hkeyed := hclean.keyed (utf8 key) (.object (n + 1) .parseValue :: stack)
  have hclean' := (hclean.keyed (utf8 key) (.object (n + 1) .parseSep :: stack)).pushed j.value
  rw [run_white hclean (by simp [SkipsWhite, hstack]) hws, run_key hclean hstack hstep hkey hws₁,
    run_white hkeyed trivial hws₂, hvalue _ (awaits_object hkeyed rfl) (.inr hdelimited)]
  exact run_white hclean' trivial hws₃ (b :: rest)

theorem reads_of_text {ph : Phrase} {t : Bytes} (h : Text ph t) : Reads toDouble t ph := by
  induction h with
  | null => exact fun rest hawaits _ => by rw [hawaits.run_null]; rfl
  | true => exact fun rest hawaits _ => hawaits.run_bool true rest
  | false => exact fun rest hawaits _ => hawaits.run_bool false rest
  | int ht hrange =>
      rintro p p' rest hawaits (hnot | ⟨b, more, rfl, hb⟩)
      · exact hnot.elim
      · exact hawaits.run_int ht hrange hb more
  | string hs =>
      intro p p' rest hawaits _
      simpa [Meaning.value] using hawaits.run_string hs rest
  | @emptyArray ws hws =>
      intro p p' rest hawaits _
      have hopen := hawaits.clean'.onto (.array 0 .mayParseValue :: p'.stack)
      have hclose := @run_closeArray toDouble _ p'.stack .mayParseValue [] p'.handler.stack hopen rfl (by simp) rfl rest
      rw [List.cons_append, List.append_assoc, hawaits.run_start (by decide) rfl, run_white hopen trivial hws]
      exact hclose
  | @array t js _ ih =>
      intro p p' rest hawaits _
      have hopen := hawaits.clean'.onto (.array 0 .mayParseValue :: p'.stack)
      have hread := @ih _ .mayParseValue p'.stack [] p'.handler.stack rest hopen rfl (by simp) rfl
      rw [List.nil_append] at hread
      rw [List.cons_append, hawaits.run_start (by decide) rfl, Meaning.value]
      exact hread
  | @emptyObject ws hws =>
      intro p p' rest hawaits _
      have hopen := hawaits.clean'.onto (.object 0 .mayParseKey :: p'.stack)
      have hclose := @run_closeObject toDouble _ p'.stack .mayParseKey [] p'.handler.stack hopen rfl (.inl rfl) rfl rest
      rw [List.cons_append, List.append_assoc, hawaits.run_start (by decide) rfl, run_white hopen trivial hws]
      exact hclose
  | @object t ms _ ih =>
      intro p p' rest hawaits _
      have hopen := hawaits.clean'.onto (.object 0 .mayParseKey :: p'.stack)
      have hread := @ih _ .mayParseKey p'.stack [] p'.handler.stack rest hopen rfl (.inl rfl) rfl
      rw [List.nil_append] at hread
      rw [List.cons_append, hawaits.run_start (by decide) rfl, Meaning.value]
      exact hread
  | @lastElement ws t ws' j hws _ hws' ih =>
      intro p step stack vs base rest hclean hstack hstep hvalues
      have hitem := @run_element toDouble p step stack _ ws t ws' j hclean hstack hstep hws ih hws' 0x5d (.inr (.inr (.inl rfl)))
        rest
      have hclean' := (hclean.onto (.array (vs.length + 1) .parseSep :: stack)).pushed j.value
      have hclose := @run_closeArray toDouble _ stack .parseSep (vs ++ [j.value]) base hclean' (by simp [Parser.pushed])
        (by simp) (by simp [Parser.pushed, ValueStack.pushValue, hvalues]) rest
      simp only [List.append_assoc, List.cons_append, List.nil_append]
      rw [hitem, hclose]
      rfl
  | @element ws t ws' ts j js hws _ hws' _ ih ihs =>
      intro p step stack vs base rest hclean hstack hstep hvalues
      have hitem := @run_element toDouble p step stack _ ws t ws' j hclean hstack hstep hws ih hws' 0x2c (.inr (.inl rfl))
        (ts ++ rest)
      have hclean' := (hclean.onto (.array (vs.length + 1) .parseSep :: stack)).pushed j.value
      have hclean'' := hclean'.onto (.array (vs.length + 1) .mustParseValue :: stack)
      have hcomma := @run_commaArray toDouble _ stack _ hclean' rfl (ts ++ rest)
      have hread := @ihs _ .mustParseValue stack (vs ++ [j.value]) base rest hclean'' (by simp) (by simp)
        (by simp [Parser.pushed, ValueStack.pushValue, hvalues])
      simp only [List.append_assoc, List.cons_append]
      rw [hitem, hcomma, hread]
      simp [Parser.closed, Parser.pushed, ValueStack.pushValue, Meaning.values]
  | @lastMember ws k ws₁ ws₂ t ws₃ key j hws hkey hws₁ hws₂ _ hws₃ ih =>
      intro p step stack done base rest hclean hstack hstep hmembers
      have hitem := @run_member toDouble p step stack _ ws k ws₁ ws₂ t ws₃ key j hclean hstack hstep hws hkey hws₁ hws₂ ih
        hws₃ 0x7d (.inr (.inr (.inr rfl))) rest
      have hclean' := (hclean.keyed (utf8 key) (.object (done.length + 1) .parseSep :: stack)).pushed j.value
      have hclose := @run_closeObject toDouble _ stack .parseSep (done ++ [(utf8 key, j.value)]) base hclean'
        (by simp [Parser.pushed, Parser.keyed]) (.inr rfl)
        (by simp [Parser.pushed, Parser.keyed, ValueStack.pushValue, hmembers, memberItems]) rest
      simp only [List.append_assoc, List.cons_append, List.nil_append]
      rw [hitem, hclose]
      rfl
  | @member ws k ws₁ ws₂ t ws₃ ts key j ms hws hkey hws₁ hws₂ _ hws₃ _ ih ihs =>
      intro p step stack done base rest hclean hstack hstep hmembers
      have hitem := @run_member toDouble p step stack _ ws k ws₁ ws₂ t ws₃ key j hclean hstack hstep hws hkey hws₁ hws₂ ih
        hws₃ 0x2c (.inr (.inl rfl)) (ts ++ rest)
      have hclean' := (hclean.keyed (utf8 key) (.object (done.length + 1) .parseSep :: stack)).pushed j.value
      have hclean'' := hclean'.onto (.object (done.length + 1) .mustParseKey :: stack)
      have hcomma := @run_commaObject toDouble _ stack _ hclean' rfl (ts ++ rest)
      have hread := @ihs _ .mustParseKey stack (done ++ [(utf8 key, j.value)]) base rest hclean'' (by simp) (.inr rfl)
        (by simp [Parser.pushed, Parser.keyed, ValueStack.pushValue, hmembers, memberItems])
      simp only [List.append_assoc, List.cons_append]
      rw [hitem, hcomma, hread]
      simp [Parser.closed, Parser.pushed, Parser.keyed, ValueStack.pushValue, Meaning.memberValues]

end Rad.Json
