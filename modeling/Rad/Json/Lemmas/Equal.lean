import Mathlib.Data.List.Perm.Subperm
import Rad.Json.Lemmas.ReadBack

/-!
# Equality with what is read back

What is read back for a value is equal to it exactly when each of its strings and keys is read back as it is.
-/

namespace Rad.Json

/-! ## `value::equal` -/

theorem equal_array {a b : List Value} :
    Value.equal (.array a) (.array b) = true ↔ a.length = b.length ∧ ∀ p ∈ a.zip b, Value.equal p.1 p.2 = true := by
  rw [Value.equal]
  simp [List.all_eq_true]

theorem equal_object {a b : Members} :
    Value.equal (.object a) (.object b) = true ↔
      a.length = b.length ∧ ∀ kv ∈ a, ∃ w, Members.find b kv.1 = some w ∧ Value.equal w kv.2 = true := by
  rw [Value.equal, Bool.and_eq_true, beq_iff_eq, List.all_eq_true]
  refine and_congr_right fun _ => ⟨fun h kv hkv => ?_, fun h kv _ => ?_⟩
  · have hkv' := h ⟨kv, hkv⟩ (List.mem_attach _ _)
    split at hkv'
    · cases hkv'
    · exact ⟨_, ‹_›, hkv'⟩
  · obtain ⟨w, hw, hequal⟩ := h kv.1 kv.2
    split
    · rename_i hnone
      rw [hw] at hnone
      cases hnone
    · rename_i w' hw'
      obtain rfl := Option.some.inj (hw.symm.trans hw')
      exact hequal

theorem zip_map_self {α β : Type} (f : α → β) (l : List α) : (l.map f).zip l = l.map fun x => (f x, x) := by
  induction l with
  | nil => rfl
  | cons x l ih => rw [List.map_cons, List.zip_cons_cons, ih, List.map_cons]

theorem zip_self_map {α β : Type} (f : α → β) (l : List α) : l.zip (l.map f) = l.map fun x => (x, f x) := by
  induction l with
  | nil => rfl
  | cons x l ih => rw [List.map_cons, List.zip_cons_cons, ih, List.map_cons]

/-! ## Members -/

theorem find_of_mem {o : Members} {k : Bytes} {v : Value} (hnodup : (o.map Prod.fst).Nodup) (h : (k, v) ∈ o) :
    o.find k = some v := by
  induction o with
  | nil => cases h
  | cons kw o ih =>
      obtain ⟨hfresh, hnodup⟩ := List.nodup_cons.1 hnodup
      rcases List.mem_cons.1 h with rfl | hmem
      · exact if_pos rfl
      · have hne : kw.1 ≠ k := fun heq => hfresh (List.mem_map.2 ⟨_, hmem, heq.symm⟩)
        rw [Members.find, if_neg hne, ih hnodup hmem]

theorem lastValue_fresh {ms : Members} {k : Bytes} (h : k ∉ ms.map Prod.fst) : lastValue ms k = none := by
  induction ms with
  | nil => rfl
  | cons kv ms ih =>
      obtain ⟨hne, hmem⟩ := not_or.1 (List.mem_cons.not.1 h)
      rw [lastValue, ih hmem, if_neg (Ne.symm hne)]
      rfl

theorem uniqueMembers_distinct {ms : Members} (h : (ms.map Prod.fst).Nodup) : uniqueMembers ms = ms := by
  induction ms with
  | nil => rfl
  | cons kv ms ih =>
      obtain ⟨hfresh, hnodup⟩ := List.nodup_cons.1 h
      rw [uniqueMembers, lastValue_fresh hfresh, ih hnodup, List.filter_eq_self.2]
      · rfl
      · intro kw hkw
        simpa using fun heq : kw.1 = kv.1 => hfresh (List.mem_map.2 ⟨kw, hkw, heq⟩)

theorem uniqueMembers_keys (ms : Members) :
    ((uniqueMembers ms).map Prod.fst).Nodup ∧ ∀ k, k ∈ (uniqueMembers ms).map Prod.fst → k ∈ ms.map Prod.fst := by
  induction ms with
  | nil => exact ⟨List.nodup_nil, nofun⟩
  | cons kv ms ih =>
      obtain ⟨hnodup, hsubset⟩ := ih
      have hfilter : ((uniqueMembers ms).filter fun kw => kw.1 ≠ kv.1).Sublist (uniqueMembers ms) := List.filter_sublist
      rw [uniqueMembers, List.map_cons]
      refine ⟨List.nodup_cons.2 ⟨?_, hnodup.sublist (hfilter.map _)⟩, ?_⟩
      · intro hmem
        obtain ⟨kw, hkw, heq⟩ := List.mem_map.1 hmem
        have := (List.mem_filter.1 hkw).2
        simp [heq] at this
      · intro k hk
        rcases List.mem_cons.1 hk with rfl | hk
        · exact List.mem_cons_self
        · exact List.mem_cons_of_mem _ (hsubset k ((hfilter.map _).subset hk))

/-! ## Strings -/

theorem charReadBack_legible (c : Char) : Legible (String.utf8EncodeChar (charReadBack c)) := by
  rcases Nat.lt_or_ge c.toNat 0x80 with hc | hc
  · have hall : ∀ n < 0x80, Legible (String.utf8EncodeChar (charReadBack (Char.ofNat n))) := by decide
    have h := hall c.toNat hc
    rwa [Char.ofNat_toNat] at h
  · rw [charReadBack_high hc]
    intro b hb hmem
    have hlow : ∀ b ∈ misplaced, ¬(0x80 : UInt8) ≤ b := @of_decide_eq_true _ (List.decidableBAll _ _) rfl
    exact hlow b hmem (utf8EncodeChar_high hc b hb)

/-- None of the misplaced characters is ever read back. -/
theorem stringReadBack_legible (s : Bytes) : Legible (utf8 (stringReadBack s)) := by
  intro b hb
  obtain ⟨d, hd, hb⟩ := List.mem_flatMap.1 hb
  obtain ⟨c, -, rfl⟩ := List.mem_map.1 hd
  exact charReadBack_legible c b hb

theorem charReadBack_of_legible {c : Char} (h : Legible (String.utf8EncodeChar c)) : charReadBack c = c := by
  rw [charReadBack, if_neg]
  rintro ⟨hlt, hmem⟩
  rw [utf8EncodeChar_ascii (by omega)] at h
  exact h _ List.mem_cons_self hmem

theorem stringReadBack_of_legible {s : Bytes} (hs : ∃ cs, s = utf8 cs) (h : Legible s) : utf8 (stringReadBack s) = s := by
  obtain ⟨cs, rfl⟩ := hs
  have hchars : (chars (utf8 cs)).map charReadBack = chars (utf8 cs) := by
    refine (List.map_congr_left fun c hc => ?_).trans (List.map_id _)
    refine charReadBack_of_legible fun b hb => h b ?_
    rw [← utf8_chars]
    exact List.mem_flatMap.2 ⟨c, hc, hb⟩
  rw [stringReadBack, hchars, utf8_chars]

/-! ## Values -/

theorem values_readBack (a : List Value) : Meaning.values (Value.elementsReadBack a) = a.map fun v => v.readBack.value := by
  induction a with
  | nil => rfl
  | cons v a ih => rw [Value.elementsReadBack, Meaning.values, ih, List.map_cons]

/-- The member that is read back. -/
noncomputable def memberReadBack (kv : Bytes × Value) : Bytes × Value := (utf8 (stringReadBack kv.1), kv.2.readBack.value)

theorem memberValues_readBack (o : Members) : Meaning.memberValues (Value.membersReadBack o) = o.map memberReadBack := by
  induction o with
  | nil => rfl
  | cons kv o ih =>
      rw [Value.membersReadBack, Meaning.memberValues, ih, List.map_cons]
      rfl

theorem stringsOfElements_eq (a : List Value) : Value.stringsOfElements a = a.flatMap Value.strings := by
  induction a with
  | nil => rfl
  | cons v a ih => rw [Value.stringsOfElements, ih, List.flatMap_cons]

theorem stringsOfMembers_eq (o : Members) :
    Value.stringsOfMembers o = o.flatMap fun kv => kv.1 :: kv.2.strings := by
  induction o with
  | nil => rfl
  | cons kv o ih => rw [Value.stringsOfMembers, ih, List.flatMap_cons, List.cons_append]

theorem legible_array {a : List Value} : (Value.array a).Legible ↔ ∀ v ∈ a, v.Legible := by
  simp only [Value.Legible, Value.strings, stringsOfElements_eq, List.mem_flatMap]
  exact ⟨fun h v hv s hs => h s ⟨v, hv, hs⟩, fun h s ⟨v, hv, hs⟩ => h v hv s hs⟩

theorem legible_object {o : Members} : (Value.object o).Legible ↔ ∀ kv ∈ o, Json.Legible kv.1 ∧ kv.2.Legible := by
  simp only [Value.Legible, Value.strings, stringsOfMembers_eq, List.mem_flatMap, List.mem_cons]
  constructor
  · exact fun h kv hkv => ⟨h _ ⟨kv, hkv, .inl rfl⟩, fun s hs => h s ⟨kv, hkv, .inr hs⟩⟩
  · rintro h s ⟨kv, hkv, rfl | hs⟩
    · exact (h kv hkv).1
    · exact (h kv hkv).2 s hs

/-- An integer that is not negative is read back as an unsigned one. -/
theorem equal_int64 (i : Int64) :
    Value.equal (Meaning.int i.toInt).value (.int64 i) = true ∧ Value.equal (.int64 i) (Meaning.int i.toInt).value = true := by
  rw [Meaning.value]
  split
  · rename_i hpos
    have hle : (0 : Int64) ≤ i := by
      rw [Int64.le_iff_toInt_le]
      exact hpos
    have hsame : i.toUInt64 = UInt64.ofNat i.toInt.toNat := by
      have hnat : i.toInt.toNat = i.toUInt64.toNat := by
        have hint : i.toInt = i.toUInt64.toBitVec.toInt := rfl
        have hlt := i.toUInt64.toNat_lt
        have hbits : i.toUInt64.toBitVec.toNat = i.toUInt64.toNat := rfl
        rw [hint, BitVec.toInt_eq_toNat_cond] at hpos ⊢
        split <;> omega
      rw [hnat, UInt64.ofNat_toNat]
    simp [Value.equal, hle, hsame]
  · simp [Value.equal]

theorem equal_uint64 (u : UInt64) :
    Value.equal (Meaning.int u.toNat).value (.uint64 u) = true ∧
    Value.equal (.uint64 u) (Meaning.int u.toNat).value = true := by
  simp [Meaning.value, Value.equal]

theorem legible_of_readBack {o : Members} {k : Bytes}
    (h : k ∈ (uniqueMembers (o.map memberReadBack)).map Prod.fst) : Json.Legible k := by
  have hmem := (uniqueMembers_keys _).2 k h
  rw [List.map_map] at hmem
  obtain ⟨kv, -, rfl⟩ := List.mem_map.1 hmem
  exact stringReadBack_legible kv.1

/-- As many keys as there were, all of them among those that there were. -/
theorem legible_keys {o : Members} (hlen : (uniqueMembers (o.map memberReadBack)).length = o.length)
    (hkeys : ∀ kv ∈ uniqueMembers (o.map memberReadBack), kv.1 ∈ o.map Prod.fst) : ∀ kv ∈ o, Json.Legible kv.1 := by
  intro kv hkv
  have hsubset : (uniqueMembers (o.map memberReadBack)).map Prod.fst ⊆ o.map Prod.fst := by
    intro k hk
    obtain ⟨kw, hkw, rfl⟩ := List.mem_map.1 hk
    exact hkeys kw hkw
  have hperm := (List.subperm_of_subset (uniqueMembers_keys _).1 hsubset).perm_of_length_le
    (by rw [List.length_map, List.length_map, hlen])
  exact legible_of_readBack (hperm.mem_iff.2 (List.mem_map.2 ⟨kv, hkv, rfl⟩))

theorem distinct_readBack {o : Members} (hkeys : ∀ kv ∈ o, ∃ s, kv.1 = utf8 s) (hnodup : (o.map Prod.fst).Nodup)
    (h : ∀ kv ∈ o, Json.Legible kv.1) :
    uniqueMembers (o.map memberReadBack) = o.map fun kv => (kv.1, kv.2.readBack.value) := by
  have hmap : o.map memberReadBack = o.map fun kv => (kv.1, kv.2.readBack.value) :=
    List.map_congr_left fun kv hkv => by rw [memberReadBack, stringReadBack_of_legible (hkeys kv hkv) (h kv hkv)]
  rw [hmap]
  refine uniqueMembers_distinct ?_
  rwa [List.map_map]

/-- Both ways round, since a member of an object is compared the other way round. -/
theorem equal_readBack {v : Value} (hv : v.Plain) :
    (Value.equal v.readBack.value v = true ↔ v.Legible) ∧ (Value.equal v v.readBack.value = true ↔ v.Legible) := by
  induction hv with
  | null => simp [Value.readBack, Meaning.value, Value.equal, Value.Legible, Value.strings]
  | bool b => simp [Value.readBack, Meaning.value, Value.equal, Value.Legible, Value.strings]
  | int64 i =>
      have hlegible : (Value.int64 i).Legible := (fun _ h => by cases h)
      exact ⟨iff_of_true (equal_int64 i).1 hlegible, iff_of_true (equal_int64 i).2 hlegible⟩
  | uint64 u =>
      have hlegible : (Value.uint64 u).Legible := (fun _ h => by cases h)
      exact ⟨iff_of_true (equal_uint64 u).1 hlegible, iff_of_true (equal_uint64 u).2 hlegible⟩
  | string s =>
      have hiff : utf8 (stringReadBack (utf8 s)) = utf8 s ↔ (Value.string (utf8 s)).Legible := by
        simp only [Value.Legible, Value.strings, List.mem_singleton, forall_eq]
        exact ⟨fun h => h ▸ stringReadBack_legible _, stringReadBack_of_legible ⟨s, rfl⟩⟩
      simp only [Value.readBack, Meaning.value, Value.equal, beq_iff_eq, hiff, eq_comm (a := utf8 s), and_self]
  | @array a _ ih =>
      simp only [Value.readBack, Meaning.value, values_readBack, equal_array, List.length_map, zip_map_self, zip_self_map,
        List.mem_map, forall_exists_index, and_imp, forall_apply_eq_imp_iff₂, true_and, legible_array]
      exact ⟨forall₂_congr fun v hv => (ih v hv).1, forall₂_congr fun v hv => (ih v hv).2⟩
  | @object o hkeys hnodup _ ih =>
      -- either way round, the keys that are read back are those of the object, so they are legible
      have hdistinct := distinct_readBack hkeys hnodup
      have hnodup' : ((o.map fun kv => (kv.1, kv.2.readBack.value)).map Prod.fst).Nodup := by rwa [List.map_map]
      simp only [Value.readBack, Meaning.value, memberValues_readBack, equal_object, legible_object]
      constructor
      · constructor
        · rintro ⟨hlen, hall⟩
          have hkeys' := legible_keys hlen fun kv hkv => by
            obtain ⟨w, hw, -⟩ := hall kv hkv
            exact List.mem_map.2 ⟨_, Members.find_mem hw, rfl⟩
          rw [hdistinct hkeys'] at hall
          refine fun kv hkv => ⟨hkeys' kv hkv, (ih kv hkv).2.1 ?_⟩
          obtain ⟨w, hw, hequal⟩ := hall _ (List.mem_map.2 ⟨kv, hkv, rfl⟩)
          obtain rfl := Option.some.inj ((find_of_mem hnodup hkv).symm.trans hw)
          exact hequal
        · intro h
          rw [hdistinct fun kv hkv => (h kv hkv).1]
          refine ⟨List.length_map _, fun kw hkw => ?_⟩
          obtain ⟨kv, hkv, rfl⟩ := List.mem_map.1 hkw
          exact ⟨kv.2, find_of_mem hnodup hkv, (ih kv hkv).2.2 (h kv hkv).2⟩
      · constructor
        · rintro ⟨-, hall⟩
          have hkeys' : ∀ kv ∈ o, Json.Legible kv.1 := fun kv hkv => by
            obtain ⟨w, hw, -⟩ := hall kv hkv
            exact legible_of_readBack (List.mem_map.2 ⟨_, Members.find_mem hw, rfl⟩)
          rw [hdistinct hkeys'] at hall
          refine fun kv hkv => ⟨hkeys' kv hkv, (ih kv hkv).1.1 ?_⟩
          obtain ⟨w, hw, hequal⟩ := hall kv hkv
          obtain rfl := Option.some.inj ((find_of_mem hnodup' (List.mem_map.2 ⟨kv, hkv, rfl⟩)).symm.trans hw)
          exact hequal
        · intro h
          rw [hdistinct fun kv hkv => (h kv hkv).1]
          exact ⟨(List.length_map _).symm, fun kv hkv =>
            ⟨_, find_of_mem hnodup' (List.mem_map.2 ⟨kv, hkv, rfl⟩), (ih kv hkv).1.2 (h kv hkv).2⟩⟩

end Rad.Json
