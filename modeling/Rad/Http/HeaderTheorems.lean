import Rad.Http.Lemmas.Headers

/-!
# Repeated fields

`insert` puts a field right behind the first one of its name. What the functions of a list show of the fields that were
inserted is compared with the fields in groups, one for each name, in the order of their insertion.
-/

namespace Rad.Http

namespace Headers

variable {fields : Headers} {name : Bytes}

/-! ## One group -/

/-- A list in which all headers of a name stand next to each other. -/
structure Grouped (hdrs : Headers) (name : Bytes) (before group behind : Headers) : Prop where
  eq : hdrs = before ++ (group ++ behind)
  before : ∀ f ∈ before, iequal f.1 name = false
  group : ∀ f ∈ group, iequal f.1 name = true
  behind : ∀ f ∈ behind, iequal f.1 name = false

namespace Grouped

variable {hdrs before group behind : Headers}

theorem find_eq (h : Grouped hdrs name before group behind) (hne : group ≠ []) : hdrs.find name = some before.length := by
  obtain ⟨f, rest, rfl⟩ := List.exists_cons_of_ne_nil hne
  rw [find, h.eq, List.findIdx?_append, List.findIdx?_eq_none_iff.2 fun f hf => by simpa using h.before f hf,
    List.cons_append, List.findIdx?_cons, if_pos (h.group f List.mem_cons_self)]
  simp

theorem find_eq_none (h : Grouped hdrs name before [] behind) : hdrs.find name = none := by
  rw [find, h.eq, List.findIdx?_eq_none_iff]
  intro f hf
  rcases List.mem_append.1 hf with hbefore | hbehind
  · exact h.before f hbefore
  · exact h.behind f hbehind

theorem takeWhile_eq (h : Grouped hdrs name before group behind) :
    (group ++ behind).takeWhile (fun header => iequal header.1 name) = group := by
  rw [List.takeWhile_append_of_pos h.group]
  cases hb : behind with
  | nil => simp
  | cons f rest => simp [h.behind f (hb ▸ List.mem_cons_self)]

theorem dropWhile_eq (h : Grouped hdrs name before group behind) :
    (group ++ behind).dropWhile (fun header => iequal header.1 name) = behind := by
  rw [List.dropWhile_append_of_pos h.group]
  cases hb : behind with
  | nil => simp
  | cons f rest => simp [h.behind f (hb ▸ List.mem_cons_self)]

theorem equalRange_eq (h : Grouped hdrs name before group behind) : hdrs.equalRange name = group := by
  unfold equalRange
  by_cases hne : group = []
  · subst hne
    rw [h.find_eq_none]
  · rw [h.find_eq hne, h.eq]
    dsimp only
    rw [List.drop_left, h.takeWhile_eq]

theorem remove_eq (h : Grouped hdrs name before group behind) : hdrs.remove name = before ++ behind := by
  unfold remove
  by_cases hne : group = []
  · subst hne
    rw [h.find_eq_none]
    exact h.eq
  · rw [h.find_eq hne, h.eq]
    dsimp only
    rw [List.take_left, List.drop_left, h.dropWhile_eq]

theorem filter_eq (h : Grouped hdrs name before group behind) : hdrs.filter (fun f => iequal f.1 name) = group := by
  rw [h.eq, List.filter_append, List.filter_append, List.filter_eq_nil_iff.2 fun f hf => by simp [h.before f hf],
    List.filter_eq_self.2 h.group, List.filter_eq_nil_iff.2 fun f hf => by simp [h.behind f hf]]
  simp

theorem filter_not_eq (h : Grouped hdrs name before group behind) :
    hdrs.filter (fun f => !iequal f.1 name) = before ++ behind := by
  rw [h.eq, List.filter_append, List.filter_append, List.filter_eq_self.2 fun f hf => by simp [h.before f hf],
    List.filter_eq_nil_iff.2 fun f hf => by simp [h.group f hf], List.filter_eq_self.2 fun f hf => by simp [h.behind f hf]]
  simp

end Grouped

/-- The group of a name as insertion in order leaves it: the first field, and the others in reverse. -/
def reversedBehind : Headers → Headers
  | [] => []
  | f :: fields => f :: fields.reverse

theorem insertAll_grouped (fields : Headers) (name : Bytes) :
    ∃ before behind, Grouped (insertAll [] fields) name before
      (reversedBehind (fields.filter fun f => iequal f.1 name)) behind := by
  induction hn : fields.length using Nat.strongRecOn generalizing fields with
  | ind n ih =>
      cases fields with
      | nil => exact ⟨[], [], rfl, by simp, by simp [reversedBehind], by simp⟩
      | cons x fields =>
          have hlt : (fields.filter (!sameName · x)).length < n := by
            have := List.length_filter_le (fun y => !sameName y x) fields
            rw [List.length_cons] at hn
            omega
          rw [insertAll_cons_eq]
          by_cases hx : iequal x.1 name = true
          · have hsame (f : Bytes × Bytes) : sameName f x = iequal f.1 name := sameName_congr (b := (name, [])) hx
            refine ⟨[], insertAll [] (fields.filter (!sameName · x)), ?_, by simp, ?_, ?_⟩
            · simp [reversedBehind, hx, hsame]
            · simp only [List.filter_cons, hx, if_true, reversedBehind, List.mem_cons, List.mem_reverse, List.mem_filter]
              rintro f (rfl | hf)
              · exact hx
              · exact hf.2
            · intro f hf
              have hf := (List.mem_filter.1 ((mem_insertAll _).1 hf)).2
              simpa [hsame] using hf
          · obtain ⟨before, behind, h⟩ := ih _ hlt (fields.filter (!sameName · x)) rfl
            have hnot (f : Bytes × Bytes) (hf : sameName f x = true) : iequal f.1 name = false := by
              rw [Bool.eq_false_iff]
              intro hname
              rw [sameName_iff] at hf
              rw [iequal_iff] at hname hx
              exact hx (hf.symm.trans hname)
            have hfilter : (fields.filter (!sameName · x)).filter (fun f => iequal f.1 name) =
                (x :: fields).filter fun f => iequal f.1 name := by
              rw [List.filter_cons, if_neg hx, List.filter_filter]
              refine List.filter_congr fun f _ => ?_
              by_cases hf : sameName f x = true
              · simp [hf, hnot f hf]
              · simp [hf]
            rw [hfilter] at h
            refine ⟨x :: ((fields.filter (sameName · x)).reverse ++ before), behind, ?_, ?_, h.group, h.behind⟩
            · rw [h.eq]
              simp
            · intro f hf
              simp only [List.mem_cons, List.mem_append, List.mem_reverse, List.mem_filter] at hf
              rcases hf with rfl | ⟨-, hf⟩ | hf
              · exact hnot f (sameName_self f)
              · exact hnot f hf
              · exact h.before f hf

/-! ## The order of the fields -/

/-- The fields that are the first ones of their names. -/
def firstOfName : Headers → Headers
  | [] => []
  | x :: fields => x :: (firstOfName fields).filter (!sameName · x)

/-- The fields in groups, one for each name: the groups in the order in which their names come first, and the fields of a
group in their order. -/
def byName (fields : Headers) : Headers := (firstOfName fields).flatMap fun x => fields.filter (sameName · x)

theorem firstOfName_filter (fields : Headers) (x : Bytes × Bytes) :
    firstOfName (fields.filter (!sameName · x)) = (firstOfName fields).filter (!sameName · x) := by
  induction fields with
  | nil => rfl
  | cons y fields ih =>
      rw [firstOfName, List.filter_cons, List.filter_cons]
      by_cases hy : sameName y x = true
      · have hsame (f : Bytes × Bytes) : sameName f y = sameName f x := sameName_congr hy
        simp only [hy, Bool.not_true, Bool.false_eq_true, if_false, ih, List.filter_filter, hsame, Bool.and_self]
      · rw [if_pos (by simp [hy]), if_pos (by simp [hy]), firstOfName, ih, List.filter_filter, List.filter_filter]
        exact congrArg (y :: ·) (List.filter_congr fun f _ => Bool.and_comm _ _)

theorem byName_cons (x : Bytes × Bytes) (fields : Headers) :
    byName (x :: fields) = x :: (fields.filter (sameName · x) ++ byName (fields.filter (!sameName · x))) := by
  have hother : (firstOfName (fields.filter (!sameName · x))).flatMap (fun y => (x :: fields).filter (sameName · y)) =
      byName (fields.filter (!sameName · x)) := by
    unfold byName
    refine List.flatMap_congr fun y hy => ?_
    rw [firstOfName_filter] at hy
    have hyx : sameName y x = false := by simpa using (List.mem_filter.1 hy).2
    have hxy : sameName x y = false := by rw [sameName, iequal_comm]; exact hyx
    rw [List.filter_cons, if_neg (by simp [hxy]), List.filter_filter]
    refine List.filter_congr fun f _ => ?_
    by_cases hf : sameName f y = true
    · have hfx : sameName f x = false := by
        rw [Bool.eq_false_iff, ne_eq, sameName_iff, sameName_iff.1 hf, ← sameName_iff]
        simp [hyx]
      simp [hf, hfx]
    · simp [hf]
  rw [byName, firstOfName, List.flatMap_cons, ← firstOfName_filter, hother, List.filter_cons, if_pos (sameName_self x),
    List.cons_append]

/-- What the functions of the list show of the fields that were inserted. -/
structure ListsInOrder (fields : Headers) : Prop where
  groups : insertAll [] fields = byName fields
  equalRange : ∀ name, (insertAll [] fields).equalRange name = fields.filter fun f => iequal f.1 name
  count : ∀ name, ((insertAll [] fields).equalRange name).length = (insertAll [] fields).count name
  remove_count : ∀ name, ((insertAll [] fields).remove name).count name = 0
  remove : ∀ name, (insertAll [] fields).remove name = (insertAll [] fields).filter fun f => !iequal f.1 name
  view : getHeadersView (insertAll [] fields) = insertAll [] fields

/-- The fields of each name that come after its first one read the same backwards. -/
def Palindromic (fields : Headers) : Prop :=
  ∀ name, (fields.filter fun f => iequal f.1 name).tail.reverse = (fields.filter fun f => iequal f.1 name).tail

theorem reversedBehind_eq_self_iff {group : Headers} : reversedBehind group = group ↔ group.tail.reverse = group.tail := by
  cases group with
  | nil => simp [reversedBehind]
  | cons f group => simp [reversedBehind]

theorem Palindromic.filter {fields : Headers} (h : Palindromic fields) (x : Bytes × Bytes) :
    Palindromic (fields.filter (!sameName · x)) := by
  intro name
  by_cases hx : iequal x.1 name = true
  · have hsame (f : Bytes × Bytes) : sameName f x = iequal f.1 name := sameName_congr (b := (name, [])) hx
    have hnone : (fields.filter (!sameName · x)).filter (fun f => iequal f.1 name) = [] := by
      simp [List.filter_filter, hsame]
    rw [hnone]
    rfl
  · have hall : (fields.filter (!sameName · x)).filter (fun f => iequal f.1 name) =
        fields.filter fun f => iequal f.1 name := by
      rw [List.filter_filter]
      refine List.filter_congr fun f _ => ?_
      by_cases hf : sameName f x = true
      · have hname : iequal f.1 name = false := by
          rw [Bool.eq_false_iff]
          intro hname
          rw [sameName_iff] at hf
          rw [iequal_iff] at hname hx
          exact hx (hf.symm.trans hname)
        simp [hf, hname]
      · simp [hf]
    rw [hall]
    exact h name

theorem Palindromic.insertAll_eq (h : Palindromic fields) : insertAll [] fields = byName fields := by
  induction hn : fields.length using Nat.strongRecOn generalizing fields with
  | ind n ih =>
      cases fields with
      | nil => rfl
      | cons x fields =>
          have hlt : (fields.filter (!sameName · x)).length < n := by
            have := List.length_filter_le (fun y => !sameName y x) fields
            rw [List.length_cons] at hn
            omega
          have hrest : Palindromic (fields.filter (!sameName · x)) := by
            have hfilter := h.filter x
            rwa [List.filter_cons, if_neg (by simp)] at hfilter
          have hfirst := h x.1
          rw [List.filter_cons, if_pos (iequal_self x.1), List.tail_cons] at hfirst
          rw [insertAll_cons_eq, byName_cons, ih _ hlt hrest rfl]
          exact congrArg (x :: · ++ _) hfirst

theorem Palindromic.getHeadersView_eq (h : Palindromic fields) :
    getHeadersView (insertAll [] fields) = insertAll [] fields := by
  refine (insertAll_eq_self_iff (insertAll [] fields)).2 fun f _ => ?_
  obtain ⟨before, behind, hgroup⟩ := insertAll_grouped fields f.1
  have hfilter : (insertAll [] fields).filter (sameName · f) = _ := hgroup.filter_eq
  rw [hfilter, reversedBehind_eq_self_iff.2 (h f.1)]
  refine ⟨⟨before, behind, ?_⟩, h f.1⟩
  rw [hgroup.eq, reversedBehind_eq_self_iff.2 (h f.1), List.append_assoc]

/-- A field is put right behind the first one of its name, so the order of a name is kept when what comes after its first
field reads the same backwards, as one or two fields do. -/
theorem listsInOrder_iff (fields : Headers) : ListsInOrder fields ↔ Palindromic fields := by
  constructor
  · intro h name
    obtain ⟨before, behind, hgroup⟩ := insertAll_grouped fields name
    have hrange := h.equalRange name
    rw [hgroup.equalRange_eq] at hrange
    exact reversedBehind_eq_self_iff.1 hrange
  · intro h
    refine ⟨h.insertAll_eq, fun name => ?_, fun name => ?_, fun name => ?_, fun name => ?_, h.getHeadersView_eq⟩
    · obtain ⟨before, behind, hgroup⟩ := insertAll_grouped fields name
      rw [hgroup.equalRange_eq, reversedBehind_eq_self_iff.2 (h name)]
    · obtain ⟨before, behind, hgroup⟩ := insertAll_grouped fields name
      rw [hgroup.equalRange_eq, count, List.countP_eq_length_filter, hgroup.filter_eq]
    · obtain ⟨before, behind, hgroup⟩ := insertAll_grouped fields name
      rw [hgroup.remove_eq, count, List.countP_eq_zero, ← hgroup.filter_not_eq]
      intro f hf
      simpa using (List.mem_filter.1 hf).2
    · obtain ⟨before, behind, hgroup⟩ := insertAll_grouped fields name
      rw [hgroup.remove_eq, hgroup.filter_not_eq]

/-- The third field of a name is put in front of the second. -/
theorem insert_reverses_third_field : ¬∀ fields, ListsInOrder fields := by
  intro h
  have hrange := (h [(ascii "Via", ascii "1"), (ascii "Via", ascii "2"), (ascii "Via", ascii "3")]).equalRange (ascii "Via")
  exact absurd hrange (by decide)

end Headers

end Rad.Http
