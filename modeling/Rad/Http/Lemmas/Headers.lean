import Rad.Http.Message

/-!
# Inserting header by header

`headers::insert` puts a repeated name right behind the first header of that name. A list that is built by inserting its
headers in order is therefore grouped by name, and in each group all headers but the first stand in reverse.
-/

namespace Rad.Http

namespace Headers

/-- Two headers have the same name. -/
def sameName (a b : Bytes × Bytes) : Bool := iequal a.1 b.1

theorem sameName_iff {a b : Bytes × Bytes} : sameName a b = true ↔ toLower a.1 = toLower b.1 := iequal_iff

@[simp] theorem sameName_self (a : Bytes × Bytes) : sameName a a = true := iequal_self a.1

theorem sameName_congr {a b c : Bytes × Bytes} (h : sameName a b = true) : sameName c a = sameName c b := by
  rw [sameName_iff] at h
  rw [Bool.eq_iff_iff, sameName_iff, sameName_iff, h]

/-- Inserts the headers of a list one after the other. -/
def insertAll (hdrs fields : Headers) : Headers := fields.foldl (fun hdrs f => hdrs.insert f.1 f.2) hdrs

@[simp] theorem insertAll_nil (hdrs : Headers) : insertAll hdrs [] = hdrs := rfl

@[simp] theorem insertAll_cons (hdrs : Headers) (f : Bytes × Bytes) (fields : Headers) :
    insertAll hdrs (f :: fields) = insertAll (hdrs.insert f.1 f.2) fields := rfl

@[simp] theorem insert_nil (name value : Bytes) : insert [] name value = [(name, value)] := rfl

theorem insert_cons (x : Bytes × Bytes) (hdrs : Headers) (name value : Bytes) :
    insert (x :: hdrs) name value =
      if iequal x.1 name then x :: (name, value) :: hdrs else x :: insert hdrs name value := by
  simp only [insert, find, List.findIdx?_cons]
  by_cases hx : iequal x.1 name = true
  · simp [hx]
  · rcases hf : List.findIdx? (fun header => iequal header.1 name) hdrs with _ | i <;> simp [hx, hf]

theorem insert_append_of_not {A : Headers} (B : Headers) {name : Bytes} (value : Bytes)
    (h : ∀ a ∈ A, iequal a.1 name = false) : insert (A ++ B) name value = A ++ insert B name value := by
  induction A with
  | nil => rfl
  | cons a A ih =>
      rw [List.cons_append, insert_cons, if_neg (by simp [h a (by simp)]), ih fun x hx => h x (by simp [hx])]
      rfl

/-- Headers with names of their own are appended in order. -/
theorem insertAll_distinct {A fields : Headers} (h : (A ++ fields).Pairwise fun a b => iequal a.1 b.1 = false) :
    insertAll A fields = A ++ fields := by
  induction fields generalizing A with
  | nil => rw [insertAll_nil, List.append_nil]
  | cons f fields ih =>
      have hA : ∀ a ∈ A, iequal a.1 f.1 = false := fun a ha => (List.pairwise_append.1 h).2.2 a ha f List.mem_cons_self
      have hinsert := insert_append_of_not [] f.2 hA
      rw [List.append_nil, insert_nil] at hinsert
      rw [insertAll_cons, hinsert, ih (by rwa [List.append_assoc, List.singleton_append]), List.append_assoc,
        List.singleton_append]

theorem insertAll_group (x : Bytes × Bytes) (fields : Headers) : ∀ (A B : Headers),
    (∀ a ∈ A, sameName a x = true) →
      insertAll (x :: (A ++ B)) fields =
        x :: ((fields.filter (sameName · x)).reverse ++ A ++ insertAll B (fields.filter (!sameName · x))) := by
  induction fields with
  | nil => intro A B _; simp
  | cons f fields ih =>
      intro A B hA
      rw [insertAll_cons, insert_cons]
      by_cases hf : sameName f x = true
      · have hx : iequal x.1 f.1 = true := by rw [iequal_comm]; exact hf
        rw [if_pos hx, ← List.cons_append, ih (f :: A) B (by simpa [hf] using hA)]
        simp [hf]
      · have hx : ¬ iequal x.1 f.1 = true := by rw [iequal_comm]; exact hf
        have hnot : ∀ a ∈ A, iequal a.1 f.1 = false := by
          intro a ha
          rw [iequal_comm, Bool.eq_false_iff, ne_eq]
          intro hfa
          exact hf (by rw [← sameName_congr (hA a ha)]; exact hfa)
        rw [if_neg hx, insert_append_of_not B f.2 hnot, ih A _ hA]
        simp [hf]

/-- The list that inserting the fields builds: the group of the first field, then the other groups. -/
theorem insertAll_cons_eq (x : Bytes × Bytes) (fields : Headers) :
    insertAll [] (x :: fields) =
      x :: ((fields.filter (sameName · x)).reverse ++ insertAll [] (fields.filter (!sameName · x))) := by
  have := insertAll_group x fields [] [] (by simp)
  simpa using this

theorem mem_insertAll (fields : Headers) {f : Bytes × Bytes} : f ∈ insertAll [] fields ↔ f ∈ fields := by
  induction hn : fields.length using Nat.strongRecOn generalizing fields with
  | ind n ih =>
      cases fields with
      | nil => simp
      | cons x fields =>
          have hlt : (fields.filter (!sameName · x)).length < n := by
            have := List.length_filter_le (fun y => !sameName y x) fields
            rw [List.length_cons] at hn
            omega
          rw [insertAll_cons_eq]
          simp only [List.mem_cons, List.mem_append, List.mem_reverse, ih _ hlt _ rfl, List.mem_filter]
          by_cases hs : sameName f x = true <;> simp [hs]

/-! ## When the order is kept -/

/-- The headers of one name stand next to each other, and all of them but the first read the same backwards. -/
def KeepsOrder (fields : Headers) : Prop :=
  ∀ f ∈ fields, fields.filter (sameName · f) <:+: fields ∧
    (fields.filter (sameName · f)).tail.reverse = (fields.filter (sameName · f)).tail

instance (fields : Headers) : Decidable (KeepsOrder fields) :=
  inferInstanceAs (Decidable (∀ f ∈ fields, fields.filter (sameName · f) <:+: fields ∧
    (fields.filter (sameName · f)).tail.reverse = (fields.filter (sameName · f)).tail))

theorem filter_split {x : Bytes × Bytes} {S T : Headers} (hS : ∀ a ∈ S, sameName a x = true)
    (hT : ∀ a ∈ T, sameName a x = false) :
    (S ++ T).filter (sameName · x) = S ∧ (S ++ T).filter (!sameName · x) = T := by
  have h1 : S.filter (sameName · x) = S := List.filter_eq_self.mpr hS
  have h2 : T.filter (sameName · x) = [] := List.filter_eq_nil_iff.mpr fun a ha => by simp [hT a ha]
  have h3 : S.filter (!sameName · x) = [] := List.filter_eq_nil_iff.mpr fun a ha => by simp [hS a ha]
  have h4 : T.filter (!sameName · x) = T := List.filter_eq_self.mpr fun a ha => by simp [hT a ha]
  simp [List.filter_append, h1, h2, h3, h4]

theorem insertAll_cons_eq_self_iff (x : Bytes × Bytes) (fields : Headers) :
    insertAll [] (x :: fields) = x :: fields ↔
      fields = fields.filter (sameName · x) ++ fields.filter (!sameName · x) ∧
      (fields.filter (sameName · x)).reverse = fields.filter (sameName · x) ∧
      insertAll [] (fields.filter (!sameName · x)) = fields.filter (!sameName · x) := by
  rw [insertAll_cons_eq, List.cons.injEq]
  constructor
  · rintro ⟨-, h⟩
    have hS : ∀ a ∈ (fields.filter (sameName · x)).reverse, sameName a x = true := by
      intro a ha; simpa using (List.mem_filter.mp (List.mem_reverse.mp ha)).2
    have hT : ∀ a ∈ insertAll [] (fields.filter (!sameName · x)), sameName a x = false := by
      intro a ha; simpa using (List.mem_filter.mp ((mem_insertAll _).mp ha)).2
    obtain ⟨h1, h2⟩ := filter_split hS hT
    rw [h] at h1 h2
    exact ⟨by rw [← h2, ← h1] at h; exact h.symm, h1.symm, h2.symm⟩
  · rintro ⟨h1, h2, h3⟩
    rw [h2, h3]
    exact ⟨rfl, h1.symm⟩

theorem infix_of_not_mem {S T g : Headers} {p : Bytes × Bytes → Bool} (hne : g ≠ []) (hS : ∀ a ∈ S, p a = false)
    (hg : ∀ a ∈ g, p a = true) (h : g <:+: S ++ T) : g <:+: T := by
  obtain ⟨pre, post, heq⟩ := h
  induction S generalizing pre with
  | nil => exact ⟨pre, post, heq⟩
  | cons s S ih =>
      cases pre with
      | nil =>
          cases g with
          | nil => exact absurd rfl hne
          | cons y g =>
              have hy : y = s := by simpa using congrArg List.head? heq
              have := hS s (by simp)
              rw [← hy, hg y (by simp)] at this
              cases this
      | cons y pre =>
          refine ih (fun a ha => hS a (by simp [ha])) pre ?_
          simpa using congrArg List.tail heq

theorem KeepsOrder.cons_iff (x : Bytes × Bytes) (fields : Headers) :
    KeepsOrder (x :: fields) ↔
      fields = fields.filter (sameName · x) ++ fields.filter (!sameName · x) ∧
      (fields.filter (sameName · x)).reverse = fields.filter (sameName · x) ∧
      KeepsOrder (fields.filter (!sameName · x)) := by
  generalize hSdef : fields.filter (sameName · x) = S
  generalize hTdef : fields.filter (!sameName · x) = T
  have hS : ∀ a ∈ S, sameName a x = true := by
    intro a ha; rw [← hSdef] at ha; exact (List.mem_filter.mp ha).2
  have hT : ∀ a ∈ T, sameName a x = false := by
    intro a ha; rw [← hTdef] at ha; simpa using (List.mem_filter.mp ha).2
  have hhead : (x :: fields).filter (sameName · x) = x :: S := by simp [hSdef]
  -- a field of another name has its group among the others
  have hother : ∀ f, sameName f x = false → (x :: fields).filter (sameName · f) = T.filter (sameName · f) := by
    intro f hf
    have hxf : sameName x f = false := by rw [sameName, iequal_comm]; exact hf
    rw [List.filter_cons, if_neg (by simp [hxf]), ← hTdef, List.filter_filter]
    refine List.filter_congr fun a _ => ?_
    by_cases ha : sameName a f = true
    · have : sameName a x = false := by
        rw [Bool.eq_false_iff, ne_eq, sameName_iff, sameName_iff.mp ha, ← sameName_iff]
        simp [hf]
      simp [ha, this]
    · simp [ha]
  constructor
  · intro h
    obtain ⟨⟨pre, post, hinf⟩, hpal⟩ := h x (by simp)
    rw [hhead] at hinf hpal
    -- no header of this name lies outside the group, and the list begins with one
    have hcount := congrArg (List.filter (sameName · x)) hinf
    rw [hhead, List.filter_append, List.filter_append] at hcount
    have hgroup : (x :: S).filter (sameName · x) = x :: S :=
      List.filter_eq_self.mpr fun a ha => by
        rcases List.mem_cons.mp ha with rfl | ha
        · simp
        · exact hS a ha
    rw [hgroup] at hcount
    have hlen := congrArg List.length hcount
    simp only [List.length_append, List.length_cons] at hlen
    have hpre : pre.filter (sameName · x) = [] := List.length_eq_zero_iff.mp (by omega)
    have hpost : post.filter (sameName · x) = [] := List.length_eq_zero_iff.mp (by omega)
    have hpre0 : pre = [] := by
      cases pre with
      | nil => rfl
      | cons y pre =>
          have hy : y = x := by simpa using congrArg List.head? hinf
          rw [hy, List.filter_cons, if_pos (by simp)] at hpre
          cases hpre
    subst hpre0
    have hfields : fields = S ++ post := by simpa using hinf.symm
    have hTpost : T = post := by
      rw [← hTdef, hfields]
      exact (filter_split hS fun a ha => by simpa using List.filter_eq_nil_iff.mp hpost a ha).2
    refine ⟨by rw [hfields, hTpost], by simpa using hpal, ?_⟩
    intro f hf
    have hfx := hT f hf
    have hmem : f ∈ x :: fields := by
      rw [← hTdef] at hf; exact List.mem_cons_of_mem _ (List.mem_filter.mp hf).1
    obtain ⟨hinf', hpal'⟩ := h f hmem
    rw [hother f hfx] at hinf' hpal'
    refine ⟨?_, hpal'⟩
    have hne : T.filter (sameName · f) ≠ [] := List.ne_nil_of_mem (List.mem_filter.mpr ⟨hf, by simp⟩)
    refine infix_of_not_mem (S := x :: S) (p := (sameName · f)) hne ?_ (fun a ha => (List.mem_filter.mp ha).2) ?_
    · intro a ha
      have hax : sameName a x = true := by
        rcases List.mem_cons.mp ha with rfl | ha
        · simp
        · exact hS a ha
      rw [Bool.eq_false_iff, ne_eq, sameName_iff, sameName_iff.mp hax, eq_comm, ← sameName_iff]
      simp [hfx]
    · rwa [List.cons_append, hTpost, ← hfields, ← hTpost]
  · rintro ⟨hfields, hpal, hrest⟩ f hf
    by_cases hfx : sameName f x = true
    · have hsame : (x :: fields).filter (sameName · f) = x :: S := by
        rw [← hhead]; exact List.filter_congr fun a _ => sameName_congr hfx
      rw [hsame]
      exact ⟨⟨[], T, by rw [List.nil_append, List.cons_append, ← hfields]⟩, by simpa using hpal⟩
    · have hfx' : sameName f x = false := by simpa using hfx
      have hfT : f ∈ T := by
        rcases List.mem_cons.mp hf with rfl | hf
        · exact absurd (sameName_self f) hfx
        · rw [← hTdef]; exact List.mem_filter.mpr ⟨hf, by simp [hfx']⟩
      rw [hother f hfx']
      obtain ⟨hinf, hp⟩ := hrest f hfT
      refine ⟨hinf.trans ⟨x :: S, [], ?_⟩, hp⟩
      rw [List.append_nil, List.cons_append, ← hfields]

/-- Inserting fields in order gives them back in order exactly when `KeepsOrder` holds of them. -/
theorem insertAll_eq_self_iff (fields : Headers) : insertAll [] fields = fields ↔ KeepsOrder fields := by
  induction hn : fields.length using Nat.strongRecOn generalizing fields with
  | ind n ih =>
      cases fields with
      | nil => simp [KeepsOrder]
      | cons x fields =>
          have hlt : (fields.filter (!sameName · x)).length < n := by
            have := List.length_filter_le (fun y => !sameName y x) fields
            rw [List.length_cons] at hn
            omega
          rw [insertAll_cons_eq_self_iff, KeepsOrder.cons_iff, ih _ hlt _ rfl]

end Headers

end Rad.Http
