import Mathlib.Algebra.Group.Int.Defs
import Mathlib.Algebra.GroupWithZero.Nat
import Mathlib.Data.List.InsertIdx
import Mathlib.Data.List.Perm.Basic
import Mathlib.Tactic.Ring

/-!
# Bootstring

A list of numbers is written as the order in which they are inserted, the smallest first: each insertion is the count of
the steps from the one before it, a step going through the positions of the list and then to the next number. The counts
are written in digits of a base, with weights that depend on a bias which follows the counts.
-/

namespace Rad.Lib

structure Bootstring where
  base : Nat
  threshold (bias k : Nat) : Nat
  adapt (delta numpoints : Nat) (first : Bool) : Nat
  threshold_pos (bias k : Nat) : 0 < threshold bias k
  threshold_lt (bias k : Nat) : threshold bias k < base

namespace Bootstring

variable (B : Bootstring)

/-! ## Numbers -/

/-- The digits of `q` from the position `k` on. A digit below the threshold is the last one. -/
def encodeNumber (bias k q : Nat) : List Nat :=
  let t := B.threshold bias k
  if q < t then [q] else (t + (q - t) % (B.base - t)) :: encodeNumber bias (k + B.base) ((q - t) / (B.base - t))
termination_by q
decreasing_by
  rename_i h
  have hpos := B.threshold_pos bias k
  exact Nat.lt_of_le_of_lt (Nat.div_le_self _ _) (by omega)

/-- The number that is added up to `i` in front of the position `k`, whose weight is `w`, and the digits behind it. -/
def decodeNumber (bias k w i : Nat) : List Nat → Option (Nat × List Nat)
  | [] => none
  | digit :: digits =>
    let t := B.threshold bias k
    if digit < t then some (i + digit * w, digits)
    else decodeNumber bias (k + B.base) (w * (B.base - t)) (i + digit * w) digits

variable {B} {bias k w i q total : Nat} {digits rest : List Nat}

theorem decodeNumber_cons (digit : Nat) :
    B.decodeNumber bias k w i (digit :: digits) =
      if digit < B.threshold bias k then some (i + digit * w, digits)
      else B.decodeNumber bias (k + B.base) (w * (B.base - B.threshold bias k)) (i + digit * w) digits := rfl

theorem decodeNumber_encodeNumber (bias k w i q : Nat) (rest : List Nat) :
    B.decodeNumber bias k w i (B.encodeNumber bias k q ++ rest) = some (i + q * w, rest) := by
  induction q using Nat.strongRecOn generalizing k w i with
  | ind q ih =>
      have hpos := B.threshold_pos bias k
      have hlt := B.threshold_lt bias k
      rw [encodeNumber]
      split
      · rename_i hlast
        rw [List.singleton_append, decodeNumber_cons]
        exact if_pos hlast
      · rename_i hmore
        obtain ⟨r, hr⟩ := Nat.exists_eq_add_of_le (Nat.not_lt.1 hmore)
        have hsmaller : (q - B.threshold bias k) / (B.base - B.threshold bias k) < q :=
          Nat.lt_of_le_of_lt (Nat.div_le_self _ _) (by omega)
        rw [List.cons_append, decodeNumber_cons]
        rw [if_neg (by omega), ih _ hsmaller]
        congr 2
        -- the digit and what is behind it
        have hdiv := Nat.div_add_mod (q - B.threshold bias k) (B.base - B.threshold bias k)
        generalize (q - B.threshold bias k) / (B.base - B.threshold bias k) = d at hdiv ⊢
        generalize (q - B.threshold bias k) % (B.base - B.threshold bias k) = m at hdiv ⊢
        have hq : q = B.threshold bias k + m + d * (B.base - B.threshold bias k) := by
          rw [Nat.mul_comm d]
          omega
        generalize B.base - B.threshold bias k = s at hq ⊢
        rw [hq]
        ring

theorem encodeNumber_lt (bias k q : Nat) : ∀ d ∈ B.encodeNumber bias k q, d < B.base := by
  induction q using Nat.strongRecOn generalizing k with
  | ind q ih =>
      have hpos := B.threshold_pos bias k
      have hlt := B.threshold_lt bias k
      rw [encodeNumber]
      split
      · intro d hd
        rw [List.mem_singleton.1 hd]
        omega
      · have hmod := Nat.mod_lt (q - B.threshold bias k) (show 0 < B.base - B.threshold bias k by omega)
        refine List.forall_mem_cons.2 ⟨by omega, ih _ ?_ _⟩
        exact Nat.lt_of_le_of_lt (Nat.div_le_self _ _) (by omega)

theorem decodeNumber_suffix (h : B.decodeNumber bias k w i digits = some (total, rest)) : rest <:+ digits := by
  induction digits generalizing k w i with
  | nil => cases h
  | cons digit digits ih =>
      rw [decodeNumber_cons] at h
      split at h
      · cases h
        exact List.suffix_cons _ _
      · exact (ih h).trans (List.suffix_cons _ _)

theorem decodeNumber_length (h : B.decodeNumber bias k w i digits = some (total, rest)) : rest.length < digits.length := by
  induction digits generalizing k w i with
  | nil => cases h
  | cons digit digits ih =>
      rw [decodeNumber_cons] at h
      split at h
      · cases h
        exact Nat.lt_succ_self _
      · exact Nat.lt_succ_of_lt (ih h)

theorem le_decodeNumber (h : B.decodeNumber bias k w i digits = some (total, rest)) : i ≤ total := by
  induction digits generalizing k w i with
  | nil => cases h
  | cons digit digits ih =>
      rw [decodeNumber_cons] at h
      split at h
      · cases h
        exact Nat.le_add_right _ _
      · exact (Nat.le_add_right _ _).trans (ih h)

/-! ## Insertions -/

/-- Where the next insertion is counted from: the number, the position, the length of the list, and the bias. -/
structure Cursor where
  n : Nat
  i : Nat
  len : Nat
  bias : Nat

/-- The index of an insertion: the steps to it from the beginning of the list at the number of the cursor. -/
def Cursor.index (s : Cursor) (e : Nat × Nat) : Nat := (e.1 - s.n) * (s.len + 1) + e.2

variable (B) in
/-- Behind an insertion. -/
def Cursor.advance (s : Cursor) (e : Nat × Nat) : Cursor :=
  ⟨e.1, e.2 + 1, s.len + 1, B.adapt (s.index e - s.i) (s.len + 1) (s.i = 0)⟩

variable (B) in
def encodeInsertions (s : Cursor) : List (Nat × Nat) → List Nat
  | [] => []
  | e :: es => B.encodeNumber s.bias B.base (s.index e - s.i) ++ encodeInsertions (s.advance B e) es

variable (B) in
/-- The insertions are counted forward. -/
def Ordered (s : Cursor) : List (Nat × Nat) → Prop
  | [] => True
  | e :: es => s.n ≤ e.1 ∧ e.2 ≤ s.len ∧ s.i ≤ s.index e ∧ Ordered (s.advance B e) es

def applyInsertions (out : List Nat) (es : List (Nat × Nat)) : List Nat := es.foldl (fun out e => out.insertIdx e.2 e.1) out

variable (B) in
/-- The list that digits are decoded to, behind the insertions of which the list is `out`. -/
def decodeFrom (n i bias : Nat) (out digits : List Nat) : Option (List Nat) :=
  if digits = [] then some out
  else
    match _h : B.decodeNumber bias B.base 1 i digits with
    | none => none
    | some (total, rest) =>
      decodeFrom (n + total / (out.length + 1)) (total % (out.length + 1) + 1)
        (B.adapt (total - i) (out.length + 1) (i = 0))
        (out.insertIdx (total % (out.length + 1)) (n + total / (out.length + 1))) rest
termination_by digits.length
decreasing_by exact decodeNumber_length _h

variable (B) in
/-- The indexes stay below a limit while digits are decoded. -/
def StaysBelow (limit i len bias : Nat) (digits : List Nat) : Prop :=
  if digits = [] then True
  else
    match _h : B.decodeNumber bias B.base 1 i digits with
    | none => True
    | some (total, rest) =>
      total < limit ∧
        StaysBelow limit (total % (len + 1) + 1) (len + 1) (B.adapt (total - i) (len + 1) (i = 0)) rest
termination_by digits.length
decreasing_by exact decodeNumber_length _h

variable {n : Nat} {out out' : List Nat} {s : Cursor} {e : Nat × Nat} {es es' : List (Nat × Nat)}

theorem pos_le (total len : Nat) : total % (len + 1) ≤ len := Nat.le_of_lt_succ (Nat.mod_lt _ (Nat.succ_pos _))

theorem decodeFrom_nil : B.decodeFrom n i bias out [] = some out := by rw [decodeFrom, if_pos rfl]

theorem decodeFrom_of_number (h : B.decodeNumber bias B.base 1 i digits = some (total, rest)) :
    B.decodeFrom n i bias out digits =
      B.decodeFrom (n + total / (out.length + 1)) (total % (out.length + 1) + 1)
        (B.adapt (total - i) (out.length + 1) (i = 0))
        (out.insertIdx (total % (out.length + 1)) (n + total / (out.length + 1))) rest := by
  have hne : digits ≠ [] := by
    rintro rfl
    cases h
  rw [decodeFrom, if_neg hne]
  split
  · rename_i hnone
    rw [hnone] at h
    cases h
  · rename_i hsome
    rw [hsome] at h
    cases h
    rfl

theorem decodeFrom_of_none (hne : digits ≠ []) (h : B.decodeNumber bias B.base 1 i digits = none) :
    B.decodeFrom n i bias out digits = none := by
  rw [decodeFrom, if_neg hne]
  split
  · rfl
  · rename_i hsome
    rw [hsome] at h
    cases h

theorem staysBelow_of_number {limit len : Nat} (h : B.decodeNumber bias B.base 1 i digits = some (total, rest)) :
    B.StaysBelow limit i len bias digits ↔ total < limit ∧
      B.StaysBelow limit (total % (len + 1) + 1) (len + 1) (B.adapt (total - i) (len + 1) (i = 0)) rest := by
  have hne : digits ≠ [] := by
    rintro rfl
    cases h
  rw [StaysBelow, if_neg hne]
  split
  · rename_i hnone
    rw [hnone] at h
    cases h
  · rename_i hsome
    rw [hsome] at h
    cases h
    rfl

/-! ### The two directions -/

variable (B) in
/-- Behind insertions. -/
def Cursor.after (s : Cursor) (es : List (Nat × Nat)) : Cursor := es.foldl (Cursor.advance B) s

theorem encodeInsertions_cons (s : Cursor) (e : Nat × Nat) (es : List (Nat × Nat)) : B.encodeInsertions s (e :: es) =
    B.encodeNumber s.bias B.base (s.index e - s.i) ++ B.encodeInsertions (s.advance B e) es := rfl

theorem ordered_cons : B.Ordered s (e :: es) ↔
    s.n ≤ e.1 ∧ e.2 ≤ s.len ∧ s.i ≤ s.index e ∧ B.Ordered (s.advance B e) es := .rfl

theorem encodeInsertions_append (s : Cursor) (es es' : List (Nat × Nat)) :
    B.encodeInsertions s (es ++ es') = B.encodeInsertions s es ++ B.encodeInsertions (s.after B es) es' := by
  induction es generalizing s with
  | nil => rfl
  | cons e es ih =>
      rw [List.cons_append, encodeInsertions_cons, encodeInsertions_cons, ih, List.append_assoc]
      rfl

theorem ordered_append : B.Ordered s (es ++ es') ↔ B.Ordered s es ∧ B.Ordered (s.after B es) es' := by
  induction es generalizing s with
  | nil => exact (iff_of_eq (true_and _)).symm
  | cons e es ih =>
      rw [List.cons_append, ordered_cons, ordered_cons, ih]
      simp only [and_assoc]
      rfl

theorem applyInsertions_append (out : List Nat) (es es' : List (Nat × Nat)) :
    applyInsertions out (es ++ es') = applyInsertions (applyInsertions out es) es' := List.foldl_append

theorem Cursor.index_div (s : Cursor) (hn : s.n ≤ e.1) (hle : e.2 ≤ s.len) : s.n + s.index e / (s.len + 1) = e.1 := by
  rw [index, Nat.mul_comm, Nat.mul_add_div (Nat.succ_pos _), Nat.div_eq_of_lt (Nat.lt_succ_of_le hle)]
  omega

theorem Cursor.index_mod (s : Cursor) (hle : e.2 ≤ s.len) : s.index e % (s.len + 1) = e.2 := by
  rw [index, Nat.mul_comm, Nat.mul_add_mod, Nat.mod_eq_of_lt (Nat.lt_succ_of_le hle)]

theorem decodeNumber_encodeInsertions (hle : s.i ≤ s.index e) (es : List (Nat × Nat)) :
    B.decodeNumber s.bias B.base 1 s.i (B.encodeInsertions s (e :: es)) =
      some (s.index e, B.encodeInsertions (s.advance B e) es) := by
  rw [encodeInsertions_cons, decodeNumber_encodeNumber, Nat.mul_one, Nat.add_sub_cancel' hle]

/-- The digits of insertions are decoded to what the insertions make. -/
theorem decodeFrom_encodeInsertions (hlen : out.length = s.len) (h : B.Ordered s es) :
    B.decodeFrom s.n s.i s.bias out (B.encodeInsertions s es) = some (applyInsertions out es) := by
  induction es generalizing s out with
  | nil => exact decodeFrom_nil
  | cons e es ih =>
      obtain ⟨hn, hle, hindex, h⟩ := h
      rw [decodeFrom_of_number (decodeNumber_encodeInsertions hindex es), hlen, s.index_div hn hle, s.index_mod hle]
      refine ih ?_ h
      rw [List.length_insertIdx_of_le_length (hle.trans_eq hlen.symm), hlen]
      rfl

/-- The indexes of the insertions of bounded numbers into a list of a bounded length. -/
theorem staysBelow_encodeInsertions {limit size : Nat} (h : B.Ordered s es) (hnum : ∀ e ∈ es, e.1 ≤ n)
    (hsize : s.len + es.length ≤ size) (hlimit : n * size + size < limit) :
    B.StaysBelow limit s.i s.len s.bias (B.encodeInsertions s es) := by
  induction es generalizing s with
  | nil =>
      rw [encodeInsertions, StaysBelow, if_pos rfl]
      trivial
  | cons e es ih =>
      obtain ⟨hn, hle, hindex, h⟩ := h
      obtain ⟨he, hnum⟩ := List.forall_mem_cons.1 hnum
      rw [List.length_cons] at hsize
      rw [staysBelow_of_number (decodeNumber_encodeInsertions hindex es), s.index_mod hle]
      refine ⟨Nat.lt_of_le_of_lt ?_ hlimit, ih h hnum ?_⟩
      · exact Nat.add_le_add (Nat.mul_le_mul ((Nat.sub_le _ _).trans he) (by omega)) (by omega)
      · show s.len + 1 + es.length ≤ size
        omega

theorem length_applyInsertions (out : List Nat) (hlen : out.length = s.len) (h : B.Ordered s es) :
    (applyInsertions out es).length = out.length + es.length := by
  induction es generalizing s out with
  | nil => rfl
  | cons e es ih =>
      obtain ⟨-, hle, -, h⟩ := h
      have hinsert : (out.insertIdx e.2 e.1).length = out.length + 1 :=
        List.length_insertIdx_of_le_length (hle.trans_eq hlen.symm) _
      have hrest := ih (s := s.advance B e) _ (hinsert.trans (congrArg (· + 1) hlen)) h
      rw [hinsert, Nat.add_assoc, Nat.add_comm 1] at hrest
      exact hrest

theorem encodeInsertions_lt (s : Cursor) (es : List (Nat × Nat)) : ∀ d ∈ B.encodeInsertions s es, d < B.base := by
  induction es generalizing s with
  | nil => nofun
  | cons e es ih => exact List.forall_mem_append.2 ⟨encodeNumber_lt _ _ _, ih _⟩

/-! ### What is decoded -/

/-- Nothing that is there is taken out, and nothing below the number is inserted. -/
theorem sublist_decodeFrom (h : B.decodeFrom n i bias out digits = some out') :
    out.Sublist out' ∧ ∀ c < n, out'.count c = out.count c := by
  induction hlen : digits.length using Nat.strongRecOn generalizing n i bias out digits with
  | ind len ih =>
      by_cases hnil : digits = []
      · subst hnil
        rw [decodeFrom_nil] at h
        cases h
        exact ⟨.refl _, fun _ _ => rfl⟩
      cases hnumber : B.decodeNumber bias B.base 1 i digits with
      | none =>
          rw [decodeFrom_of_none hnil hnumber] at h
          cases h
      | some found =>
          obtain ⟨total, rest⟩ := found
          rw [decodeFrom_of_number hnumber] at h
          obtain ⟨hmore, hsame⟩ := ih _ (hlen ▸ decodeNumber_length hnumber) h rfl
          refine ⟨(List.sublist_insertIdx ..).trans hmore, fun c hc => ?_⟩
          have hlt : c < n + total / (out.length + 1) := Nat.lt_of_lt_of_le hc (Nat.le_add_right _ _)
          rw [hsame c hlt, (List.perm_insertIdx _ _ (pos_le _ _)).count_eq, List.count_cons_of_ne (Nat.ne_of_gt hlt)]

/-! ## The insertions that make a list -/

/-- The insertions of a number into the part of a list that is not above it, the first one at `pos` or behind it. -/
def insertionsOf (m pos : Nat) : List Nat → List (Nat × Nat)
  | [] => []
  | c :: cs =>
    if c < m then insertionsOf m (pos + 1) cs
    else if c = m then (m, pos) :: insertionsOf m (pos + 1) cs
    else insertionsOf m pos cs

/-- The insertions of numbers that are sorted, those below `n` left out. -/
def insertions (list : List Nat) (n : Nat) : List Nat → List (Nat × Nat)
  | [] => []
  | m :: numbers =>
    if m < n then insertions list n numbers
    else insertionsOf m 0 list ++ insertions list (m + 1) numbers

variable {m pos c : Nat} {list cs numbers : List Nat}

theorem insertionsOf_cons : insertionsOf m pos (c :: cs) =
    if c < m then insertionsOf m (pos + 1) cs
    else if c = m then (m, pos) :: insertionsOf m (pos + 1) cs
    else insertionsOf m pos cs := rfl

theorem insertions_cons : insertions list n (m :: numbers) =
    if m < n then insertions list n numbers else insertionsOf m 0 list ++ insertions list (m + 1) numbers := rfl

theorem mem_insertionsOf {e : Nat × Nat} (h : e ∈ insertionsOf m pos cs) : e.1 = m := by
  induction cs generalizing pos with
  | nil => cases h
  | cons c cs ih =>
      rw [insertionsOf_cons] at h
      split at h
      · exact ih h
      split at h
      · rcases List.mem_cons.1 h with rfl | h
        · rfl
        · exact ih h
      · exact ih h

theorem mem_insertions {e : Nat × Nat} (h : e ∈ insertions list n numbers) : e.1 ∈ numbers := by
  induction numbers generalizing n with
  | nil => cases h
  | cons m numbers ih =>
      rw [insertions_cons] at h
      split at h
      · exact List.mem_cons_of_mem _ (ih h)
      · rcases List.mem_append.1 h with h | h
        · exact mem_insertionsOf h ▸ List.mem_cons_self
        · exact List.mem_cons_of_mem _ (ih h)

theorem insertions_eq_nil (h : ∀ m ∈ numbers, m < n) : insertions list n numbers = [] := by
  induction numbers with
  | nil => rfl
  | cons m numbers ih =>
      obtain ⟨hm, h⟩ := List.forall_mem_cons.1 h
      exact (if_pos hm).trans (ih h)

theorem insertIdx_length (front cs : List Nat) (c : Nat) : (front ++ cs).insertIdx front.length c = front ++ [c] ++ cs := by
  induction front with
  | nil => rfl
  | cons f front ih => exact congrArg (f :: ·) ih

theorem applyInsertions_insertionsOf (m : Nat) (front cs : List Nat) :
    applyInsertions (front ++ cs.filter (· < m)) (insertionsOf m front.length cs) = front ++ cs.filter (· ≤ m) := by
  induction cs generalizing front with
  | nil => rfl
  | cons c cs ih =>
      rcases Nat.lt_trichotomy c m with hlt | rfl | hgt
      · have hfront := ih (front ++ [c])
        rw [List.length_append, List.append_assoc, List.append_assoc] at hfront
        simpa [insertionsOf_cons, hlt, Nat.le_of_lt hlt] using hfront
      · have hfront := ih (front ++ [c])
        rw [List.length_append, ← insertIdx_length front] at hfront
        simpa [insertionsOf_cons, applyInsertions] using hfront
      · simpa [insertionsOf_cons, Nat.not_lt.2 (Nat.le_of_lt hgt), Nat.ne_of_gt hgt, Nat.not_le.2 hgt] using ih front

/-- There is nothing between a number and the least of those that are not below it. -/
theorem filter_lt_eq (hge : n ≤ m) (hsorted : (m :: numbers).Pairwise (· ≤ ·))
    (hmem : ∀ c ∈ list, n ≤ c → c ∈ m :: numbers) : list.filter (· < n) = list.filter (· < m) := by
  refine List.filter_congr fun c hc => decide_eq_decide.2 ⟨fun h => Nat.lt_of_lt_of_le h hge, fun h => ?_⟩
  by_contra hle
  rcases List.mem_cons.1 (hmem c hc (Nat.not_lt.1 hle)) with rfl | hc
  · exact Nat.lt_irrefl _ h
  · exact Nat.not_le.2 h (List.rel_of_pairwise_cons hsorted hc)

theorem filter_le_eq (list : List Nat) (m : Nat) : list.filter (· ≤ m) = list.filter (· < m + 1) :=
  List.filter_congr fun _ _ => decide_eq_decide.2 Nat.lt_succ_iff.symm

theorem applyInsertions_insertions (hsorted : numbers.Pairwise (· ≤ ·)) (hmem : ∀ c ∈ list, n ≤ c → c ∈ numbers) :
    applyInsertions (list.filter (· < n)) (insertions list n numbers) = list := by
  induction numbers generalizing n with
  | nil =>
      refine List.filter_eq_self.2 fun c hc => ?_
      simpa using Nat.not_le.1 fun hle => List.not_mem_nil (hmem c hc hle)
  | cons m numbers ih =>
      rw [insertions_cons]
      split
      · rename_i hlt
        refine ih hsorted.of_cons fun c hc hle => ?_
        exact (List.mem_cons.1 (hmem c hc hle)).resolve_left (by omega)
      · rename_i hge
        have hpass := applyInsertions_insertionsOf m [] list
        rw [List.nil_append, List.nil_append, List.length_nil] at hpass
        rw [applyInsertions_append, filter_lt_eq (Nat.not_lt.1 hge) hsorted hmem, hpass, filter_le_eq]
        refine ih hsorted.of_cons fun c hc hle => ?_
        exact (List.mem_cons.1 (hmem c hc (by omega))).resolve_left (by omega)

/-! ### Their order -/

/-- A cursor which is not behind the position `pos` of the number `m`. -/
structure Cursor.At (s : Cursor) (m pos : Nat) : Prop where
  n_le : s.n ≤ m
  pos_le : pos ≤ s.len
  i_le : s.i ≤ s.index (m, pos)

theorem Cursor.At.skip (h : s.At m pos) (hle : pos + 1 ≤ s.len) : s.At m (pos + 1) :=
  ⟨h.n_le, hle, h.i_le.trans (Nat.le_succ _)⟩

theorem Cursor.At.advance (h : s.At m pos) : (s.advance B (m, pos)).At m (pos + 1) :=
  ⟨Nat.le_refl _, Nat.succ_le_succ h.pos_le, Nat.le_add_left _ _⟩

theorem Cursor.At.mono (h : s.At m 0) (hle : m ≤ n) : s.At n 0 :=
  ⟨h.n_le.trans hle, Nat.zero_le _, h.i_le.trans (Nat.mul_le_mul_right _ (Nat.sub_le_sub_right hle _))⟩

/-- Behind the last position is the next number. -/
theorem Cursor.At.next (h : s.At m s.len) : s.At (m + 1) 0 := by
  refine ⟨h.n_le.trans (Nat.le_succ _), Nat.zero_le _, h.i_le.trans ?_⟩
  rw [Cursor.index, Cursor.index, Nat.succ_sub h.n_le, Nat.succ_mul]
  exact Nat.add_le_add_left (Nat.le_succ _) _

theorem ordered_insertionsOf (h : s.At m pos) (hlen : s.len = pos + (cs.filter (· < m)).length) :
    B.Ordered s (insertionsOf m pos cs) ∧
      (s.after B (insertionsOf m pos cs)).At m (s.after B (insertionsOf m pos cs)).len ∧
      (s.after B (insertionsOf m pos cs)).len = pos + (cs.filter (· ≤ m)).length := by
  induction cs generalizing s pos with
  | nil =>
      rw [List.filter_nil, List.length_nil, Nat.add_zero] at hlen
      exact ⟨trivial, hlen ▸ h, hlen⟩
  | cons c cs ih =>
      rw [insertionsOf_cons]
      rcases Nat.lt_trichotomy c m with hlt | rfl | hgt
      · rw [List.filter_cons_of_pos (by simpa using hlt), List.length_cons] at hlen
        rw [if_pos hlt, List.filter_cons_of_pos (by simpa using Nat.le_of_lt hlt), List.length_cons, ← Nat.add_assoc,
          Nat.add_right_comm]
        exact ih (h.skip (by omega)) (by omega)
      · rw [List.filter_cons_of_neg (by simp)] at hlen
        rw [if_neg (Nat.lt_irrefl _), if_pos rfl, List.filter_cons_of_pos (by simp), List.length_cons, ← Nat.add_assoc,
          Nat.add_right_comm]
        obtain ⟨hordered, hat, hbehind⟩ := ih (h.advance (B := B)) (by show s.len + 1 = _; omega)
        exact ⟨⟨h.n_le, h.pos_le, h.i_le, hordered⟩, hat, hbehind⟩
      · rw [List.filter_cons_of_neg (by simpa using Nat.le_of_lt hgt)] at hlen
        rw [if_neg (by omega), if_neg (by omega), List.filter_cons_of_neg (by simpa using hgt)]
        exact ih h hlen

theorem ordered_insertions (h : s.At n 0) (hlen : s.len = (list.filter (· < n)).length)
    (hsorted : numbers.Pairwise (· ≤ ·)) (hmem : ∀ c ∈ list, n ≤ c → c ∈ numbers) :
    B.Ordered s (insertions list n numbers) := by
  induction numbers generalizing s n with
  | nil => trivial
  | cons m numbers ih =>
      rw [insertions_cons]
      split
      · rename_i hlt
        exact ih h hlen hsorted.of_cons fun c hc hle => (List.mem_cons.1 (hmem c hc hle)).resolve_left (by omega)
      · rename_i hge
        rw [filter_lt_eq (Nat.not_lt.1 hge) hsorted hmem] at hlen
        obtain ⟨hpass, hat, hbehind⟩ :=
          ordered_insertionsOf (B := B) (h.mono (Nat.not_lt.1 hge)) (hlen.trans (Nat.zero_add _).symm)
        rw [Nat.zero_add, filter_le_eq] at hbehind
        refine ordered_append.2 ⟨hpass, ih hat.next hbehind hsorted.of_cons fun c hc hle => ?_⟩
        exact (List.mem_cons.1 (hmem c hc (by omega))).resolve_left (by omega)

end Bootstring

end Rad.Lib
