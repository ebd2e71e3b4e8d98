import Mathlib.Data.List.DropRight
import Rad.Http.Lemmas.FieldLines

/-!
# The length of a message body (src/net/http/http_operations.cpp, src/net/http/http_parser.cpp)

A status is the number of its line, and there is none when the message is a request. The fields that the function reads
are empty when they are not given.
-/

namespace Rad.Http

/-- `message_body_size`. -/
inductive MessageBodySize where
  | length (n : Nat)
  | untilEof
  | chunked
  | bad
  deriving DecidableEq, Repr

/-- `parse_transfer_encoding`. -/
def parseTransferEncoding (transferEncoding : Bytes) : List Bytes :=
  ((transferEncoding.splitOn 0x2c).map fun tcoding => (tcoding.dropWhile isHttpWs).rdropWhile isHttpWs).filter (· ≠ [])

def noContent : Nat := 204

def notModified : Nat := 304

/-- `determine_message_body_length`. The version is not looked at. -/
def determineMessageBodyLength (reqMethod : Verb) (status : Option Nat) (_ver : Version)
    (contentLength transferEncoding : Bytes) : MessageBodySize :=
  if reqMethod = .head ∨ status = some noContent ∨ status = some notModified then .length 0
  else
    let contentLength := if contentLength ≠ [] ∧ transferEncoding ≠ [] then [] else contentLength
    if transferEncoding ≠ [] then
      let encodings := parseTransferEncoding transferEncoding
      if encodings.getLast?.any (iequal · (ascii "chunked")) then .chunked
      else if status.isSome then .untilEof
      else .bad
    else if contentLength ≠ [] then
      match toUint64 contentLength with
      | (_, false) => .bad
      | (clen, true) => .length clen
    else if status = none then .length 0
    else .untilEof

/-! ## The rules of the message format -/

/-- The coding is the last element of a list in a field: elements are separated by commas, white space around them does not
count, and neither do elements that are empty. -/
def IsLastCoding (transferEncoding coding : Bytes) : Prop :=
  coding ≠ [] ∧ ∃ before piece behind, transferEncoding.splitOn 0x2c = before ++ piece :: behind ∧
    (piece.dropWhile isHttpWs).rdropWhile isHttpWs = coding ∧ ∀ b ∈ behind, ∀ ch ∈ b, isHttpWs ch = true

def ChunkedIsLast (transferEncoding : Bytes) : Prop :=
  ∃ coding, IsLastCoding transferEncoding coding ∧ toLower coding = ascii "chunked"

/-- A decimal number of 64 bits. -/
def IsLength (text : Bytes) (n : Nat) : Prop :=
  text ≠ [] ∧ text.all isDigit = true ∧ decimalValue text = n ∧ n < 2 ^ 64

/-- The responses without a body. -/
def NoBody (reqMethod : Verb) (status : Option Nat) : Prop :=
  ∃ s, status = some s ∧ (reqMethod = .head ∨ (100 ≤ s ∧ s < 200) ∨ s = noContent ∨ s = notModified ∨
    (reqMethod = .connect ∧ 200 ≤ s ∧ s < 300))

/-- What the length of a body is by the rules, in their order. -/
structure FollowsRules (reqMethod : Verb) (status : Option Nat) (contentLength transferEncoding : Bytes)
    (size : MessageBodySize) : Prop where
  noBody : NoBody reqMethod status → size = .length 0
  chunked : ¬NoBody reqMethod status → transferEncoding ≠ [] → ChunkedIsLast transferEncoding → size = .chunked
  notChunked : ¬NoBody reqMethod status → transferEncoding ≠ [] → ¬ChunkedIsLast transferEncoding →
    size = if status.isSome then .untilEof else .bad
  length : ¬NoBody reqMethod status → transferEncoding = [] → ∀ n, IsLength contentLength n → size = .length n
  badLength : ¬NoBody reqMethod status → transferEncoding = [] → contentLength ≠ [] →
    (∀ n, ¬IsLength contentLength n) → size = .bad
  neither : ¬NoBody reqMethod status → transferEncoding = [] → contentLength = [] →
    size = if status.isSome then .untilEof else .length 0

/-- The messages that the function takes for others: a request with the method HEAD, and the responses with a status 1xx,
or 2xx to CONNECT, but for 204, which are judged by their fields. -/
def Misjudged (reqMethod : Verb) (status : Option Nat) : Prop :=
  (reqMethod = .head ∧ status = none) ∨
    (reqMethod ≠ .head ∧ ∃ s, status = some s ∧ s ≠ noContent ∧
      ((100 ≤ s ∧ s < 200) ∨ (reqMethod = .connect ∧ 200 ≤ s ∧ s < 300)))

/-- The fields of a message that give the length 0 themselves. -/
def FieldsGiveZero (status : Option Nat) (contentLength transferEncoding : Bytes) : Prop :=
  transferEncoding = [] ∧ (IsLength contentLength 0 ∨ (contentLength = [] ∧ status = none))

section

variable {text te cl coding : Bytes} {n : Nat} {m : Verb} {status : Option Nat} {ver : Version}

theorem isLength_iff : IsLength text n ↔ toUint64 text = (n, true) := by
  constructor
  · rintro ⟨hne, hdigits, rfl, hlt⟩
    exact toUint64_digits hne hdigits hlt
  · intro h
    unfold toUint64 at h
    dsimp only at h
    split at h
    · cases h
    · rename_i hne
      split at h
      · cases h
      · rename_i hlt
        obtain ⟨hvalue, hlen⟩ := Prod.mk.inj h
        have htake : text.takeWhile isDigit = text :=
          (List.takeWhile_prefix _).eq_of_length (beq_iff_eq.1 hlen)
        rw [htake] at hne hlt hvalue
        exact ⟨hne, List.all_eq_true.2 (List.takeWhile_eq_self_iff.1 htake), hvalue, by omega⟩

theorem toUint64_bad (h : ∀ n, ¬IsLength text n) : (toUint64 text).2 = false := by
  rcases hr : toUint64 text with ⟨n, _ | _⟩
  · rfl
  · exact absurd (isLength_iff.2 hr) (h n)

theorem trim_eq_nil_iff : (text.dropWhile isHttpWs).rdropWhile isHttpWs = [] ↔ ∀ ch ∈ text, isHttpWs ch = true := by
  rw [List.rdropWhile_eq_nil_iff]
  constructor
  · intro h
    rw [← List.dropWhile_eq_nil_iff]
    by_contra hne
    have hhead := List.head_dropWhile_not isHttpWs hne
    rw [h _ (List.head_mem hne)] at hhead
    cases hhead
  · intro h ch hch
    rw [List.dropWhile_eq_nil_iff.2 h] at hch
    cases hch

/-- The last of the images of a list that are kept. -/
theorem getLast?_filter_map {α β : Type*} {f : α → β} {p : β → Bool} {b : β} (l : List α) :
    ((l.map f).filter p).getLast? = some b ↔
      p b = true ∧ ∃ front a back, l = front ++ a :: back ∧ f a = b ∧ ∀ x ∈ back, p (f x) = false := by
  induction l using List.reverseRecOn with
  | nil => simp
  | append_singleton l x ih =>
      rw [List.map_append, List.filter_append, List.map_singleton]
      by_cases hx : p (f x) = true
      · rw [List.filter_cons, if_pos hx, List.filter_nil, List.getLast?_concat]
        constructor
        · rintro ⟨⟩
          exact ⟨hx, l, x, [], rfl, rfl, by simp⟩
        · rintro ⟨-, front, a, back, heq, hb, hback⟩
          rcases List.eq_nil_or_concat back with rfl | ⟨back, y, rfl⟩
          · obtain ⟨-, hxa⟩ := List.append_inj' heq rfl
            rw [← hb, (List.cons.inj hxa).1]
          · rw [List.concat_eq_append, ← List.cons_append, ← List.append_assoc] at heq
            obtain ⟨-, hxy⟩ := List.append_inj' heq rfl
            have hno := hback y (by simp)
            rw [← (List.cons.inj hxy).1, hx] at hno
            cases hno
      · have hxf : p (f x) = false := by simpa using hx
        rw [List.filter_cons, if_neg hx, List.filter_nil, List.append_nil, ih]
        constructor
        · rintro ⟨hp, front, a, back, rfl, hb, hback⟩
          refine ⟨hp, front, a, back ++ [x], by simp, hb, fun y hy => ?_⟩
          rcases List.mem_append.1 hy with hy | hy
          · exact hback y hy
          · rw [List.mem_singleton.1 hy, hxf]
        · rintro ⟨hp, front, a, back, heq, hb, hback⟩
          rcases List.eq_nil_or_concat back with rfl | ⟨back, y, rfl⟩
          · obtain ⟨-, hxa⟩ := List.append_inj' heq rfl
            rw [← hb, ← (List.cons.inj hxa).1, hxf] at hp
            cases hp
          · rw [List.concat_eq_append, ← List.cons_append, ← List.append_assoc] at heq
            obtain ⟨hl, -⟩ := List.append_inj' heq rfl
            exact ⟨hp, front, a, back, hl, hb, fun z hz => hback z (by simp [hz])⟩

theorem getLast?_parseTransferEncoding : (parseTransferEncoding te).getLast? = some coding ↔ IsLastCoding te coding := by
  unfold parseTransferEncoding IsLastCoding
  rw [getLast?_filter_map]
  simp only [decide_eq_true_eq, decide_eq_false_iff_not, not_not, trim_eq_nil_iff]

theorem chunkedIsLast_iff :
    (parseTransferEncoding te).getLast?.any (iequal · (ascii "chunked")) = true ↔ ChunkedIsLast te := by
  rw [Option.any_eq_true]
  constructor
  · rintro ⟨coding, hlast, hequal⟩
    exact ⟨coding, getLast?_parseTransferEncoding.1 hlast, iequal_iff.1 hequal⟩
  · rintro ⟨coding, hlast, hequal⟩
    exact ⟨coding, getLast?_parseTransferEncoding.2 hlast, iequal_iff.2 hequal⟩

/-- Without the rules for responses that have no body, the fields decide. -/
theorem determineMessageBodyLength_fields
    (hno : ¬(m = .head ∨ status = some noContent ∨ status = some notModified)) :
    determineMessageBodyLength m status ver cl te =
      if te ≠ [] then
        if (parseTransferEncoding te).getLast?.any (iequal · (ascii "chunked")) then .chunked
        else if status.isSome then .untilEof else .bad
      else if cl ≠ [] then
        match toUint64 cl with
        | (_, false) => .bad
        | (clen, true) => .length clen
      else if status = none then .length 0 else .untilEof := by
  unfold determineMessageBodyLength
  rw [if_neg hno]
  dsimp only
  by_cases hte : te = []
  · simp [hte]
  · simp [hte]

variable (ver cl te) in
/-- The length by the fields of a message. -/
theorem determineMessageBodyLength_follows (hno : ¬(m = .head ∨ status = some noContent ∨ status = some notModified))
    (hbody : ¬NoBody m status) : FollowsRules m status cl te (determineMessageBodyLength m status ver cl te) := by
  rw [determineMessageBodyLength_fields hno]
  refine ⟨fun h => absurd h hbody, fun _ hte hchunked => ?_, fun _ hte hchunked => ?_, fun _ hte n hn => ?_,
    fun _ hte hcl hn => ?_, fun _ hte hcl => ?_⟩
  · rw [if_pos hte, if_pos (chunkedIsLast_iff.2 hchunked)]
  · rw [if_pos hte, if_neg (mt chunkedIsLast_iff.1 hchunked)]
  · rw [if_neg (by simp [hte]), if_pos hn.1, isLength_iff.1 hn]
  · have hbad := toUint64_bad hn
    rw [if_neg (by simp [hte]), if_pos hcl]
    rcases hr : toUint64 cl with ⟨n, _ | _⟩
    · rfl
    · rw [hr] at hbad
      cases hbad
  · rw [if_neg (by simp [hte]), if_neg (by simp [hcl])]
    cases status <;> rfl

variable (ver) in
/-- The fields give the length 0. -/
theorem determineMessageBodyLength_eq_zero_iff
    (hno : ¬(m = .head ∨ status = some noContent ∨ status = some notModified)) :
    determineMessageBodyLength m status ver cl te = .length 0 ↔ FieldsGiveZero status cl te := by
  rw [determineMessageBodyLength_fields hno, FieldsGiveZero]
  by_cases hte : te = []
  · rw [if_neg (by simp [hte])]
    by_cases hcl : cl = []
    · subst hcl
      have hnot : ¬IsLength [] 0 := fun h => h.1 rfl
      rw [if_neg (by simp)]
      cases status <;> simp [hte, hnot]
    · rw [if_pos hcl, isLength_iff]
      rcases toUint64 cl with ⟨n, _ | _⟩ <;> simp [hte, hcl]
  · rw [if_pos hte]
    simp only [hte, false_and, iff_false]
    split
    · simp
    · split <;> simp

/-- No message has two lengths by the rules. -/
theorem FollowsRules.unique {size size' : MessageBodySize} (h : FollowsRules m status cl te size)
    (h' : FollowsRules m status cl te size') : size = size' := by
  by_cases hbody : NoBody m status
  · rw [h.noBody hbody, h'.noBody hbody]
  by_cases hte : te = []
  · by_cases hcl : cl = []
    · rw [h.neither hbody hte hcl, h'.neither hbody hte hcl]
    · by_cases hn : ∃ n, IsLength cl n
      · obtain ⟨n, hn⟩ := hn
        rw [h.length hbody hte n hn, h'.length hbody hte n hn]
      · have hbad : ∀ n, ¬IsLength cl n := fun n h => hn ⟨n, h⟩
        rw [h.badLength hbody hte hcl hbad, h'.badLength hbody hte hcl hbad]
  · by_cases hchunked : ChunkedIsLast te
    · rw [h.chunked hbody hte hchunked, h'.chunked hbody hte hchunked]
    · rw [h.notChunked hbody hte hchunked, h'.notChunked hbody hte hchunked]

/-- The rules of a message with a body do not look at the method. -/
theorem followsRules_method {m' : Verb} {size : MessageBodySize} (hm : ¬NoBody m status) (hm' : ¬NoBody m' status) :
    FollowsRules m status cl te size → FollowsRules m' status cl te size := fun h =>
  ⟨fun hbody => absurd hbody hm', fun _ => h.chunked hm, fun _ => h.notChunked hm, fun _ => h.length hm,
    fun _ => h.badLength hm, fun _ => h.neither hm⟩

/-- Where the function goes by the rules. -/
theorem determine_message_body_length_iff (m : Verb) (status : Option Nat) (ver : Version) (cl te : Bytes) :
    FollowsRules m status cl te (determineMessageBodyLength m status ver cl te) ↔
      (Misjudged m status → FieldsGiveZero status cl te) := by
  by_cases hno : m = .head ∨ status = some noContent ∨ status = some notModified
  · have hzero : determineMessageBodyLength m status ver cl te = .length 0 := if_pos hno
    rw [hzero]
    cases status with
    | some s =>
        have hbody : NoBody m (some s) := by
          refine ⟨s, rfl, ?_⟩
          rcases hno with h | h | h
          · exact .inl h
          · exact .inr (.inr (.inl (Option.some.inj h)))
          · exact .inr (.inr (.inr (.inl (Option.some.inj h))))
        have hjudged : ¬Misjudged m (some s) := by
          rintro (⟨-, h⟩ | ⟨hm, s', hs, hne, hcase⟩)
          · cases h
          · cases hs
            rcases hno with h | h | h
            · exact hm h
            · exact hne (Option.some.inj h)
            · have hs := Option.some.inj h
              rw [hs] at hcase
              rcases hcase with hcase | ⟨-, hcase⟩
              · exact absurd hcase.2 (by decide)
              · exact absurd hcase.2 (by decide)
        exact iff_of_true ⟨fun _ => rfl, fun h => absurd hbody h, fun h => absurd hbody h, fun h => absurd hbody h,
          fun h => absurd hbody h, fun h => absurd hbody h⟩ fun h => absurd h hjudged
    | none =>
        -- a request with the method HEAD, compared with the same request and another method
        have hm : m = .head := by simpa using hno
        have hrequest : ∀ m', ¬NoBody m' none := by rintro m' ⟨s, h, -⟩; cases h
        have hmis : Misjudged m none := .inl ⟨hm, rfl⟩
        have hget : ¬(Verb.get = .head ∨ (none : Option Nat) = some noContent ∨ (none : Option Nat) = some notModified) := by
          decide
        have hrules := followsRules_method (hrequest _) (hrequest m)
          (determineMessageBodyLength_follows te cl ver hget (hrequest _))
        rw [← determineMessageBodyLength_eq_zero_iff ver hget]
        exact ⟨fun h _ => hrules.unique h, fun h => h hmis ▸ hrules⟩
  · by_cases hbody : NoBody m status
    · have hmis : Misjudged m status := by
        obtain ⟨s, rfl, hcase⟩ := hbody
        have hm : m ≠ .head := fun h => hno (.inl h)
        have hcontent : s ≠ noContent := fun h => hno (.inr (.inl (congrArg some h)))
        have hmodified : s ≠ notModified := fun h => hno (.inr (.inr (congrArg some h)))
        refine .inr ⟨hm, s, rfl, hcontent, ?_⟩
        rcases hcase with h | h | h | h | h
        · exact absurd h hm
        · exact .inl h
        · exact absurd h hcontent
        · exact absurd h hmodified
        · exact .inr h
      rw [← determineMessageBodyLength_eq_zero_iff ver hno]
      refine ⟨fun h _ => h.noBody hbody, fun h => ?_⟩
      rw [h hmis]
      exact ⟨fun _ => rfl, fun h => absurd hbody h, fun h => absurd hbody h, fun h => absurd hbody h,
        fun h => absurd hbody h, fun h => absurd hbody h⟩
    · have hjudged : ¬Misjudged m status := by
        rintro (⟨hm, -⟩ | ⟨-, s, hs, -, hcase⟩)
        · exact hno (.inl hm)
        · rcases hcase with h | h
          · exact hbody ⟨s, hs, .inr (.inl h)⟩
          · exact hbody ⟨s, hs, .inr (.inr (.inr (.inr h)))⟩
      exact iff_of_true (determineMessageBodyLength_follows _ _ _ hno hbody) fun h => absurd h hjudged

/-- A response with the status 100 and no fields would have a body until the end of the connection. -/
theorem continue_has_body :
    ¬FollowsRules .get (some 100) [] [] (determineMessageBodyLength .get (some 100) .v1_1 [] []) := fun h =>
  absurd (h.noBody ⟨100, rfl, .inr (.inl (by decide))⟩) (by decide)

end

end Rad.Http
