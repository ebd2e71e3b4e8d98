import Mathlib.Data.Finset.Image
import Rad.Dns.Name

/-!
# Names by their parts

A name is spelled by a chain of parts: labels, and then a root label or a pointer to the next part. The parser accepts
the names that are spelled by parts of which it accepts each.
-/

namespace Rad.Dns

/-! ## The syntax of names -/

/-- The part of `b` has the labels `ls` and ends with a pointer to `b'`. -/
def PointerTo (whole : Bytes) (b : Buffer) (ls : List Bytes) (b' : Buffer) : Prop :=
  ∃ byte1 byte2 rest, b.data = labelsWire ls ++ byte1 :: byte2 :: rest ∧ byte1 &&& 0xc0 = 0xc0 ∧
    extractOffset byte1 byte2 < whole.length ∧
    b' = ⟨extractOffset byte1 byte2, whole.drop (extractOffset byte1 byte2)⟩

/-- The labels that are spelled from `b` on, and the count of bytes that the name occupies there, where each part meets
a condition on its labels and on the position that it points to. -/
inductive Spells (whole : Bytes) (part : Buffer → List Bytes → Option Nat → Prop) : Buffer → List Bytes → Nat → Prop where
  | root {b : Buffer} {ls : List Bytes} {rest : Bytes} (hdata : b.data = labelsWire ls ++ 0 :: rest)
      (hpart : part b ls none) : Spells whole part b ls ((labelsWire ls).length + 1)
  | pointer {b b' : Buffer} {ls ls' : List Bytes} {n : Nat} (hpointer : PointerTo whole b ls b')
      (hpart : part b ls (some b'.pos)) (hnext : Spells whole part b' ls' n) :
      Spells whole part b (ls ++ ls') ((labelsWire ls).length + 2)

/-- What labels are by themselves. -/
def LabelsPart (_ : Buffer) (ls : List Bytes) (_ : Option Nat) : Prop := ∀ l ∈ ls, 1 ≤ l.length ∧ l.length ≤ 63

/-- What the parser asks of one part: its length bytes are among its first 255 bytes, and its pointer does not point
behind its own end. -/
def CheckedPart (b : Buffer) (ls : List Bytes) (target : Option Nat) : Prop :=
  LabelsFrom 0 ls ∧ ∀ t ∈ target, t ≤ b.pos + (labelsWire ls).length + 2

/-- The parser goes on from a part `b` of the message to `b'`. -/
def PointsTo (whole : Bytes) (b b' : Buffer) : Prop :=
  b.In whole ∧ ∃ ls, PointerTo whole b ls b' ∧ CheckedPart b ls (some b'.pos)

/-- The pointers that are followed from `b` come back to a position. -/
def Circular (whole : Bytes) (b : Buffer) : Prop :=
  ∃ b', Relation.ReflTransGen (PointsTo whole) b b' ∧ Relation.TransGen (PointsTo whole) b' b'

section

variable {whole out : Bytes} {b b' : Buffer} {ls ls' : List Bytes} {n : Nat}

theorem PointerTo.isIn (h : PointerTo whole b ls b') : b'.In whole := by
  obtain ⟨byte1, byte2, rest, -, -, hlt, rfl⟩ := h
  exact ⟨List.prefix_refl _, Nat.le_of_lt hlt⟩

theorem Spells.mono {p q : Buffer → List Bytes → Option Nat → Prop} (hpq : ∀ b ls t, p b ls t → q b ls t)
    (h : Spells whole p b ls n) : Spells whole q b ls n := by
  induction h with
  | root hdata hpart => exact .root hdata (hpq _ _ _ hpart)
  | pointer hpointer hpart _ ih => exact .pointer hpointer (hpq _ _ _ hpart) ih

theorem CheckedPart.labels {t : Option Nat} (h : CheckedPart b ls t) : LabelsPart b ls t := h.1.length_le

/-- Labels are separated from what is no label in one way only. -/
theorem labelsWire_append_inj {x y : UInt8} {t t' : Bytes} (hls : ∀ l ∈ ls, 1 ≤ l.length ∧ l.length ≤ 63)
    (hls' : ∀ l ∈ ls', 1 ≤ l.length ∧ l.length ≤ 63) (hx : x = 0 ∨ x &&& 0xc0 = 0xc0) (hy : y = 0 ∨ y &&& 0xc0 = 0xc0)
    (h : labelsWire ls ++ x :: t = labelsWire ls' ++ y :: t') : ls = ls' ∧ x :: t = y :: t' := by
  have hlabel : ∀ {l : Bytes} {z : UInt8}, 1 ≤ l.length ∧ l.length ≤ 63 → z = 0 ∨ z &&& 0xc0 = 0xc0 →
      UInt8.ofNat l.length ≠ z := by
    rintro l z hl hz rfl
    have htoNat : (UInt8.ofNat l.length).toNat = l.length :=
      UInt8.toNat_ofNat_of_lt' (Nat.lt_of_le_of_lt hl.2 (by decide))
    rcases hz with hz | hz
    · rw [hz, UInt8.toNat_zero] at htoNat
      omega
    · exact label_and_eq (by omega) hz
  induction ls generalizing ls' with
  | nil =>
      cases ls' with
      | nil => exact ⟨rfl, h⟩
      | cons l' ls' => exact absurd (List.cons.inj h).1.symm (hlabel (hls' l' List.mem_cons_self) hx)
  | cons l ls ih =>
      have hl := hls l List.mem_cons_self
      cases ls' with
      | nil => exact absurd (List.cons.inj h).1 (hlabel hl hy)
      | cons l' ls' =>
          have hl' := hls' l' List.mem_cons_self
          rw [labelsWire_cons, labelsWire_cons, List.cons_append, List.cons_append] at h
          obtain ⟨hlen, htext⟩ := List.cons.inj h
          have hlength : l.length = l'.length := by
            have := congrArg UInt8.toNat hlen
            rwa [UInt8.toNat_ofNat_of_lt' (Nat.lt_of_le_of_lt hl.2 (by decide)),
              UInt8.toNat_ofNat_of_lt' (Nat.lt_of_le_of_lt hl'.2 (by decide))] at this
          rw [List.append_assoc, List.append_assoc] at htext
          obtain ⟨rfl, hrest⟩ := List.append_inj htext hlength
          obtain ⟨rfl, ht⟩ := ih (fun l hl => hls l (List.mem_cons_of_mem _ hl))
            (fun l hl => hls' l (List.mem_cons_of_mem _ hl)) hrest
          exact ⟨rfl, ht⟩

theorem PointerTo.unique {b'' : Buffer} (h : PointerTo whole b ls b') (h' : PointerTo whole b ls' b'')
    (hls : ∀ l ∈ ls, 1 ≤ l.length ∧ l.length ≤ 63) (hls' : ∀ l ∈ ls', 1 ≤ l.length ∧ l.length ≤ 63) :
    ls = ls' ∧ b' = b'' := by
  obtain ⟨byte1, byte2, rest, hdata, hb1, -, rfl⟩ := h
  obtain ⟨byte1', byte2', rest', hdata', hb1', -, rfl⟩ := h'
  rw [hdata] at hdata'
  obtain ⟨rfl, htail⟩ := labelsWire_append_inj hls hls' (.inr hb1) (.inr hb1') hdata'
  cases htail
  exact ⟨rfl, rfl⟩

/-- A buffer spells one name at most. -/
theorem Spells.unique {n' : Nat} (h : Spells whole LabelsPart b ls n) (h' : Spells whole LabelsPart b ls' n') :
    ls = ls' ∧ n = n' := by
  induction h generalizing ls' n' with
  | root hdata hpart =>
      cases h' with
      | root hdata' hpart' =>
          rw [hdata] at hdata'
          obtain ⟨rfl, -⟩ := labelsWire_append_inj hpart hpart' (.inl rfl) (.inl rfl) hdata'
          exact ⟨rfl, rfl⟩
      | pointer hpointer hpart' _ =>
          obtain ⟨byte1, byte2, rest, hdata', hb1, -⟩ := hpointer
          rw [hdata] at hdata'
          obtain ⟨-, htail⟩ := labelsWire_append_inj hpart hpart' (.inl rfl) (.inr hb1) hdata'
          rw [← (List.cons.inj htail).1] at hb1
          exact absurd hb1 (by decide)
  | pointer hpointer hpart _ ih =>
      cases h' with
      | root hdata' hpart' =>
          obtain ⟨byte1, byte2, rest, hdata, hb1, -⟩ := hpointer
          rw [hdata] at hdata'
          obtain ⟨-, htail⟩ := labelsWire_append_inj hpart hpart' (.inr hb1) (.inl rfl) hdata'
          rw [(List.cons.inj htail).1] at hb1
          exact absurd hb1 (by decide)
      | pointer hpointer' hpart' hnext' =>
          obtain ⟨rfl, rfl⟩ := hpointer.unique hpointer' hpart hpart'
          obtain ⟨rfl, -⟩ := ih hnext'
          exact ⟨rfl, rfl⟩

/-! ## One part -/

theorem readPart_root {rest : Bytes} (hdata : b.data = labelsWire ls ++ 0 :: rest) (hls : LabelsFrom 0 ls)
    (wholeSize : Nat) (out : Bytes) :
    readPart wholeSize b.pos 0 b.data out = .root ((labelsWire ls).length + 1) (popDot (out ++ labelsText ls)) := by
  rw [hdata, readPart_labels hls (List.cons_ne_nil _ _), readPart, if_pos rfl, Nat.zero_add]

theorem end_le_of_in {t : Bytes} (hin : b.In whole) (hdata : b.data = labelsWire ls ++ t) :
    b.pos + (labelsWire ls).length + t.length ≤ whole.length := by
  have hlen := hin.1.length_le
  have hpos := hin.2
  rw [hdata, List.length_append, List.length_drop] at hlen
  omega

theorem readPart_pointer (hwhole : whole.length ≤ 65535) (hin : b.In whole) (hpointer : PointerTo whole b ls b')
    (hpart : CheckedPart b ls (some b'.pos)) (out : Bytes) :
    readPart whole.length b.pos 0 b.data out =
      .pointer ((labelsWire ls).length + 2) b'.pos (out ++ labelsText ls) := by
  obtain ⟨byte1, byte2, rest, hdata, hb1, hlt, rfl⟩ := hpointer
  have hend := end_le_of_in hin hdata
  rw [List.length_cons, List.length_cons] at hend
  have hpos : (b.pos + ((labelsWire ls).length + 2)) % 2 ^ 16 = b.pos + ((labelsWire ls).length + 2) :=
    Nat.mod_eq_of_lt (by omega)
  have htarget : extractOffset byte1 byte2 ≤ b.pos + (labelsWire ls).length + 2 := hpart.2 _ rfl
  have hzero : byte1 ≠ 0 := by
    rintro rfl
    exact absurd hb1 (by decide)
  rw [hdata, readPart_labels hpart.1 (List.cons_ne_nil _ _), readPart, if_neg hzero, if_pos hb1, readPointer,
    Nat.zero_add, hpos, if_neg (by omega), if_neg (by omega)]

/-- A part that is not accepted is no beginning of a name. -/
theorem readPart_cases (hwhole : whole.length ≤ 65535) (hin : b.In whole) :
    (∃ ls rest, b.data = labelsWire ls ++ 0 :: rest ∧ LabelsFrom 0 ls) ∨
      (∃ ls b', PointerTo whole b ls b' ∧ CheckedPart b ls (some b'.pos)) ∨
      ∀ out, ∃ out', readPart whole.length b.pos 0 b.data out = .broken out' := by
  obtain ⟨ls, tail, hdata, hls, hnil, htail⟩ := exists_labels 0 b.data
  rw [Nat.zero_add] at htail
  cases tail with
  | nil =>
      refine .inr (.inr fun out => ⟨out, ?_⟩)
      rw [hnil rfl, readPart]
  | cons len t =>
      have hend := end_le_of_in hin hdata
      rw [List.length_cons] at hend
      by_cases hzero : len = 0
      · exact .inl ⟨ls, t, hzero ▸ hdata, hls⟩
      by_cases hlen : len &&& 0xc0 = 0xc0
      · have hread : ∀ out, readPart whole.length b.pos 0 b.data out =
            readPointer whole.length b.pos (labelsWire ls).length len t (out ++ labelsText ls) := by
          intro out
          rw [hdata, readPart_labels hls (List.cons_ne_nil _ _), readPart, if_neg hzero, if_pos hlen, Nat.zero_add]
        cases t with
        | nil => exact .inr (.inr fun out => ⟨_, hread out⟩)
        | cons next rest =>
            rw [List.length_cons] at hend
            have hpos : (b.pos + ((labelsWire ls).length + 2)) % 2 ^ 16 = b.pos + ((labelsWire ls).length + 2) :=
              Nat.mod_eq_of_lt (by omega)
            simp only [readPointer, hpos] at hread
            by_cases hsize : extractOffset len next ≥ whole.length
            · exact .inr (.inr fun out => ⟨_, (hread out).trans (if_pos hsize)⟩)
            by_cases htarget : extractOffset len next > b.pos + ((labelsWire ls).length + 2)
            · exact .inr (.inr fun out => ⟨_, (hread out).trans ((if_neg hsize).trans (if_pos htarget))⟩)
            · refine .inr (.inl ⟨ls, _, ⟨len, next, rest, hdata, hlen, by omega, rfl⟩, hls, ?_⟩)
              rintro _ ⟨⟩
              show extractOffset len next ≤ _
              omega
      · refine .inr (.inr fun out => ⟨out ++ labelsText ls, ?_⟩)
        rw [hdata, readPart_labels hls (List.cons_ne_nil _ _), readPart, if_neg hzero, if_neg hlen, Nat.zero_add]
        rcases htail len t rfl with h | h | h | h | h
        · exact absurd h hzero
        · exact absurd h hlen
        · rw [if_pos (.inl h)]
        · rw [if_pos (.inr h)]
        · rw [if_pos h, ite_self]

/-! ## Names -/

theorem Spells.pos {p : Buffer → List Bytes → Option Nat → Prop} (h : Spells whole p b ls n) : 0 < n := by
  cases h <;> exact Nat.succ_pos _

theorem parseDomainName_mono {depth depth' : Nat} {r : NameResult} (h : parseDomainName whole depth b out = some r)
    (hle : depth ≤ depth') : parseDomainName whole depth' b out = some r := by
  induction depth generalizing b out depth' r with
  | zero => cases h
  | succ depth ih =>
      obtain ⟨depth', rfl⟩ : ∃ d, depth' = d + 1 := ⟨depth' - 1, by omega⟩
      rw [parseDomainName] at h ⊢
      split at h
      · exact h
      · exact h
      · obtain ⟨r', hr', rfl⟩ := Option.map_eq_some_iff.1 h
        rw [ih hr' (Nat.le_of_succ_le_succ hle)]
        rfl

theorem parseDomainName_unique {depth depth' : Nat} {r r' : NameResult}
    (h : parseDomainName whole depth b out = some r) (h' : parseDomainName whole depth' b out = some r') : r = r' := by
  have hmax := parseDomainName_mono h (Nat.le_max_left depth depth')
  rw [parseDomainName_mono h' (Nat.le_max_right depth depth')] at hmax
  exact (Option.some.inj hmax).symm

/-- A name that is accepted is spelled by parts that are accepted. -/
theorem spells_of_parse (hwhole : whole.length ≤ 65535) {depth : Nat} {r : NameResult} (hin : b.In whole)
    (h : parseDomainName whole depth b out = some r) (hok : r.ec = none) :
    ∃ ls, Spells whole CheckedPart b ls r.count ∧ r.out = popDot (out ++ labelsText ls) := by
  induction depth generalizing b out r with
  | zero => cases h
  | succ depth ih =>
      rw [parseDomainName] at h
      rcases readPart_cases hwhole hin with ⟨ls, rest, hdata, hls⟩ | ⟨ls, b', hpointer, hpart⟩ | hbroken
      · rw [readPart_root hdata hls] at h
        cases h
        exact ⟨ls, .root hdata ⟨hls, nofun⟩, rfl⟩
      · rw [readPart_pointer hwhole hin hpointer hpart] at h
        obtain ⟨byte1, byte2, rest, -, -, -, hb'⟩ := id hpointer
        obtain ⟨r', hr', rfl⟩ := Option.map_eq_some_iff.1 h
        split at hok
        · cases hok
        · rename_i hinner
          rw [not_or, Option.not_isSome_iff_eq_none] at hinner
          have htarget : (⟨b'.pos, whole.drop b'.pos⟩ : Buffer) = b' := by rw [hb']
          rw [htarget] at hr'
          obtain ⟨ls', hspells, hout⟩ := ih hpointer.isIn hr' hinner.2
          refine ⟨ls ++ ls', ?_, ?_⟩
          · rw [if_neg (by rw [not_or, Option.not_isSome_iff_eq_none]; exact hinner)]
            exact .pointer hpointer hpart hspells
          · rw [if_neg (by rw [not_or, Option.not_isSome_iff_eq_none]; exact hinner), labelsText_append,
              ← List.append_assoc]
            exact hout
      · obtain ⟨out', hread⟩ := hbroken out
        rw [hread] at h
        cases h
        cases hok

/-- A name that is spelled by parts that are accepted is accepted. -/
theorem parse_of_spells (hwhole : whole.length ≤ 65535) (hin : b.In whole) (h : Spells whole CheckedPart b ls n)
    (out : Bytes) : ∃ depth, parseDomainName whole depth b out = some ⟨n, popDot (out ++ labelsText ls), none⟩ := by
  induction h generalizing out with
  | root hdata hpart =>
      refine ⟨1, ?_⟩
      rw [parseDomainName, readPart_root hdata hpart.1]
  | @pointer b b' ls ls' n hpointer hpart hnext ih =>
      obtain ⟨byte1, byte2, rest, -, -, -, hb'⟩ := id hpointer
      obtain ⟨depth, hdepth⟩ := ih hpointer.isIn (out ++ labelsText ls)
      have htarget : (⟨b'.pos, whole.drop b'.pos⟩ : Buffer) = b' := by rw [hb']
      have hne : ¬(n = 0 ∨ (none : Option Error).isSome) := by
        rintro (h | h)
        · exact absurd h (Nat.pos_iff_ne_zero.1 hnext.pos)
        · cases h
      refine ⟨depth + 1, ?_⟩
      rw [parseDomainName, readPart_pointer hwhole hin hpointer hpart]
      simp only [htarget, hdepth, Option.map_some, if_neg hne, labelsText_append, List.append_assoc]

/-! ## Termination -/

/-- One part as a pass of a loop. -/
def partPass (whole : Bytes) (b : Buffer) : Lib.Pass Buffer Unit :=
  match readPart whole.length b.pos 0 b.data [] with
  | .pointer _ offset _ => .next ⟨offset, whole.drop offset⟩
  | _ => .done ()

theorem partPass_of_pointsTo (hwhole : whole.length ≤ 65535) (h : PointsTo whole b b') :
    partPass whole b = .next b' := by
  obtain ⟨hin, ls, hpointer, hpart⟩ := h
  obtain ⟨byte1, byte2, rest, -, -, -, hb'⟩ := id hpointer
  rw [partPass, readPart_pointer hwhole hin hpointer hpart, hb']

theorem pointsTo_of_partPass (hwhole : whole.length ≤ 65535) (hin : b.In whole) (h : partPass whole b = .next b') :
    PointsTo whole b b' := by
  rw [partPass] at h
  rcases readPart_cases hwhole hin with ⟨ls, rest, hdata, hls⟩ | ⟨ls, b'', hpointer, hpart⟩ | hbroken
  · rw [readPart_root hdata hls] at h
    cases h
  · obtain ⟨byte1, byte2, rest, -, -, -, hb''⟩ := id hpointer
    have htarget : (⟨b''.pos, whole.drop b''.pos⟩ : Buffer) = b'' := by rw [hb'']
    rw [readPart_pointer hwhole hin hpointer hpart] at h
    simp only [htarget] at h
    cases h
    exact ⟨hin, ls, hpointer, hpart⟩
  · obtain ⟨out', hread⟩ := hbroken []
    rw [hread] at h
    cases h

/-- The parser returns exactly when the loop over its parts does. -/
theorem exists_parse_iff_returns (hwhole : whole.length ≤ 65535) (hin : b.In whole) (out : Bytes) :
    (∃ depth r, parseDomainName whole depth b out = some r) ↔ ∃ u, Lib.Returns (partPass whole) b u := by
  constructor
  · rintro ⟨depth, r, h⟩
    induction depth generalizing b out r with
    | zero => cases h
    | succ depth ih =>
        cases hpass : partPass whole b with
        | done u => exact ⟨u, .done hpass⟩
        | next b' =>
            obtain ⟨-, ls, hpointer, hpart⟩ := pointsTo_of_partPass hwhole hin hpass
            obtain ⟨byte1, byte2, rest, -, -, -, hb'⟩ := id hpointer
            have htarget : (⟨b'.pos, whole.drop b'.pos⟩ : Buffer) = b' := by rw [hb']
            rw [parseDomainName, readPart_pointer hwhole hin hpointer hpart] at h
            simp only [htarget] at h
            obtain ⟨r', hr', -⟩ := Option.map_eq_some_iff.1 h
            obtain ⟨u, hu⟩ := ih hpointer.isIn _ r' hr'
            exact ⟨u, .next hpass hu⟩
  · rintro ⟨u, h⟩
    induction h generalizing out with
    | @done b u hdone =>
        refine ⟨1, ?_⟩
        rw [parseDomainName]
        rcases readPart_cases hwhole hin with ⟨ls, rest, hdata, hls⟩ | ⟨ls, b', hpointer, hpart⟩ | hbroken
        · rw [readPart_root hdata hls]
          exact ⟨_, rfl⟩
        · rw [partPass_of_pointsTo hwhole ⟨hin, ls, hpointer, hpart⟩] at hdone
          cases hdone
        · obtain ⟨out', hread⟩ := hbroken out
          rw [hread]
          exact ⟨_, rfl⟩
    | @next b b' u hnext _ ih =>
        obtain ⟨-, ls, hpointer, hpart⟩ := pointsTo_of_partPass hwhole hin hnext
        obtain ⟨byte1, byte2, rest, -, -, -, hb'⟩ := id hpointer
        have htarget : (⟨b'.pos, whole.drop b'.pos⟩ : Buffer) = b' := by rw [hb']
        obtain ⟨depth, r, hr⟩ := ih hpointer.isIn (out ++ labelsText ls)
        refine ⟨depth + 1, ?_⟩
        rw [parseDomainName, readPart_pointer hwhole hin hpointer hpart]
        simp only [htarget, hr, Option.map_some]
        exact ⟨_, rfl⟩

theorem pointsTo_of_visits (hwhole : whole.length ≤ 65535) (hin : b.In whole)
    (h : Lib.Visits (partPass whole) b b') : Relation.ReflTransGen (PointsTo whole) b b' ∧ b'.In whole := by
  induction h with
  | refl => exact ⟨.refl, hin⟩
  | tail _ hnext ih =>
      have hpoints := pointsTo_of_partPass hwhole ih.2 hnext
      obtain ⟨-, ls, hpointer, -⟩ := id hpoints
      exact ⟨ih.1.tail hpoints, hpointer.isIn⟩

/-- The parser returns exactly when the pointers do not come back to a position. -/
theorem exists_parse_iff (hwhole : whole.length ≤ 65535) (hin : b.In whole) (out : Bytes) :
    (∃ depth r, parseDomainName whole depth b out = some r) ↔ ¬Circular whole b := by
  have hvisits : ∀ b', Lib.Visits (partPass whole) b b' →
      b' ∈ insert b ((Finset.range whole.length).image fun t => (⟨t, whole.drop t⟩ : Buffer)) := by
    intro b' h
    rw [Finset.mem_insert, Finset.mem_image]
    rcases (pointsTo_of_visits hwhole hin h).1.cases_tail with rfl | ⟨b'', -, -, ls, hpointer, -⟩
    · exact .inl rfl
    · obtain ⟨byte1, byte2, rest, -, -, hlt, rfl⟩ := hpointer
      exact .inr ⟨_, Finset.mem_range.2 hlt, rfl⟩
  rw [exists_parse_iff_returns hwhole hin out, Lib.exists_returns_iff_acyclic hvisits]
  constructor
  · rintro h ⟨b', hreach, hcycle⟩
    have hle : PointsTo whole ≤ fun s t => partPass whole s = .next t := fun _ _ => partPass_of_pointsTo hwhole
    exact h b' (Relation.ReflTransGen.mono hle _ _ hreach) (Relation.TransGen.mono hle _ _ hcycle)
  · intro h b' hreach hcycle
    obtain ⟨hpoints, hin'⟩ := pointsTo_of_visits hwhole hin hreach
    obtain ⟨b'', hnext, hback⟩ := Relation.TransGen.head'_iff.1 hcycle
    have hfirst := pointsTo_of_partPass hwhole hin' hnext
    obtain ⟨-, ls, hpointer, -⟩ := id hfirst
    exact h ⟨b', hpoints, .head' hfirst (pointsTo_of_visits hwhole hpointer.isIn hback).1⟩

end

end Rad.Dns
