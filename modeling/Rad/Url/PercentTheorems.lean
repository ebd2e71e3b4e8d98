import Mathlib
import Rad.Url.Lemmas.Decode

/-!
# Percent coding

What is encoded with the default set is decoded again. With another set the writers, which look at bytes, can get out of
step with the passes that count, which look at code points or take the default set.
-/

namespace Rad.Url

open Lib

variable {f : Nat → Bool} {cps : List Nat} {cp : Nat} {input rest bytes decoded : Bytes}

/-! ## The first byte and the others -/

/-- The first byte of the sequence is written as it stands. -/
def keepsFirst (f : Nat → Bool) (cp : Nat) : Bool := (utf8Encode cp).head?.any fun b => f b.toNat

/-- What the writer makes of a character of which it leaves no byte that begins no sequence. -/
def writtenText (f : Nat → Bool) (cp : Nat) : Bytes :=
  if keepsFirst f cp then utf8Encode cp else (utf8Encode cp).flatMap percentByte

/-- The writer comes to a byte that begins no sequence and has to be encoded. -/
def Sticks (f : Nat → Bool) (cp : Nat) : Prop := keepsFirst f cp = true ∧ ∃ b ∈ utf8Encode cp, f b.toNat = false

/-- The bytes that are written for a character without having been counted. -/
def surplus (f : Nat → Bool) (cp : Nat) : Int :=
  match f cp, keepsFirst f cp with
  | true, true => utf8CodepointSize cp - 1
  | true, false => utf8CodepointSize cp * 3 - 1
  | false, true => -(utf8CodepointSize cp * 2)
  | false, false => 0

/-- The bytes that a character becomes longer by, as it is counted. -/
def growth (f : Nat → Bool) (cp : Nat) : Int := if f cp then 1 - utf8CodepointSize cp else utf8CodepointSize cp * 2

/-- The text is counted as long as it is, and copied; or no character sticks and what is counted too little for some
characters is counted too much for others. -/
def EncodesInStep (f : Nat → Bool) (cps : List Nat) : Prop :=
  (cps.map (growth f)).sum = 0 ∨ (∀ cp ∈ cps, ¬Sticks f cp) ∧ (cps.map (surplus f)).sum = 0

def countedSize (f : Nat → Bool) (cp : Nat) : Nat := if f cp then 1 else utf8CodepointSize cp * 3

theorem length_writtenText (hvalid : isValidCodepoint cp = true) :
    ((writtenText f cp).length : Int) = countedSize f cp + surplus f cp := by
  have hlength := length_utf8Encode hvalid
  rw [writtenText, countedSize, surplus]
  cases f cp <;> cases keepsFirst f cp <;>
    simp only [Bool.false_eq_true, if_true, if_false, length_flatMap_percentByte, hlength] <;> omega

theorem countedSize_eq : (countedSize f cp : Int) = utf8CodepointSize cp + growth f cp := by
  rw [countedSize, growth]
  cases f cp <;> simp only [Bool.false_eq_true, if_true, if_false] <;> omega

theorem sum_countedSize (hvalid : ∀ cp ∈ cps, isValidCodepoint cp = true) :
    ((cps.map (countedSize f)).sum : Int) = (cps.flatMap utf8Encode).length + (cps.map (growth f)).sum := by
  induction cps with
  | nil => rfl
  | cons cp cps ih =>
      obtain ⟨hcp, hvalid⟩ := List.forall_mem_cons.1 hvalid
      have hlength := length_utf8Encode hcp
      have hcounted := @countedSize_eq f cp
      have ih := ih hvalid
      simp only [List.map_cons, List.sum_cons, List.flatMap_cons, List.length_append]
      omega

theorem length_written (hvalid : ∀ cp ∈ cps, isValidCodepoint cp = true) :
    ((cps.flatMap (writtenText f)).length : Int) = (cps.map (countedSize f)).sum + (cps.map (surplus f)).sum := by
  induction cps with
  | nil => rfl
  | cons cp cps ih =>
      obtain ⟨hcp, hvalid⟩ := List.forall_mem_cons.1 hvalid
      have hlength := @length_writtenText f cp hcp
      have ih := ih hvalid
      simp only [List.map_cons, List.sum_cons, List.flatMap_cons, List.length_append]
      omega

/-! ## The writer of escapes -/

theorem visits_kept {chunk : Bytes} (h : ∀ b ∈ chunk, f b.toNat = true) (rest output : Bytes) :
    Visits (percentEncodePass f) ⟨chunk ++ rest, output⟩ ⟨rest, output ++ chunk⟩ := by
  induction chunk generalizing output with
  | nil =>
      rw [List.append_nil]
      exact .refl
  | cons b chunk ih =>
      obtain ⟨hb, hchunk⟩ := List.forall_mem_cons.1 h
      have hpass : percentEncodePass f ⟨b :: chunk ++ rest, output⟩ = .next ⟨chunk ++ rest, output ++ [b]⟩ := if_pos hb
      have hvisits := ih hchunk (output ++ [b])
      rw [List.append_assoc, List.singleton_append] at hvisits
      exact .head hpass hvisits

theorem visits_character (hvalid : isValidCodepoint cp = true) (hsticks : ¬Sticks f cp) (rest output : Bytes) :
    Visits (percentEncodePass f) ⟨utf8Encode cp ++ rest, output⟩ ⟨rest, output ++ writtenText f cp⟩ := by
  rw [writtenText]
  split
  · rename_i hfirst
    refine visits_kept (fun b hb => ?_) rest output
    by_contra hkept
    exact hsticks ⟨hfirst, b, hb, Bool.eq_false_iff.2 hkept⟩
  · rename_i hfirst
    obtain ⟨b, conts, htext, hsize, -⟩ := utf8Encode_eq_cons hvalid
    have hb : f b.toNat = false := by
      rw [keepsFirst, htext, List.head?_cons, Option.any_some] at hfirst
      exact Bool.eq_false_iff.2 hfirst
    have hroom : ¬(b :: (conts ++ rest)).length < conts.length + 1 := by
      rw [List.length_cons, List.length_append]
      omega
    refine .single ?_
    rw [htext, List.cons_append, percentEncodePass]
    simp only [hb, Bool.false_eq_true, if_false, hsize, hroom, List.drop_succ_cons, List.take_succ_cons, List.drop_left,
      List.take_left]

theorem visits_characters (hvalid : ∀ cp ∈ cps, isValidCodepoint cp = true) (hsticks : ∀ cp ∈ cps, ¬Sticks f cp)
    (rest output : Bytes) :
    Visits (percentEncodePass f) ⟨cps.flatMap utf8Encode ++ rest, output⟩
      ⟨rest, output ++ cps.flatMap (writtenText f)⟩ := by
  induction cps generalizing output with
  | nil =>
      rw [List.flatMap_nil, List.flatMap_nil, List.append_nil]
      exact .refl
  | cons cp cps ih =>
      obtain ⟨hcp, hvalid⟩ := List.forall_mem_cons.1 hvalid
      obtain ⟨hcp', hsticks⟩ := List.forall_mem_cons.1 hsticks
      have hhead := visits_character hcp hcp' (cps.flatMap utf8Encode ++ rest) output
      have htail := ih hvalid hsticks (output ++ writtenText f cp)
      rw [List.append_assoc] at htail
      rw [List.flatMap_cons, List.flatMap_cons, List.append_assoc]
      exact hhead.trans htail

/-- Before a byte that begins no sequence the writer stays. -/
theorem not_returns_sticks (hvalid : isValidCodepoint cp = true) (hsticks : Sticks f cp) (rest output : Bytes)
    (r : Option Bytes) : ¬Returns (percentEncodePass f) ⟨utf8Encode cp ++ rest, output⟩ r := by
  obtain ⟨hfirst, c, hc, hkept⟩ := hsticks
  obtain ⟨b, conts, htext, -, hconts⟩ := utf8Encode_eq_cons hvalid
  have hb : f b.toNat = true := by
    rw [keepsFirst, htext, List.head?_cons, Option.any_some] at hfirst
    exact hfirst
  have hmem : ∃ c ∈ conts, f c.toNat = false := by
    rw [htext, List.mem_cons] at hc
    rcases hc with rfl | hc
    · rw [hb] at hkept
      cases hkept
    · exact ⟨c, hc, hkept⟩
  obtain ⟨front, c, back, hsplit, hfront, hc⟩ : ∃ front c back, conts = front ++ c :: back ∧
      (∀ b ∈ front, f b.toNat = true) ∧ f c.toNat = false := by
    clear htext
    induction conts with
    | nil =>
        obtain ⟨c, hc, -⟩ := hmem
        cases hc
    | cons d conts ih =>
        cases hd : f d.toNat with
        | false => exact ⟨[], d, conts, rfl, nofun, hd⟩
        | true =>
            obtain ⟨c, hc, hkept⟩ := hmem
            rcases List.mem_cons.1 hc with rfl | hc
            · rw [hd] at hkept
              cases hkept
            obtain ⟨front, c', back, hsplit, hfront, hc'⟩ :=
              ih (fun c hc => hconts c (List.mem_cons_of_mem _ hc)) ⟨c, hc, hkept⟩
            exact ⟨d :: front, c', back, by rw [hsplit, List.cons_append], List.forall_mem_cons.2 ⟨hd, hfront⟩, hc'⟩
  have hzero : utf8SequenceSize c = 0 :=
    utf8SequenceSize_continuation (hconts c (by rw [hsplit]; simp))
  have hstays : ∀ output, percentEncodePass f ⟨c :: (back ++ rest), output⟩ = .next ⟨c :: (back ++ rest), output⟩ := by
    intro output
    rw [percentEncodePass]
    simp only [hc, Bool.false_eq_true, if_false, hzero, Nat.not_lt_zero, List.drop_zero, List.take_zero, List.flatMap_nil,
      List.append_nil]
  have hvisits := visits_kept (List.forall_mem_cons.2 ⟨hb, hfront⟩) (c :: (back ++ rest)) output
  rw [htext, hsplit]
  simp only [List.cons_append, List.append_assoc] at hvisits ⊢
  intro hreturns
  exact not_returns_of_trap (D := fun s => s = ⟨c :: (back ++ rest), output ++ b :: front⟩)
    (fun s hs => ⟨s, by rw [hs]; exact hstays _, hs⟩) rfl r (hvisits.returns_of hreturns)

theorem not_returns_of_sticks (hvalid : ∀ cp ∈ cps, isValidCodepoint cp = true) (hsticks : ∃ cp ∈ cps, Sticks f cp)
    (output : Bytes) (r : Option Bytes) : ¬Returns (percentEncodePass f) ⟨cps.flatMap utf8Encode, output⟩ r := by
  induction cps generalizing output with
  | nil =>
      obtain ⟨cp, hcp, -⟩ := hsticks
      cases hcp
  | cons cp cps ih =>
      obtain ⟨hcp, hvalid⟩ := List.forall_mem_cons.1 hvalid
      rw [List.flatMap_cons]
      by_cases h : Sticks f cp
      · exact not_returns_sticks hcp h _ output r
      · obtain ⟨cp', hmem, hcp'⟩ := hsticks
        have hmem' : cp' ∈ cps := by
          rcases List.mem_cons.1 hmem with rfl | hmem
          · exact absurd hcp' h
          · exact hmem
        intro hreturns
        exact ih hvalid ⟨cp', hmem', hcp'⟩ _ ((visits_character hcp h _ output).returns_of hreturns)

theorem countedSize_pos : 0 < countedSize f cp := by
  rw [countedSize, utf8CodepointSize]
  repeat' split
  all_goals decide

/-- When as many bytes are written for a text as have been counted for it. -/
theorem encodes_iff {input : Bytes} {prepared : Nat} (hcps : utf8DecodeAll input = .ok cps)
    (h : getPerecentEncodedSize f input = .ok prepared) :
    (∃ out, PercentEncodes f input prepared (some out) ∧ out.length = prepared) ↔ EncodesInStep f cps := by
  have hvalid := Idna.utf8DecodeAll_valid hcps
  obtain rfl := (utf8DecodeAll_ok hcps).1
  have hprepared : (cps.map (countedSize f)).sum = prepared := by
    rw [getPerecentEncodedSize, hcps] at h
    exact Except.ok.inj h
  have hlength := @sum_countedSize f cps hvalid
  simp only [PercentEncodes, h, true_and, Writes]
  by_cases hzero : prepared = 0
  · have hnil : cps = [] := by
      cases cps with
      | nil => rfl
      | cons cp cps =>
          rw [List.map_cons, List.sum_cons] at hprepared
          have := @countedSize_pos f cp
          omega
    rw [hnil, hzero]
    exact iff_of_true ⟨[], rfl, rfl⟩ (.inl rfl)
  by_cases hcopied : (cps.flatMap utf8Encode).length = prepared
  · refine iff_of_true ⟨_, ?_, hcopied⟩ (.inl (by omega))
    rw [if_neg hzero, if_pos hcopied]
  simp only [if_neg hzero, if_neg hcopied]
  have hgrowth : (cps.map (growth f)).sum ≠ 0 := by omega
  by_cases hsticks : ∃ cp ∈ cps, Sticks f cp
  · refine iff_of_false ?_ ?_
    · rintro ⟨out, hreturns, -⟩
      exact not_returns_of_sticks hvalid hsticks [] _ hreturns
    · rintro (hsum | ⟨hnone, -⟩)
      · exact hgrowth hsum
      · obtain ⟨cp, hcp, hsticks⟩ := hsticks
        exact hnone cp hcp hsticks
  have hnone : ∀ cp ∈ cps, ¬Sticks f cp := fun cp hcp hcp' => hsticks ⟨cp, hcp, hcp'⟩
  have hreturns : Returns (percentEncodePass f) ⟨cps.flatMap utf8Encode, []⟩ (some (cps.flatMap (writtenText f))) := by
    have hvisits := visits_characters hvalid hnone [] []
    rw [List.append_nil, List.nil_append] at hvisits
    exact hvisits.returns (.done rfl)
  have hwritten := @length_written f cps hvalid
  constructor
  · rintro ⟨out, hout, hlen⟩
    cases hout.unique hreturns
    exact .inr ⟨hnone, by omega⟩
  · rintro (hsum | ⟨-, hsum⟩)
    · exact absurd hsum hgrowth
    · exact ⟨_, hreturns, by omega⟩

/-! ## The writer of decoded bytes -/

/-- There are no escapes, and the text is copied; or the percent sign is in the set, and no character outside of the
escapes is. -/
def DecodesInStep (f : Nat → Bool) (input : Bytes) : Prop :=
  0x25 ∉ input ∨ f 0x25 = false ∧ ∀ ch ∈ plainCharacters input, f ch.toNat = true

theorem percentDecodePass_escape (hpercent : f 0x25 = false) (h : decodeEscape input = .ok (bytes, rest))
    (output : Bytes) : percentDecodePass f ⟨0x25 :: input, output⟩ = .next ⟨rest, output ++ bytes⟩ := by
  obtain ⟨byteValue, tail, more, hbyte, hsize, hmore, rfl⟩ := decodeEscape_ok h
  have hsign : f (charCodepoint 0x25) = false := hpercent
  rw [percentDecodePass]
  simp only [hsign, Bool.false_eq_true, if_false, ne_eq, not_true_eq_false, hbyte, hsize, hmore]

theorem percentDecodePass_plain {ch : UInt8} (heq : charCodepoint ch = ch.toNat) (hkept : f ch.toNat = true)
    (output : Bytes) : percentDecodePass f ⟨ch :: input, output⟩ = .next ⟨input, output ++ [ch]⟩ := by
  rw [percentDecodePass]
  simp only [heq, hkept, if_true]

/-- The assertion that a character in the set is the percent sign. -/
theorem percentDecodePass_fails {ch : UInt8} (heq : charCodepoint ch = ch.toNat) (hne : ch ≠ 0x25)
    (hkept : f ch.toNat = false) (output : Bytes) : percentDecodePass f ⟨ch :: input, output⟩ = .done none := by
  rw [percentDecodePass]
  simp only [heq, hkept, Bool.false_eq_true, if_false, ne_eq, hne, not_false_eq_true, if_true]

/-- With the percent sign in the set the escapes are decoded as they were counted, up to a character outside of them
that is in the set. -/
theorem returns_decoded (hpercent : f 0x25 = false) (h : doPercentDecode isUnreservedCharacter input = .ok decoded)
    (output : Bytes) :
    Returns (percentDecodePass f) ⟨input, output⟩
      (if ∀ ch ∈ plainCharacters input, f ch.toNat = true then some (output ++ decoded) else none) := by
  induction hn : input.length using Nat.strongRecOn generalizing input decoded output with
  | ind n ih =>
      cases input with
      | nil =>
          rw [doPercentDecode] at h
          cases h
          rw [plainCharacters, if_pos (by simp), List.append_nil]
          exact .done rfl
      | cons ch input =>
          rw [List.length_cons] at hn
          rcases doPercentDecode_cases h with ⟨-, heq, hne, tail, rfl, htail⟩ |
            ⟨rfl, bytes, rest, tail, hescape, rfl, htail⟩
          · rw [plainCharacters_cons hne]
            cases hkept : f ch.toNat with
            | false =>
                rw [if_neg fun hall => by rw [hall ch List.mem_cons_self] at hkept; cases hkept]
                exact .done (percentDecodePass_fails heq hne hkept output)
            | true =>
                have hrest := ih _ (by omega) htail (output ++ [ch]) rfl
                simp only [List.forall_mem_cons, hkept, true_and]
                rw [List.append_assoc, List.singleton_append] at hrest
                exact .next (percentDecodePass_plain heq hkept output) hrest
          · have hlt := decodeEscape_length hescape
            have hrest := ih _ (by omega) htail (output ++ bytes) rfl
            rw [(decodeEscape_plain hescape).1, ← List.append_assoc]
            exact .next (percentDecodePass_escape hpercent hescape output) hrest

/-- Without the percent sign in the set nothing is decoded. -/
theorem returns_copied (hpercent : f 0x25 = true) (h : ∀ ch ∈ input, charCodepoint ch = ch.toNat) (output : Bytes) :
    Returns (percentDecodePass f) ⟨input, output⟩ none ∨
      Returns (percentDecodePass f) ⟨input, output⟩ (some (output ++ input)) := by
  induction input generalizing output with
  | nil =>
      rw [List.append_nil]
      exact .inr (.done rfl)
  | cons ch input ih =>
      obtain ⟨heq, h⟩ := List.forall_mem_cons.1 h
      cases hkept : f ch.toNat with
      | false =>
          refine .inl (.done (percentDecodePass_fails heq ?_ hkept output))
          rintro rfl
          rw [show f (0x25 : UInt8).toNat = f 0x25 from rfl, hpercent] at hkept
          cases hkept
      | true =>
          have hnext : percentDecodePass f ⟨ch :: input, output⟩ = _ := percentDecodePass_plain heq hkept output
          refine (ih h (output ++ [ch])).imp (.next hnext) fun hrest => ?_
          rw [List.append_assoc, List.singleton_append] at hrest
          exact .next hnext hrest

/-- When as many bytes are written for a text as have been counted for it with the default set. -/
theorem decodes_iff {prepared : Nat} (h : getPerecentDecodedSize isUnreservedCharacter input = .ok prepared) :
    (∃ out, PercentDecodes f input prepared (some out) ∧ out.length = prepared) ↔ DecodesInStep f input := by
  obtain ⟨decoded, hdecoded, rfl⟩ : ∃ decoded, doPercentDecode isUnreservedCharacter input = .ok decoded ∧
      decoded.length = prepared := by
    rw [getPerecentDecodedSize_eq] at h
    cases hdecoded : doPercentDecode isUnreservedCharacter input with
    | error e => rw [hdecoded] at h; cases h
    | ok decoded =>
        rw [hdecoded] at h
        exact ⟨decoded, rfl, Except.ok.inj h⟩
  obtain ⟨hle, hlength, hnil, -⟩ := length_decoded hdecoded
  simp only [PercentDecodes, h, true_and, Writes]
  by_cases hzero : decoded.length = 0
  · simp only [if_pos hzero]
    rw [hnil (List.length_eq_zero_iff.1 hzero), hzero]
    exact iff_of_true ⟨[], rfl, rfl⟩ (.inl nofun)
  by_cases hcopied : input.length = decoded.length
  · simp only [if_neg hzero, if_pos hcopied]
    exact iff_of_true ⟨input, rfl, hcopied⟩ (.inl (hlength.1 hcopied.symm))
  simp only [if_neg hzero, if_neg hcopied]
  have hpercent : ¬0x25 ∉ input := fun hnot => hcopied (hlength.2 hnot).symm
  rw [DecodesInStep, or_iff_right hpercent]
  cases hset : f 0x25 with
  | true =>
      refine iff_of_false ?_ (fun hstep => by cases hstep.1)
      have hsigns : ∀ ch ∈ input, charCodepoint ch = ch.toNat :=
        fun ch hch => if_pos (ascii_of_decoded hdecoded ch hch)
      rintro ⟨out, hout, hlen⟩
      rcases returns_copied hset hsigns [] with hnone | hsome
      · cases hout.unique hnone
      · cases hout.unique hsome
        exact hcopied hlen
  | false =>
      have hreturns := returns_decoded hset hdecoded []
      rw [and_iff_right rfl]
      constructor
      · rintro ⟨out, hout, -⟩
        by_contra hstep
        rw [if_neg hstep] at hreturns
        cases hout.unique hreturns
      · intro hstep
        rw [if_pos hstep, List.nil_append] at hreturns
        exact ⟨decoded, hreturns, rfl⟩

/-- `percent_encode` and `percent_decode` with a set write as many bytes as they have prepared, and read each escape
inside of the input, exactly when what they write is in step with what they have counted. -/
theorem percent_coding_stays (encodeSet : List PerecentEncodeSetItem) (input : Bytes) (prepared : Nat) :
    (getPerecentEncodedSize (isUnreservedCharacterSet encodeSet) input = .ok prepared →
      ((∃ out, PercentEncodes (isUnreservedCharacterSet encodeSet) input prepared (some out) ∧ out.length = prepared) ↔
        ∃ cps, utf8DecodeAll input = .ok cps ∧ EncodesInStep (isUnreservedCharacterSet encodeSet) cps)) ∧
    (getPerecentDecodedSize isUnreservedCharacter input = .ok prepared →
      ((∃ out, PercentDecodes (isUnreservedCharacterSet encodeSet) input prepared (some out) ∧ out.length = prepared) ↔
        DecodesInStep (isUnreservedCharacterSet encodeSet) input)) := by
  refine ⟨fun h => ?_, decodes_iff⟩
  cases hcps : utf8DecodeAll input with
  | error e => rw [getPerecentEncodedSize, hcps] at h; cases h
  | ok cps =>
      rw [encodes_iff hcps h]
      simp only [Except.ok.injEq, exists_eq_left']

/-- With an empty set two bytes are written for one that is counted, and of an escape all three are. -/
theorem percent_coding_leaves :
    ¬∀ (encodeSet : List PerecentEncodeSetItem) (input : Bytes) (prepared : Nat),
      (getPerecentEncodedSize (isUnreservedCharacterSet encodeSet) input = .ok prepared →
        ∃ out, PercentEncodes (isUnreservedCharacterSet encodeSet) input prepared (some out) ∧ out.length = prepared) ∧
      (getPerecentDecodedSize isUnreservedCharacter input = .ok prepared →
        ∃ out, PercentDecodes (isUnreservedCharacterSet encodeSet) input prepared (some out) ∧ out.length = prepared) := by
  intro h
  have hcps : utf8DecodeAll [0xc3, 0xa9] = .ok [0xe9] := by
    rw [utf8DecodeAll_of_ok (show utf8Decode [0xc3, 0xa9] = (.ok 0xe9, []) from rfl), utf8DecodeAll_nil]
    rfl
  have hsize : getPerecentEncodedSize (isUnreservedCharacterSet []) [0xc3, 0xa9] = .ok 1 := by
    rw [getPerecentEncodedSize, hcps]
    rfl
  have hstep := (encodes_iff hcps hsize).1 ((h [] [0xc3, 0xa9] 1).1 hsize)
  revert hstep
  rintro (hsum | ⟨-, hsum⟩)
  · exact absurd hsum (by decide)
  · exact absurd hsum (by decide)

/-! ## Sets that hold what is not ASCII -/

theorem Writes.unique {pass : Writer → Pass Writer (Option Bytes)} {prepared : Nat} {r r' : Option Bytes}
    (h : Writes pass input prepared r) (h' : Writes pass input prepared r') : r = r' := by
  rw [Writes] at h h'
  split at h
  · rename_i hzero
    rw [if_pos hzero] at h'
    rw [h, h']
  rename_i hzero
  rw [if_neg hzero] at h'
  split at h
  · rename_i hcopied
    rw [if_pos hcopied] at h'
    rw [h, h']
  · rename_i hcopied
    rw [if_neg hcopied] at h'
    exact h.unique h'

theorem writes_iff {pass : Writer → Pass Writer (Option Bytes)} {out : Bytes}
    (h : Writes pass input out.length (some out)) {size : Except Errc Nat} (hsize : size = .ok out.length)
    (prepared : Nat) (r : Option Bytes) :
    (size = .ok prepared ∧ Writes pass input prepared r) ↔ prepared = out.length ∧ r = some out := by
  constructor
  · rintro ⟨hprepared, hr⟩
    cases hsize.symm.trans hprepared
    exact ⟨rfl, hr.unique h⟩
  · rintro ⟨rfl, rfl⟩
    exact ⟨hsize, h⟩

/-- A text that does not become longer has no character to be encoded. -/
theorem written_eq_of_length (h : (cps.flatMap (writtenText f)).length = (cps.flatMap utf8Encode).length) :
    cps.flatMap (writtenText f) = cps.flatMap utf8Encode := by
  have hle (cp : Nat) : (utf8Encode cp).length ≤ (writtenText f cp).length ∧
      ((writtenText f cp).length = (utf8Encode cp).length → writtenText f cp = utf8Encode cp) := by
    rw [writtenText]
    split
    · exact ⟨Nat.le_refl _, fun _ => rfl⟩
    · have hpos := List.length_pos_of_ne_nil (utf8Encode_ne_nil cp)
      rw [length_flatMap_percentByte]
      exact ⟨by omega, fun h => by omega⟩
  have hles (cps : List Nat) : (cps.flatMap utf8Encode).length ≤ (cps.flatMap (writtenText f)).length := by
    induction cps with
    | nil => exact Nat.le_refl _
    | cons cp cps ih =>
        have := (hle cp).1
        rw [List.flatMap_cons, List.flatMap_cons, List.length_append, List.length_append]
        omega
  induction cps with
  | nil => rfl
  | cons cp cps ih =>
      have hcp := hle cp
      have hcps := hles cps
      rw [List.flatMap_cons, List.flatMap_cons, List.length_append, List.length_append] at h
      rw [List.flatMap_cons, List.flatMap_cons, ih (by omega), hcp.2 (by omega)]

section

variable (hlow : ∀ cp, f cp = true → cp < 0x80)

include hlow

theorem keepsFirst_eq (hvalid : isValidCodepoint cp = true) : keepsFirst f cp = f cp := by
  by_cases hascii : cp < 0x80
  · obtain ⟨b, hb, hnat⟩ := toNat_utf8Encode_low hascii
    rw [keepsFirst, hb, List.head?_cons, Option.any_some, hnat]
  · obtain ⟨b, conts, htext, -⟩ := utf8Encode_eq_cons hvalid
    have hb := Idna.utf8Encode_high (Nat.not_lt.1 hascii) b (by rw [htext]; exact List.mem_cons_self)
    have hcp : f cp = false := Bool.eq_false_iff.2 fun h => hascii (hlow cp h)
    have hfirst : f b.toNat = false :=
      Bool.eq_false_iff.2 fun h => Nat.not_lt.2 (UInt8.le_iff_toNat_le.1 hb) (hlow _ h)
    rw [keepsFirst, htext, List.head?_cons, Option.any_some, hcp, hfirst]

/-- Every character is written as it is counted. -/
theorem inStep_of_low (hvalid : isValidCodepoint cp = true) : ¬Sticks f cp ∧ surplus f cp = 0 := by
  have hfirst := keepsFirst_eq hlow hvalid
  cases hkept : f cp with
  | false =>
      rw [hkept] at hfirst
      refine ⟨fun h => (by rw [h.1] at hfirst; cases hfirst), ?_⟩
      simp only [surplus, hkept, hfirst]
  | true =>
      rw [hkept] at hfirst
      obtain ⟨b, htext, hnat⟩ := toNat_utf8Encode_low (hlow cp hkept)
      have hone : utf8CodepointSize cp = 1 := by rw [← length_utf8Encode hvalid, htext]; rfl
      constructor
      · rintro ⟨-, c, hc, hdrop⟩
        rw [htext, List.mem_singleton] at hc
        rw [hc, hnat, hkept] at hdrop
        cases hdrop
      · simp only [surplus, hkept, hfirst, hone]
        rfl

/-- What is prepared for a text and what is written there. -/
theorem percentEncodes_iff (hcps : utf8DecodeAll input = .ok cps) (prepared : Nat) (r : Option Bytes) :
    PercentEncodes f input prepared r ↔
      prepared = (cps.flatMap (writtenText f)).length ∧ r = some (cps.flatMap (writtenText f)) := by
  have hvalid := Idna.utf8DecodeAll_valid hcps
  obtain rfl := (utf8DecodeAll_ok hcps).1
  have hnone : ∀ cp ∈ cps, ¬Sticks f cp := fun cp hcp => (inStep_of_low hlow (hvalid cp hcp)).1
  have hsurplus : (cps.map (surplus f)).sum = 0 := by
    rw [List.map_congr_left fun cp hcp => (inStep_of_low hlow (hvalid cp hcp)).2]
    simp
  have hlength : (cps.map (countedSize f)).sum = (cps.flatMap (writtenText f)).length := by
    have := @length_written f cps hvalid
    omega
  have hsize : getPerecentEncodedSize f (cps.flatMap utf8Encode) = .ok (cps.flatMap (writtenText f)).length := by
    rw [← hlength, getPerecentEncodedSize, hcps]
    rfl
  refine writes_iff ?_ hsize prepared r
  rw [Writes]
  split
  · rename_i hzero
    rw [List.length_eq_zero_iff.1 hzero]
  split
  · rename_i hcopied
    rw [written_eq_of_length hcopied.symm]
  · have hvisits := visits_characters hvalid hnone [] []
    rw [List.append_nil, List.nil_append] at hvisits
    exact hvisits.returns (.done rfl)

end

/-- With such a set of the parser the writer writes what the text is encoded to. -/
theorem percentEncodes_encoded {encodeSet : List PerecentEncodeSetItem} (hset : HoldsHigh encodeSet)
    (hcps : utf8DecodeAll input = .ok cps) (prepared : Nat) (r : Option Bytes) :
    PercentEncodes (isUnreservedCharacterSet encodeSet) input prepared r ↔
      prepared = (input.flatMap (encodeByte encodeSet)).length ∧ r = some (input.flatMap (encodeByte encodeSet)) := by
  have hlow : ∀ cp, isUnreservedCharacterSet encodeSet cp = true → cp < 0x80 := by
    intro cp hkept
    by_contra hhigh
    rw [isUnreserved_high hset (by omega)] at hkept
    cases hkept
  have hvalid := Idna.utf8DecodeAll_valid hcps
  have htext : ∀ cp ∈ cps, writtenText (isUnreservedCharacterSet encodeSet) cp =
      (utf8Encode cp).flatMap (encodeByte encodeSet) := by
    intro cp hcp
    rw [writtenText, keepsFirst_eq hlow (hvalid cp hcp)]
    by_cases hascii : cp < 0x80
    · obtain ⟨b, hb, hnat⟩ := toNat_utf8Encode_low hascii
      rw [hb, List.flatMap_singleton, List.flatMap_singleton, encodeByte, keeps, hnat]
    · rw [flatMap_encodeByte_high hset (Idna.utf8Encode_high (Nat.not_lt.1 hascii)),
        isUnreserved_high hset (by omega), if_neg Bool.false_ne_true]
  rw [percentEncodes_iff hlow hcps, List.flatMap_congr htext, ← (utf8DecodeAll_ok hcps).1, List.flatMap_assoc]

/-! ## The default set -/

/-- Unreserved characters and escapes. -/
inductive IsPercentEncoded : Bytes → Prop where
  | nil : IsPercentEncoded []
  | unreserved {b : UInt8} {t : Bytes} (hb : isUnreservedCharacter b.toNat = true) (h : IsPercentEncoded t) :
      IsPercentEncoded (b :: t)
  | escape {v : UInt8} {e t : Bytes} (he : IsEscape v e) (h : IsPercentEncoded t) : IsPercentEncoded (e ++ t)

theorem IsPercentEncoded.escapes {vs : Bytes} {escapes : List Bytes} {t : Bytes} (h : IsPercentEncoded t)
    (hescapes : List.Forall₂ IsEscape vs escapes) : IsPercentEncoded (escapes.flatten ++ t) := by
  induction hescapes with
  | nil => exact h
  | cons hv _ ih =>
      rw [List.flatten_cons, List.append_assoc]
      exact .escape hv ih

theorem isPercentEncoded_written (hvalid : ∀ cp ∈ cps, isValidCodepoint cp = true) :
    IsPercentEncoded (cps.flatMap (writtenText isUnreservedCharacter)) ∧
      doPercentDecode isUnreservedCharacter (cps.flatMap (writtenText isUnreservedCharacter)) =
        .ok (cps.flatMap utf8Encode) := by
  induction cps with
  | nil =>
      rw [List.flatMap_nil, doPercentDecode]
      exact ⟨.nil, rfl⟩
  | cons cp cps ih =>
      obtain ⟨hcp, hvalid⟩ := List.forall_mem_cons.1 hvalid
      obtain ⟨hencoded, hdecode⟩ := ih hvalid
      rw [List.flatMap_cons, List.flatMap_cons, writtenText, keepsFirst_eq (fun _ h => (isUnreservedCharacter_low h).1) hcp]
      split
      · rename_i hkept
        obtain ⟨b, htext, hnat⟩ := toNat_utf8Encode_low (isUnreservedCharacter_low hkept).1
        rw [← hnat] at hkept
        rw [htext, List.singleton_append, List.singleton_append, doPercentDecode_unreserved hkept, hdecode]
        exact ⟨.unreserved hkept hencoded, rfl⟩
      · have hescapes := forall₂_percentByte (utf8Encode cp)
        rw [List.flatMap_def, doPercentDecode_escapes hcp hescapes, hdecode]
        exact ⟨hencoded.escapes hescapes, rfl⟩

/-- What is encoded with the default set is as long as it was counted, consists of unreserved characters and escapes,
and is decoded to the text. -/
theorem percent_round_trip {s : Bytes} (h : Utf8WellFormed s) :
    ∃ encoded, IsPercentEncoded encoded ∧
      (∀ prepared r, PercentEncodes isUnreservedCharacter s prepared r ↔
        prepared = encoded.length ∧ r = some encoded) ∧
      ∀ prepared r, PercentDecodes isUnreservedCharacter encoded prepared r ↔ prepared = s.length ∧ r = some s := by
  obtain ⟨cps, hcps⟩ := utf8DecodeAll_of_wellFormed h
  obtain ⟨hencoded, hdecode⟩ := isPercentEncoded_written (Idna.utf8DecodeAll_valid hcps)
  rw [(utf8DecodeAll_ok hcps).1] at hdecode
  refine ⟨_, hencoded, percentEncodes_iff (fun _ h => (isUnreservedCharacter_low h).1) hcps, ?_⟩
  obtain ⟨-, hsame, -, hcopy⟩ := length_decoded hdecode
  have hsize : getPerecentDecodedSize isUnreservedCharacter (cps.flatMap (writtenText isUnreservedCharacter)) =
      .ok s.length := by
    rw [getPerecentDecodedSize_eq, hdecode]
    rfl
  refine writes_iff ?_ hsize
  rw [Writes]
  split
  · rename_i hzero
    rw [List.length_eq_zero_iff.1 hzero]
  split
  · rename_i hcopied
    rw [hcopy (hsame.1 hcopied.symm)]
  · have hreturns := returns_decoded (f := isUnreservedCharacter) rfl hdecode []
    rw [if_pos (plain_unreserved hdecode)] at hreturns
    exact hreturns

/-- Two characters, of one byte and of two. -/
theorem percent_round_trip_two :
    ∃ encoded, IsPercentEncoded encoded ∧
      (∀ prepared r, PercentEncodes isUnreservedCharacter [0x20, 0xc3, 0xa9] prepared r ↔
        prepared = encoded.length ∧ r = some encoded) ∧
      ∀ prepared r, PercentDecodes isUnreservedCharacter encoded prepared r ↔
        prepared = 3 ∧ r = some [0x20, 0xc3, 0xa9] :=
  percent_round_trip (.append (by decide) (show InRow [(0x00, 0x7f)] [0x20] from .cons (by decide) .nil)
    (.append (by decide) (show InRow [(0xc2, 0xdf), (0x80, 0xbf)] [0xc3, 0xa9] from
      .cons (by decide) (.cons (by decide) .nil)) .nil))

/-! ## Components -/

/-- `decoded_path`. -/
def UrlRecord.DecodedPath (url : UrlRecord) : Option Bytes → Prop := UrlPercentDecodePath url.path

theorem plainCharacters_eq_self (h : 0x25 ∉ input) : plainCharacters input = input := by
  induction input with
  | nil => rw [plainCharacters]
  | cons ch input ih =>
      rw [List.mem_cons, not_or] at h
      rw [plainCharacters_cons fun heq => h.1 heq.symm, ih h.2]

theorem doPercentDecode_all_unreserved (h : ∀ ch ∈ input, isUnreservedCharacter ch.toNat = true) :
    doPercentDecode isUnreservedCharacter input = .ok input := by
  induction input with
  | nil => rw [doPercentDecode]
  | cons ch input ih =>
      obtain ⟨hch, h⟩ := List.forall_mem_cons.1 h
      rw [doPercentDecode_unreserved hch, ih h]
      rfl

/-- Without the percent sign in the set nothing is decoded, so that only a text without escapes is read as a text without
percent signs, and only as itself. -/
theorem decodes_plain_iff (hpercent : f 0x25 = true) {s : Bytes} (hs : 0x25 ∉ s) :
    (∃ prepared, PercentDecodes f input prepared (some s)) ↔
      input = s ∧ ∀ ch ∈ s, isUnreservedCharacter ch.toNat = true := by
  constructor
  · rintro ⟨prepared, hsize, hwrites⟩
    rw [getPerecentDecodedSize_eq] at hsize
    cases hdecoded : doPercentDecode isUnreservedCharacter input with
    | error e => rw [hdecoded] at hsize; cases hsize
    | ok decoded =>
        rw [hdecoded] at hsize
        obtain rfl : decoded.length = prepared := Except.ok.inj hsize
        obtain ⟨-, hlength, hnil, -⟩ := length_decoded hdecoded
        have heq : input = s := by
          rw [Writes] at hwrites
          split at hwrites
          · rename_i hzero
            rw [hnil (List.length_eq_zero_iff.1 hzero)]
            exact (Option.some.inj hwrites).symm
          split at hwrites
          · exact (Option.some.inj hwrites).symm
          · have hsigns : ∀ ch ∈ input, charCodepoint ch = ch.toNat :=
              fun ch hch => if_pos (ascii_of_decoded hdecoded ch hch)
            rcases returns_copied hpercent hsigns [] with hnone | hsome
            · cases hwrites.unique hnone
            · exact (Option.some.inj (hwrites.unique hsome)).symm
        subst heq
        have hplain := plain_unreserved hdecoded
        rw [plainCharacters_eq_self hs] at hplain
        exact ⟨rfl, hplain⟩
  · rintro ⟨rfl, hall⟩
    have hdecoded := doPercentDecode_all_unreserved hall
    refine ⟨input.length, by rw [getPerecentDecodedSize_eq, hdecoded]; rfl, ?_⟩
    rw [Writes]
    split
    · rename_i hzero
      rw [List.length_eq_zero_iff.1 hzero]
    · rw [if_pos rfl]

theorem UrlComponent.decodes_iff (c : UrlComponent) (input : Bytes) (r : Option Bytes) :
    c.Decodes input r ↔ ∃ prepared, PercentDecodes (isUnreservedCharacterSet c.encodeSet) input prepared r := by
  cases c <;> rfl

theorem UrlComponent.holdsHigh (c : UrlComponent) : HoldsHigh c.encodeSet := by cases c <;> decide

/-- No set holds the percent sign. -/
theorem UrlComponent.keeps_percent (c : UrlComponent) : isUnreservedCharacterSet c.encodeSet 0x25 = true := by
  cases c <;> decide

theorem UrlComponent.keeps_unreserved (c : UrlComponent) {b : UInt8} (h : isUnreservedCharacter b.toNat = true) :
    keeps c.encodeSet b = true := by
  have hall : ∀ c : UrlComponent, ∀ n < 0x80, isUnreservedCharacter n = true →
      isUnreservedCharacterSet c.encodeSet n = true := by
    intro c
    cases c <;> decide
  exact hall c b.toNat (isUnreservedCharacter_low h).1 h

/-- A text that is encoded for a component is decoded again exactly when there is nothing to encode in it with the default
set. -/
theorem UrlComponent.reads_back_iff (c : UrlComponent) {s : Bytes} (h : Utf8WellFormed s) (hs : 0x25 ∉ s) :
    (∃ prepared encoded, PercentEncodes (isUnreservedCharacterSet c.encodeSet) s prepared (some encoded) ∧
      c.Decodes encoded (some s)) ↔ ∀ ch ∈ s, isUnreservedCharacter ch.toNat = true := by
  obtain ⟨cps, hcps⟩ := utf8DecodeAll_of_wellFormed h
  simp only [percentEncodes_encoded c.holdsHigh hcps, c.decodes_iff, decodes_plain_iff c.keeps_percent hs]
  constructor
  · rintro ⟨_, _, _, -, hall⟩
    exact hall
  · intro hall
    have hencoded : s.flatMap (encodeByte c.encodeSet) = s := by
      rw [List.flatMap_congr fun b hb => ?_, List.flatMap_singleton']
      rw [encodeByte, if_pos (c.keeps_unreserved (hall b hb))]
    exact ⟨_, _, ⟨rfl, rfl⟩, hencoded, hall⟩

/-- A text with a slash is not decoded. -/
theorem not_decodesWith_slash {encodeSet : List PerecentEncodeSetItem} (h : 0x2f ∈ input) (r : Option Bytes) :
    ¬DecodesWith encodeSet input r := by
  rintro ⟨prepared, hsize, -⟩
  rw [getPerecentDecodedSize_eq] at hsize
  cases hdecoded : doPercentDecode isUnreservedCharacter input with
  | error e => rw [hdecoded] at hsize; cases hsize
  | ok decoded => rcases unreserved_of_decoded hdecoded _ h with heq | hkept <;> contradiction

/-- What is encoded for a component is decoded again when all of its characters are unreserved, and otherwise not; and no
path with a slash is decoded. -/
theorem decoded_components_iff (c : UrlComponent) {s : Bytes} (h : Utf8WellFormed s) (hs : 0x25 ∉ s) :
    ((∃ prepared encoded, PercentEncodes (isUnreservedCharacterSet c.encodeSet) s prepared (some encoded) ∧
      c.Decodes encoded (some s)) ↔ ∀ ch ∈ s, isUnreservedCharacter ch.toNat = true) ∧
    ∀ url : UrlRecord, 0x2f ∈ url.path → ∀ r, ¬url.DecodedPath r :=
  ⟨c.reads_back_iff h hs, fun _ => not_decodesWith_slash⟩

theorem wellFormed_single {b : UInt8} (h : b ≤ 0x7f) : Utf8WellFormed [b] :=
  .append (by decide) (show InRow [(0x00, 0x7f)] [b] from .cons ⟨UInt8.le_iff_toNat_le.2 (Nat.zero_le _), h⟩ .nil) .nil

theorem decoded_components_iff_letter :
    ∃ prepared encoded, PercentEncodes (isUnreservedCharacterSet pathPercentEncodeSet) [0x61] prepared (some encoded) ∧
      UrlPercentDecodePath encoded (some [0x61]) :=
  (decoded_components_iff .path (wellFormed_single (by decide)) (by decide)).1.2 fun ch hch => by
    rw [List.mem_singleton.1 hch]
    rfl

/-- A slash stays in a path, and the decoder refuses it. -/
theorem decoded_components_slash :
    ¬∀ (c : UrlComponent) (s : Bytes), Utf8WellFormed s → 0x25 ∉ s →
      ∃ prepared encoded, PercentEncodes (isUnreservedCharacterSet c.encodeSet) s prepared (some encoded) ∧
        c.Decodes encoded (some s) := by
  intro h
  have hall := (UrlComponent.reads_back_iff .path (wellFormed_single (by decide)) (by decide)).1
    (h .path [0x2f] (wellFormed_single (by decide)) (by decide))
  exact absurd (hall 0x2f (List.mem_singleton_self _)) (by decide)

end Rad.Url
