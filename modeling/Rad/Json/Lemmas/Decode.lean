import Mathlib.Data.List.Infix
import Rad.Json.Parser

/-!
# The reader of code points

Decoding a text behind bytes that are cached is decoding both as one text.
-/

namespace Rad.Json

/-- What a reader has cached: nothing, or a sequence that is not whole. -/
def ReaderOk (cached : Bytes) : Prop := cached = [] ∨ Utf8Begun cached

theorem readerOk_nil : ReaderOk [] := .inl rfl

/-- What the reader makes of a text, by what the decoder makes of it and the bytes that are cached. -/
structure DecodesAs (cached jtext : Bytes) (d : Decoded) : Prop where
  result : d.result = (utf8Decode (cached ++ jtext)).1
  ok : ∀ cp, d.result = .ok cp → d.reader = [] ∧ utf8Decode (cached ++ jtext) = (.ok cp, d.rest) ∧
    d.raw ++ d.rest = cached ++ jtext
  waits : d.result = .error .noBufferSpace → d.reader = cached ++ jtext ∧ d.rest = []
  readerOk : ReaderOk d.reader

theorem length_takeWhile_lt {p : UInt8 → Bool} {l : Bytes} : (l.takeWhile p).length < l.length ↔ l.all p = false := by
  induction l with
  | nil => simp
  | cons b l ih => cases hb : p b <;> simp [hb, ih]

theorem decode_nil_decodesAs {jtext : Bytes} (hne : jtext ≠ []) : DecodesAs [] jtext (decode [] jtext) := by
  obtain ⟨b, t, rfl⟩ := List.exists_cons_of_ne_nil hne
  rw [decode, if_neg (by simp)]
  split
  · rename_i rest heq
    have hwaits : (utf8Decode (b :: t)).1 = .error .noBufferSpace := by rw [heq]
    exact ⟨by rw [List.nil_append, hwaits], nofun, fun _ => ⟨rfl, rfl⟩, .inr (utf8Decode_noBufferSpace.1 hwaits)⟩
  · rename_i result rest hwaits heq
    refine ⟨by rw [List.nil_append, heq], fun cp hcp => ?_, fun h => absurd h fun h => hwaits h, .inl rfl⟩
    obtain rfl : result = .ok cp := hcp
    obtain ⟨b', conts, heq', -⟩ := utf8Decode_ok heq
    refine ⟨rfl, by rw [List.nil_append, heq], ?_⟩
    have hlen : (b :: t).length - rest.length = conts.length + 1 := by
      rw [heq', List.length_cons, List.length_append]
      omega
    rw [List.nil_append, hlen, heq', List.take_succ_cons, List.take_left]
    rfl

theorem decodeCached_decodesAs {cached jtext : Bytes} (hcached : cached ≠ []) (h : Utf8Begun cached) :
    DecodesAs cached jtext (decodeCached cached jtext) := by
  obtain ⟨b, cs, rfl⟩ := List.exists_cons_of_ne_nil hcached
  obtain ⟨hlen, hcs⟩ := h
  simp only [List.headD_cons, List.tail_cons, List.length_cons] at hlen hcs
  rw [decodeCached]
  simp only [List.headD_cons, List.length_cons]
  generalize hpart : jtext.take (utf8SequenceSize b - (cs.length + 1)) = part
  have hpartlen : part.length = min (utf8SequenceSize b - (cs.length + 1)) jtext.length := by
    rw [← hpart, List.length_take]
  have hdrop : part ++ jtext.drop part.length = jtext := by
    rw [← hpart]
    exact (List.prefix_append_drop (List.take_prefix _ jtext)).symm
  rw [cacheBytes, List.length_cons]
  split
  · -- a byte that goes on no sequence
    rename_i hlt
    have hall := length_takeWhile_lt.1 hlt
    have hbegun : Utf8Begun (b :: cs ++ part.takeWhile isUtf8ContinuationByte) := by
      refine ⟨?_, ?_⟩
      · simp only [List.cons_append, List.headD_cons, List.length_cons, List.length_append]
        omega
      · simp only [List.cons_append, List.tail_cons, List.all_append, hcs, List.all_takeWhile, Bool.and_self]
    refine ⟨?_, (by simp), (by simp), .inr hbegun⟩
    have hillegal : (utf8Decode (b :: (cs ++ part))).1 = .error .illegalByteSequence := by
      have hnotall : (cs ++ part).all isUtf8ContinuationByte = false := by rw [List.all_append, hall, Bool.and_false]
      simp only [utf8Decode]
      rw [if_neg (by omega)]
      split
      · rw [if_neg (by simp [hnotall])]
      · rename_i hlong
        have htake : (cs ++ part).take (utf8SequenceSize b - 1) = cs ++ part :=
          List.take_of_length_le (by rw [List.length_append]; omega)
        rw [htake, if_pos (by simp [hnotall])]
    have hmore := utf8Decode_illegal hillegal (jtext.drop part.length)
    rw [List.cons_append, List.append_assoc, hdrop] at hmore
    exact hmore.symm
  · rename_i hge
    have hall : part.all isUtf8ContinuationByte = true := by
      by_contra hnot
      exact hge (length_takeWhile_lt.2 (Bool.eq_false_iff.2 hnot))
    split
    · -- the sequence is whole
      rename_i hwhole
      have hnotbegun : (utf8Decode (b :: (cs ++ part))).1 ≠ .error .noBufferSpace := by
        intro hwaits
        have := (utf8Decode_noBufferSpace.1 hwaits).1
        simp only [List.headD_cons, List.length_cons, List.length_append] at this
        omega
      have htext : b :: cs ++ jtext = b :: (cs ++ part) ++ jtext.drop part.length := by
        rw [List.cons_append, List.cons_append, List.append_assoc, hdrop]
      rcases hdecode : utf8Decode (b :: (cs ++ part)) with ⟨result, rest⟩
      rw [hdecode] at hnotbegun
      rcases result with e | cp
      · have he : e = .illegalByteSequence := by
          cases e with
          | noBufferSpace => exact absurd rfl hnotbegun
          | illegalByteSequence => rfl
        subst he
        have hmore := utf8Decode_illegal (by rw [hdecode]) (jtext.drop part.length)
        rw [← htext] at hmore
        refine ⟨?_, ?_, ?_, .inl rfl⟩
        · rw [hmore, List.cons_append, hdecode]
        · rw [List.cons_append, hdecode]
          simp
        · rw [List.cons_append, hdecode]
          simp
      · obtain ⟨b', conts, heq, hsize, -⟩ := utf8Decode_ok hdecode
        have hrest : rest = [] := by
          rw [List.cons.injEq] at heq
          obtain ⟨rfl, heq⟩ := heq
          have := congrArg List.length heq
          rw [List.length_append, List.length_append] at this
          exact List.length_eq_zero_iff.1 (by omega)
        subst hrest
        have hmore := utf8Decode_append hdecode (jtext.drop part.length)
        rw [← htext, List.nil_append] at hmore
        refine ⟨?_, fun cp' hcp' => ?_, ?_, .inl rfl⟩
        · rw [hmore, List.cons_append, hdecode]
        · rw [List.cons_append, hdecode] at hcp'
          cases hcp'
          exact ⟨rfl, hmore, htext.symm⟩
        · rw [List.cons_append, hdecode]
          simp
    · -- the text ends inside the sequence
      rename_i hshort
      have hpart' : part = jtext := by
        rw [← hpart]
        exact List.take_of_length_le (by omega)
      subst hpart'
      have hbegun : Utf8Begun (b :: (cs ++ part)) := by
        refine ⟨?_, ?_⟩
        · simp only [List.headD_cons, List.length_cons, List.length_append]
          omega
        · simp only [List.tail_cons, List.all_append, hcs, hall, Bool.and_self]
      refine ⟨?_, (by simp), fun _ => ⟨rfl, List.drop_length⟩, .inr hbegun⟩
      rw [List.cons_append, utf8Decode_noBufferSpace.2 hbegun]

theorem decode_decodesAs {cached jtext : Bytes} (h : ReaderOk cached) (hne : jtext ≠ []) :
    DecodesAs cached jtext (decode cached jtext) := by
  rcases h with rfl | h
  · exact decode_nil_decodesAs hne
  · rcases eq_or_ne cached [] with rfl | hcached
    · exact decode_nil_decodesAs hne
    · rw [decode, if_pos hcached]
      exact decodeCached_decodesAs hcached h

namespace DecodesAs

variable {cached jtext cached' jtext' : Bytes} {d d' : Decoded} {cp : Nat}

/-- How the text is divided does not matter. -/
theorem result_eq (h : DecodesAs cached jtext d) (h' : DecodesAs cached' jtext' d')
    (htext : cached ++ jtext = cached' ++ jtext') : d.result = d'.result := by
  rw [h.result, h'.result, htext]

theorem eq_of_ok (h : DecodesAs cached jtext d) (h' : DecodesAs cached' jtext' d')
    (htext : cached ++ jtext = cached' ++ jtext') (hcp : d.result = .ok cp) : d = d' := by
  have hcp' := hcp
  rw [h.result_eq h' htext] at hcp'
  obtain ⟨hreader, hdecode, hraw⟩ := h.ok cp hcp
  obtain ⟨hreader', hdecode', hraw'⟩ := h'.ok cp hcp'
  have hrest : d.rest = d'.rest := by
    rw [htext, hdecode'] at hdecode
    exact (Prod.mk.inj hdecode).2.symm
  have hraws : d.raw = d'.raw := by
    rw [htext, ← hraw', hrest] at hraw
    exact List.append_cancel_right hraw
  obtain ⟨reader, rest, result, raw⟩ := d
  obtain ⟨reader', rest', result', raw'⟩ := d'
  simp only at hreader hreader' hrest hraws hcp hcp'
  rw [hreader, hreader', hrest, hraws, hcp, hcp']

/-- A code point that is decoded takes a byte of the text, also behind bytes that are cached. -/
theorem exists_used (h : DecodesAs cached jtext d) (hcached : ReaderOk cached) (hcp : d.result = .ok cp) :
    ∃ used, used ≠ [] ∧ jtext = used ++ d.rest ∧ d.raw = cached ++ used := by
  obtain ⟨-, hdecode, hraw⟩ := h.ok cp hcp
  obtain ⟨b, conts, htext, hsize, -⟩ := utf8Decode_ok hdecode
  have hraw' : d.raw = b :: conts := by
    rw [← hraw] at htext
    exact List.append_cancel_right (by rw [htext, List.cons_append])
  have hlt : cached.length < d.raw.length := by
    rcases hcached with rfl | hbegun
    · rw [hraw']
      exact Nat.zero_lt_succ _
    · cases cached with
      | nil =>
          rw [hraw']
          exact Nat.zero_lt_succ _
      | cons c cs =>
          obtain ⟨rfl, -⟩ := List.cons.inj htext
          have hlen := hbegun.1
          rw [List.headD_cons, hsize] at hlen
          rwa [hraw']
  obtain ⟨used, hused⟩ : cached <+: d.raw :=
    List.prefix_of_prefix_length_le (List.prefix_append cached jtext) (hraw ▸ List.prefix_append d.raw d.rest) hlt.le
  refine ⟨used, ?_, ?_, hused.symm⟩
  · rintro rfl
    rw [List.append_nil] at hused
    rw [hused] at hlt
    exact absurd hlt (Nat.lt_irrefl _)
  · rw [← hused, List.append_assoc] at hraw
    exact (List.append_cancel_left hraw).symm

end DecodesAs

section

variable {cached jtext : Bytes} {cp : Nat}

theorem decode_append_ok (h : ReaderOk cached) (hne : jtext ≠ []) (hcp : (decode cached jtext).result = .ok cp)
    (more : Bytes) : decode cached (jtext ++ more) = { decode cached jtext with rest := (decode cached jtext).rest ++ more } := by
  have hd := decode_decodesAs h hne
  have hd' := @decode_decodesAs cached (jtext ++ more) h (by simp [hne])
  obtain ⟨hreader, hdecode, hraw⟩ := hd.ok cp hcp
  have hshift : DecodesAs cached (jtext ++ more) { decode cached jtext with rest := (decode cached jtext).rest ++ more } := by
    have hdecode' := utf8Decode_append hdecode more
    rw [List.append_assoc] at hdecode'
    refine ⟨?_, fun cp' hcp' => ⟨hreader, ?_, ?_⟩, fun hwaits => ?_, hd.readerOk⟩
    · rw [hdecode']
      exact hcp
    · rw [hcp] at hcp'
      cases hcp'
      exact hdecode'
    · rw [← List.append_assoc, hraw, List.append_assoc]
    · rw [hcp] at hwaits
      cases hwaits
  exact (hshift.eq_of_ok hd' rfl hcp).symm

theorem decode_append_illegal (h : ReaderOk cached) (hne : jtext ≠ [])
    (hillegal : (decode cached jtext).result = .error .illegalByteSequence) (more : Bytes) :
    (decode cached (jtext ++ more)).result = .error .illegalByteSequence := by
  rw [(decode_decodesAs h hne).result] at hillegal
  rw [(decode_decodesAs h (by simp [hne])).result, ← List.append_assoc]
  exact utf8Decode_illegal hillegal more

/-- A character of one byte. -/
theorem decode_ascii {b : UInt8} (hb : b < 0x80) (t : Bytes) : decode [] (b :: t) = ⟨[], t, .ok b.toNat, [b]⟩ := by
  have hdecode := utf8Decode_ascii hb t
  have htarget : DecodesAs [] (b :: t) ⟨[], t, .ok b.toNat, [b]⟩ :=
    ⟨by rw [List.nil_append, hdecode], fun cp hcp => by cases hcp; exact ⟨rfl, hdecode, rfl⟩, nofun, .inl rfl⟩
  exact (htarget.eq_of_ok (decode_decodesAs readerOk_nil (by simp)) rfl rfl).symm

/-- A code point of the text. -/
theorem decode_utf8Encode (h : isValidCodepoint cp) (t : Bytes) :
    decode [] (utf8Encode cp ++ t) = ⟨[], t, .ok cp, utf8Encode cp⟩ := by
  have hdecode := utf8Decode_utf8Encode h t
  have hne : utf8Encode cp ++ t ≠ [] := by
    intro hnil
    rw [hnil] at hdecode
    cases hdecode
  have htarget : DecodesAs [] (utf8Encode cp ++ t) ⟨[], t, .ok cp, utf8Encode cp⟩ :=
    ⟨by rw [List.nil_append, hdecode], fun cp' hcp' => by cases hcp'; exact ⟨rfl, hdecode, rfl⟩, nofun, .inl rfl⟩
  exact (htarget.eq_of_ok (decode_decodesAs readerOk_nil hne) rfl rfl).symm

end

end Rad.Json
