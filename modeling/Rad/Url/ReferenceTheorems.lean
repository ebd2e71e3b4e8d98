import Rad.Url.Record
import Rad.Url.Lemmas.Reaches
import Rad.Url.PathTheorems

/-!
# References and their bases
-/

namespace Rad.Url

variable {base : Option UrlRecord} {b url : UrlRecord} {ctx ctx' : UrlParseContext} {v w : View} {turn : Turn}

/-! ## Parts of a UTF-8 text -/

theorem isC0OrSpace_high {ch : UInt8} (h : 0x80 ≤ ch) : isC0OrSpace ch = false ∧ isAsciiTabOrNewline ch = false := by
  grind [isC0OrSpace, isAsciiTabOrNewline]

theorem removeTabsAndNewlines_flatMap (cps : List Nat) :
    ∃ cps' : List Nat, cps'.Sublist cps ∧ removeTabsAndNewlines (cps.flatMap utf8Encode) = cps'.flatMap utf8Encode := by
  induction cps with
  | nil => exact ⟨[], .slnil, rfl⟩
  | cons cp cps ih =>
      obtain ⟨cps', hsub, htext⟩ := ih
      rw [removeTabsAndNewlines] at htext ⊢
      rw [List.flatMap_cons, List.filter_append, htext]
      by_cases hlow : cp < 0x80
      · obtain ⟨ch, hch, -⟩ := toNat_utf8Encode_low hlow
        cases htab : isAsciiTabOrNewline ch with
        | true => exact ⟨cps', hsub.cons _, by simp [hch, htab]⟩
        | false => exact ⟨cp :: cps', hsub.cons_cons _, by simp [hch, htab]⟩
      · have hhigh := Idna.utf8Encode_high (Nat.not_lt.1 hlow)
        refine ⟨cp :: cps', hsub.cons_cons _, ?_⟩
        rw [List.flatMap_cons, List.filter_eq_self.2 fun ch hch => by
          rw [(isC0OrSpace_high (hhigh ch hch)).2, Bool.not_false]]

theorem rdropWhile_flatMap (cps : List Nat) :
    ∃ cps' : List Nat, cps'.Sublist cps ∧ (cps.flatMap utf8Encode).rdropWhile isC0OrSpace = cps'.flatMap utf8Encode := by
  induction cps using List.reverseRecOn with
  | nil => exact ⟨[], .slnil, rfl⟩
  | append_singleton cps cp ih =>
      obtain ⟨cps', hsub, htext⟩ := ih
      rw [List.flatMap_append, List.flatMap_cons, List.flatMap_nil, List.append_nil]
      rcases List.eq_nil_or_concat (utf8Encode cp) with hnil | ⟨front, ch, hlast⟩
      · exact absurd hnil (utf8Encode_ne_nil cp)
      rw [List.concat_eq_append] at hlast
      rw [hlast, ← List.append_assoc, List.rdropWhile_concat]
      split
      · rename_i hspace
        -- a control or a space is the whole sequence
        have hlow : cp < 0x80 := by
          by_contra hhigh
          have hch := Idna.utf8Encode_high (Nat.not_lt.1 hhigh) ch (by rw [hlast]; simp)
          rw [(isC0OrSpace_high hch).1] at hspace
          cases hspace
        obtain ⟨ch', hch', -⟩ := toNat_utf8Encode_low hlow
        rw [hch'] at hlast
        cases front with
        | nil =>
            rw [List.append_nil]
            exact ⟨cps', hsub.trans (List.sublist_append_left _ _), htext⟩
        | cons _ front => simp at hlast
      · refine ⟨cps ++ [cp], .refl _, ?_⟩
        rw [List.flatMap_append, List.flatMap_cons, List.flatMap_nil, List.append_nil, hlast, List.append_assoc]

/-- What is left of a fragment can be decoded when the fragment can. -/
theorem decode_fragment {f : Bytes} {cps : List Nat} (h : utf8DecodeAll f = .ok cps) :
    ∃ cps', utf8DecodeAll (removeTabsAndNewlines (f.rdropWhile isC0OrSpace)) = .ok cps' := by
  have hvalid := Idna.utf8DecodeAll_valid h
  rw [← (utf8DecodeAll_ok h).1]
  obtain ⟨cps', hsub, htext⟩ := rdropWhile_flatMap cps
  obtain ⟨cps'', hsub', htext'⟩ := removeTabsAndNewlines_flatMap cps'
  rw [htext, htext']
  exact ⟨cps'', utf8DecodeAll_flatMap fun cp hcp => hvalid cp (hsub.subset (hsub'.subset hcp))⟩

/-! ## References without a path -/

/-- The record that a reference without a path begins with. -/
def referenceRecord (b : UrlRecord) : UrlRecord := if b.scheme = ascii "file" then fileOfBase b else ofBase b

/-- The text of a fragment that is read. -/
def fragmentInput (f : Bytes) : Bytes := removeTabsAndNewlines (f.rdropWhile isC0OrSpace)

theorem ownedInput_fragment (f : Bytes) : ownedInput (0x23 :: f) = 0x23 :: fragmentInput f :=
  @ownedInput_append [0x23] f (List.cons_ne_nil _ _) (List.forall_mem_singleton.2 (by decide))

theorem noSchemeState_list (hlist : b.flags.opaquePath = false) (v : View) :
    noSchemeState v (some b) {} {} =
      if b.scheme ≠ ascii "file" then .ok ⟨.relative, blank [], {}, .decrease⟩
      else .ok ⟨.file, blank [], {}, .decrease⟩ := by
  rw [blank_nil]
  simp only [noSchemeState, UrlRecord.isOpaquePath, hlist, Bool.false_and, Bool.false_eq_true, if_false]

theorem no_slash {c : Nat} {special : Prop} (hslash : c ≠ 0x2f) (hback : c ≠ 0x5c) :
    ¬(c = 0x2f ∨ (special ∧ c = 0x5c)) :=
  fun h => h.elim hslash fun h => hback h.2

/-- The empty reference is the base without its fragment. -/
theorem ends_empty (hwell : b.WellFormed) (hlist : b.flags.opaquePath = false) :
    Ends (some b) ⟨.schemeStart, {}, {}, [], []⟩
      (.ok (finish (referenceRecord b) { path := splitUrlPath b.path })) := by
  have hstart : Reaches (some b) ⟨.schemeStart, {}, {}, [], []⟩ ⟨.noScheme, {}, {}, [], []⟩ :=
    .decrease_eof fun _ _ => rfl
  refine hstart.ends ?_
  by_cases hfile : b.scheme = ascii "file"
  · have hscheme : Reaches (some b) ⟨.noScheme, {}, {}, [], []⟩ ⟨.file, blank [], {}, [], []⟩ :=
      .decrease_eof fun _ _ => by rw [runState, noSchemeState_list hlist, if_neg (not_not.2 hfile)]
    refine hscheme.ends (@Ends.eof (some b) .file .file _ _ _ _ _ fun _ _ => ?_)
    rw [runState, fileState_eq (.inl rfl), Option.filter_some, beq_iff_eq.2 hfile, referenceRecord, if_pos hfile]
    rfl
  · have hscheme : Reaches (some b) ⟨.noScheme, {}, {}, [], []⟩ ⟨.relative, blank [], {}, [], []⟩ :=
      .decrease_eof fun _ _ => by rw [runState, noSchemeState_list hlist, if_pos hfile]
    refine hscheme.ends (@Ends.eof (some b) .relative .relative _ _ _ _ _ fun _ _ => ?_)
    rw [runState, relativeState_eq hwell (.inl rfl), referenceRecord, if_neg hfile, if_neg]
    · rfl
    · exact no_slash (show 0 ≠ 0x2f by decide) (show 0 ≠ 0x5c by decide)

/-- A reference that is a fragment. -/
theorem ends_reference (hwell : b.WellFormed) (hlist : b.flags.opaquePath = false) (f : Bytes) :
    Ends (some b) ⟨.schemeStart, {}, {}, [], 0x23 :: f⟩
      (match utf8DecodeAll f with
        | .ok _ =>
          .ok (finish { beginFragment (referenceRecord b) with
            fragment := f.flatMap (encodeByte fragmentPercentEncodeSet) } { path := splitUrlPath b.path })
        | .error _ => .error .invalidUrlUnit) := by
  have hstart : Reaches (some b) ⟨.schemeStart, {}, {}, [], 0x23 :: f⟩ ⟨.noScheme, {}, {}, [], 0x23 :: f⟩ :=
    .decrease_ascii (by decide) rfl
  refine hstart.ends ?_
  have hfragment : Reaches (some b) ⟨.noScheme, {}, {}, [], 0x23 :: f⟩
      ⟨.fragment, beginFragment (referenceRecord b), { path := splitUrlPath b.path }, [0x23], f⟩ := by
    by_cases hfile : b.scheme = ascii "file"
    · have hscheme : Reaches (some b) ⟨.noScheme, {}, {}, [], 0x23 :: f⟩ ⟨.file, blank [], {}, [], 0x23 :: f⟩ :=
        .decrease_ascii (by decide) (by rw [runState, noSchemeState_list hlist, if_neg (not_not.2 hfile)])
      refine hscheme.trans (.first_ascii (by decide) ?_)
      rw [runState, fileState_eq (.inl rfl), Option.filter_some, beq_iff_eq.2 hfile, referenceRecord, if_pos hfile]
      rfl
    · have hscheme : Reaches (some b) ⟨.noScheme, {}, {}, [], 0x23 :: f⟩ ⟨.relative, blank [], {}, [], 0x23 :: f⟩ :=
        .decrease_ascii (by decide) (by rw [runState, noSchemeState_list hlist, if_pos hfile])
      refine hscheme.trans (.first_ascii (by decide) ?_)
      rw [runState, relativeState_eq hwell (.inl rfl), referenceRecord, if_neg hfile, if_neg]
      · rfl
      · exact no_slash (show 0x23 ≠ 0x2f by decide) (show 0x23 ≠ 0x5c by decide)
  exact hfragment.ends (ends_fragment _ _ _ _)

/-- The path of the base is joined again. -/
theorem finish_split (url : UrlRecord) (hwell : b.WellFormed) (hlist : b.flags.opaquePath = false) (hpath : url.path = []) :
    (finish url { path := splitUrlPath b.path }).components = { url.components with pathname := b.path } := by
  obtain ⟨path, hsegments, htext, -, -⟩ := hwell.segments hlist
  rw [htext, hsegments.split, finish]
  split
  · rfl
  · rename_i h
    have hnil : path = [] := by
      by_contra hne
      exact h ⟨hpath, hne⟩
    rw [hnil, UrlRecord.components, hpath]
    rfl

theorem components_referenceRecord (hwell : b.WellFormed) :
    { (referenceRecord b).components with pathname := b.path } = { b.components with hasFragment := false, fragment := [] } := by
  rw [referenceRecord]
  split
  · rename_i hfile
    have hbare := hwell.file hfile
    obtain ⟨hhost, hlist, -⟩ := hwell.file_base hfile
    simp only [UrlRecord.components, UrlRecord.username, UrlRecord.password, UrlRecord.hasUsername, UrlRecord.hasPassword,
      UrlRecord.hasHost, UrlRecord.hasPort, UrlRecord.portNumber, UrlRecord.isOpaquePath, UrlRecord.hasQuery,
      UrlRecord.queryText, UrlRecord.hasFragment, UrlRecord.fragmentText, fileOfBase, fileRecord, credentialsOnly, hbare.username,
      hbare.password, hbare.port, hhost, hfile, Bool.false_and, Bool.not_false, if_true, Bool.false_eq_true, if_false]
    rfl
  · rfl

/-! ## URLs and their bases -/

/-- The states that do not ask for the base, nor lead to such a state. -/
def IsBaseFree : ParseState → Bool
  | .pathOrAuthority | .specialAuthoritySlashes | .specialAuthorityIgnoreSlashes | .authority | .host | .port | .fileHost
  | .pathStart | .path | .opaquePath | .query | .fragment => true
  | _ => false

/-- Two views that are the same, but for what is read behind the end. -/
def SameView (v w : View) : Prop :=
  v = w ∨ ∃ unit substring unit' substring', v = ⟨0, true, unit, [], substring⟩ ∧ w = ⟨0, true, unit', [], substring'⟩

theorem runState_baseFree {state : ParseState} (hfree : IsBaseFree state = true) (hview : SameView v w) :
    runState v base url ctx state = runState w none url ctx state := by
  rcases hview with rfl | ⟨unit, substring, unit', substring', rfl, rfl⟩
  · cases state <;> first | rfl | cases hfree
  · cases state <;> first | rfl | cases hfree

theorem isBaseFree_turn {state : ParseState} (hfree : IsBaseFree state = true)
    (hrun : runState v base url ctx state = .ok turn) : IsBaseFree turn.state = true := by
  have hmap {ε α : Type} {f : α → Turn} {r : Except ε α} {turn : Turn} (hf : ∀ a, IsBaseFree (f a).state = true)
      (h : r.map f = .ok turn) : IsBaseFree turn.state = true := by
    cases r with
    | error e => cases h
    | ok a => cases h; exact hf a
  cases state with
  | schemeStart | scheme | noScheme | specialRelativeOrAuthority | relative | relativeSlash | file | fileSlash => cases hfree
  | pathOrAuthority =>
      simp only [runState, pathOrAuthorityState] at hrun
      split at hrun <;> cases hrun <;> rfl
  | specialAuthoritySlashes =>
      simp only [runState, specialAuthoritySlashesState] at hrun
      split at hrun <;> cases hrun <;> rfl
  | specialAuthorityIgnoreSlashes =>
      simp only [runState, specialAuthorityIgnoreSlashesState] at hrun
      split at hrun <;> cases hrun <;> rfl
  | authority =>
      simp only [runState, authorityState] at hrun
      split at hrun
      · cases hrun; rfl
      split at hrun
      · split at hrun <;> cases hrun; rfl
      · cases hrun; rfl
  | host =>
      simp only [runState, hostState] at hrun
      split at hrun
      · split at hrun
        · cases hrun
        · exact hmap (fun _ => rfl) hrun
      split at hrun
      · split at hrun
        · cases hrun
        · exact hmap (fun _ => rfl) hrun
      · cases hrun; rfl
  | port =>
      simp only [runState, portState] at hrun
      split at hrun
      · cases hrun; rfl
      split at hrun
      · split at hrun
        · cases hrun; rfl
        · split at hrun <;> cases hrun; rfl
      · cases hrun
  | fileHost =>
      simp only [runState, fileHostState] at hrun
      split at hrun
      · split at hrun
        · cases hrun; rfl
        split at hrun
        · cases hrun; rfl
        · exact hmap (fun _ => rfl) hrun
      · cases hrun; rfl
  | pathStart =>
      simp only [runState, pathStartState] at hrun
      split at hrun
      · cases hrun; rfl
      split at hrun
      · cases hrun; rfl
      split at hrun
      · cases hrun; rfl
      split at hrun <;> cases hrun <;> rfl
  | path =>
      simp only [runState, pathState] at hrun
      split at hrun
      · split at hrun
        · cases hrun; rfl
        split at hrun <;> cases hrun <;> rfl
      · exact hmap (fun _ => rfl) hrun
  | opaquePath =>
      simp only [runState, opaquePathState] at hrun
      split at hrun
      · cases hrun; rfl
      split at hrun
      · cases hrun; rfl
      split at hrun
      · cases hrun; rfl
      split at hrun
      · exact hmap (fun _ => rfl) hrun
      · cases hrun; rfl
  | query =>
      simp only [runState, queryState] at hrun
      split at hrun
      · refine hmap (fun _ => ?_) hrun
        split <;> rfl
      · cases hrun; rfl
  | fragment =>
      simp only [runState, fragmentState] at hrun
      split at hrun
      · exact hmap (fun _ => rfl) hrun
      · cases hrun; rfl

/-- Two pointers at the same place; what they have read before may differ. -/
structure SamePlace (p q : UrlPointer) : Prop where
  originalInput : p.originalInput = q.originalInput
  next : p.next = q.next
  remainingSize : p.remainingSize = q.remainingSize

theorem SamePlace.refl (p : UrlPointer) : SamePlace p p := ⟨rfl, rfl, rfl⟩

theorem SamePlace.isEof {p q : UrlPointer} (h : SamePlace p q) : p.isEof = q.isEof := by
  rw [UrlPointer.isEof, UrlPointer.isEof, UrlPointer.inputEnd, UrlPointer.inputEnd, h.originalInput, h.next]

/-- They give the same code point and are the same pointer then, or they are at the end. -/
theorem SamePlace.advance {p q : UrlPointer} (h : SamePlace p q) :
    (∃ e, p.advance = .error e ∧ q.advance = .error e) ∨
      ∃ c p' q', p.advance = .ok (c, p') ∧ q.advance = .ok (c, q') ∧ SameView (p'.view c) (q'.view c) ∧
        (p' = q' ∨ (SamePlace p' q' ∧ p'.isEof = true)) := by
  have hremaining : p.remaining = q.remaining := by
    rw [UrlPointer.remaining, UrlPointer.remaining, h.originalInput, h.next, h.remainingSize]
  rw [UrlPointer.advance, UrlPointer.advance, h.isEof]
  cases hend : q.isEof with
  | true => exact .inl ⟨_, rfl, rfl⟩
  | false =>
      rw [if_neg Bool.false_ne_true, if_neg Bool.false_ne_true, hremaining]
      by_cases hzero : q.remainingSize = 0
      · rw [if_pos hzero, if_pos (h.remainingSize.trans hzero)]
        have heof (p : UrlPointer) (hp : p.remainingSize = 0) (hnext : p.next = p.inputEnd + 1) :
            p.isEof = true ∧ p.view 0 = ⟨0, true, p.encodedCodepoint, [], p.codepointSubstring⟩ := by
          have htrue : p.isEof = true := by
            rw [UrlPointer.isEof, hnext, decide_eq_true_eq]
            exact Nat.lt_succ_self _
          refine ⟨htrue, ?_⟩
          rw [UrlPointer.view, htrue, UrlPointer.remaining, hp, List.take_zero]
        obtain ⟨hp, hpview⟩ := heof { p with next := p.inputEnd + 1 } (h.remainingSize.trans hzero) rfl
        obtain ⟨-, hqview⟩ := heof { q with next := q.inputEnd + 1 } hzero rfl
        refine .inr ⟨0, _, _, rfl, rfl, .inr ⟨_, _, _, _, hpview, hqview⟩, .inr ⟨⟨h.originalInput, ?_, h.remainingSize⟩, hp⟩⟩
        simp only [UrlPointer.inputEnd, h.originalInput]
      · rw [if_neg hzero, if_neg fun hp => hzero (h.remainingSize.symm.trans hp)]
        cases utf8Decode q.remaining with
        | mk r tail =>
            cases r with
            | error e => exact .inl ⟨_, rfl, rfl⟩
            | ok c =>
                refine .inr ⟨c, _, _, rfl, rfl, .inl ?_, .inl ?_⟩
                · rw [h.originalInput, h.next, h.remainingSize]
                · rw [h.originalInput, h.next, h.remainingSize]

theorem SamePlace.move {p q : UrlPointer} (h : SamePlace p q) (heof : p.isEof = true) (m : Move) :
    SamePlace (p.move m) (q.move m) := by
  have hend : p.inputEnd = q.inputEnd := by rw [UrlPointer.inputEnd, UrlPointer.inputEnd, h.originalInput]
  have heof' : q.isEof = true := h.isEof ▸ heof
  cases m with
  | keep => exact h
  | decrease =>
      refine ⟨h.originalInput, ?_, ?_⟩
      all_goals simp only [UrlPointer.move, UrlPointer.decrease, heof, heof', if_true, hend]
  | increase =>
      refine ⟨h.originalInput, ?_, ?_⟩
      · simp only [UrlPointer.move, UrlPointer.increase, h.next]
      · simp only [UrlPointer.move, UrlPointer.increase, h.remainingSize]
  | restart =>
      refine ⟨h.originalInput, rfl, ?_⟩
      simp only [UrlPointer.move, UrlPointer.restart, h.originalInput]
  | decreaseByBytesPlus1Codepoint nbytes =>
      refine ⟨?_, ?_, ?_⟩
      all_goals
        simp only [UrlPointer.move, UrlPointer.decreaseByBytesPlus1Codepoint, heof, heof', if_true, hend, h.originalInput,
          h.remainingSize]

/-- From a state that does not ask for the base on, the base makes no difference. -/
theorem returns_baseFree {s : Config} {r : Except UrlError UrlRecord} (h : Lib.Returns (pass base) s r)
    (hfree : IsBaseFree s.state = true) (base' : Option UrlRecord) {q : UrlPointer} (hq : SamePlace s.pointer q) :
    Lib.Returns (pass base') { s with pointer := q } r := by
  have hstep (s : Config) (hfree : IsBaseFree s.state = true) (q : UrlPointer) (hq : SamePlace s.pointer q) :
      (∃ r, pass base s = .done r ∧ pass base' { s with pointer := q } = .done r) ∨
        ∃ t q', pass base s = .next t ∧ pass base' { s with pointer := q } = .next { t with pointer := q' } ∧
          IsBaseFree t.state = true ∧ SamePlace t.pointer q' := by
    rcases hq.advance with ⟨e, hp, hq⟩ | ⟨c, p', q', hp, hq, hview, hplace⟩
    · exact .inl ⟨.error e, by simp only [pass, hp], by simp only [pass, hq]⟩
    · have hrun : runState (p'.view c) base s.url s.ctx s.state = runState (q'.view c) base' s.url s.ctx s.state :=
        (runState_baseFree hfree hview).trans (runState_baseFree hfree (.inl rfl)).symm
      cases hturn : runState (p'.view c) base s.url s.ctx s.state with
      | error e =>
          have hturn' := hrun.symm.trans hturn
          exact .inl ⟨.error e, by simp only [pass, hp, hturn], by simp only [pass, hq, hturn']⟩
      | ok turn =>
          have hturn' := hrun.symm.trans hturn
          have hsame : SamePlace (p'.move turn.move) (q'.move turn.move) := by
            rcases hplace with rfl | ⟨hplace, heof⟩
            · exact .refl _
            · exact hplace.move heof _
          have hpass := pass_of_turn hp hturn
          have hpass' := pass_of_turn (s := { s with pointer := q }) hq hturn'
          rw [← hsame.isEof] at hpass'
          split at hpass
          · rename_i hend
            rw [if_pos hend] at hpass'
            exact .inl ⟨_, hpass, hpass'⟩
          · rename_i hend
            rw [if_neg hend] at hpass'
            exact .inr ⟨_, _, hpass, hpass', isBaseFree_turn hfree hturn, hsame⟩
  induction h generalizing q with
  | @done s r hdone =>
      rcases hstep s hfree q hq with ⟨r', hpass, hpass'⟩ | ⟨t, q', hpass, -⟩
      · rw [hdone] at hpass
        cases hpass
        exact .done hpass'
      · rw [hdone] at hpass
        cases hpass
  | @next s t r hnext _ ih =>
      rcases hstep s hfree q hq with ⟨r', hpass, -⟩ | ⟨t', q', hpass, hpass', hfree', hq'⟩
      · rw [hnext] at hpass
        cases hpass
      · rw [hnext] at hpass
        cases hpass
        exact .next hpass' (ih hfree' hq')

/-- Two bases with which the parser comes to the same place, from which on they make no difference. -/
theorem parses_iff_of_reaches {base' : Option UrlRecord} {input : Bytes} {s : Spot} {r : Except UrlError UrlRecord}
    (h : Reaches base ⟨.schemeStart, {}, {}, [], ownedInput input⟩ s)
    (h' : Reaches base' ⟨.schemeStart, {}, {}, [], ownedInput input⟩ s) (hfree : IsBaseFree s.state = true) :
    Parses base input r ↔ Parses base' input r := by
  obtain ⟨p, hp, hvisits⟩ := h _ (UrlPointer.at_ofInput _)
  obtain ⟨q, hq, hvisits'⟩ := h' _ (UrlPointer.at_ofInput _)
  have hplace : SamePlace p q :=
    ⟨hp.originalInput.trans hq.originalInput.symm, hp.next.trans hq.next.symm, hp.remainingSize.trans hq.remainingSize.symm⟩
  have hplace' : SamePlace q p := ⟨hplace.originalInput.symm, hplace.next.symm, hplace.remainingSize.symm⟩
  constructor
  · intro hparses
    exact hvisits'.returns (returns_baseFree (hvisits.returns_of hparses) hfree base' hplace)
  · intro hparses
    exact hvisits.returns (returns_baseFree (hvisits'.returns_of hparses) hfree base hplace')

/-- A scheme with what belongs to it leads to such a state. -/
theorem reaches_baseFree {scheme rest : Bytes} (h : IsScheme scheme)
    (hslashes : isSpecialScheme scheme = true → ∃ tail, rest = 0x2f :: 0x2f :: tail) :
    ∃ s : Spot, IsBaseFree s.state = true ∧
      ∀ base, Reaches base ⟨.schemeStart, {}, {}, [], scheme ++ 0x3a :: rest⟩ s := by
  cases hspecial : isSpecialScheme scheme with
  | true =>
      obtain ⟨tail, rfl⟩ := hslashes hspecial
      by_cases hfile : scheme = ascii "file"
      · subst hfile
        exact ⟨_, rfl, fun base => (reaches_scheme h).trans reaches_fileHost⟩
      · exact ⟨_, rfl, fun base => (reaches_scheme h).trans (reaches_ignoreSlashes hspecial hfile)⟩
  | false =>
      by_cases hhead : rest.head? = some 0x2f
      · cases rest with
        | nil => cases hhead
        | cons ch tail =>
            cases hhead
            exact ⟨_, rfl, fun base => (reaches_scheme h).trans (reaches_pathOrAuthority hspecial)⟩
      · exact ⟨_, rfl, fun base => (reaches_scheme h).trans (reaches_opaquePath hspecial hhead)⟩

/-- The text of a URL begins with its scheme, and with two solidi when it is special. -/
theorem ownedInput_href (hwell : url.WellFormed) :
    ∃ rest, ownedInput (href url) = url.scheme ++ 0x3a :: rest ∧
      (isSpecialScheme url.scheme = true → ∃ tail, rest = 0x2f :: 0x2f :: tail) := by
  have hplain : ∀ ch ∈ url.scheme ++ [0x3a], isC0OrSpace ch = false ∧ isAsciiTabOrNewline ch = false :=
    List.forall_mem_append.2 ⟨fun ch hch => isSchemeCharacter_plain (hwell.scheme.characters ch hch),
      List.forall_mem_singleton.2 (by decide)⟩
  have hne (text : Bytes) : url.scheme ++ text ≠ [] := fun h => hwell.scheme.ne_nil (List.append_eq_nil_iff.1 h).1
  cases hhost : url.hasHost with
  | true =>
      have htext : ∃ text, href url = url.scheme ++ ([0x3a] ++ ascii "//") ++ text := by
        rw [href, serializeUrl, serializeHost, if_pos hhost]
        exact ⟨_, by simp only [List.append_assoc]; rfl⟩
      obtain ⟨text, htext⟩ := htext
      have hslashes : ∀ ch ∈ url.scheme ++ ([0x3a] ++ ascii "//"),
          isC0OrSpace ch = false ∧ isAsciiTabOrNewline ch = false := by
        rw [← List.append_assoc]
        exact List.forall_mem_append.2
          ⟨hplain, List.forall_mem_cons.2 ⟨by decide, List.forall_mem_singleton.2 (by decide)⟩⟩
      refine ⟨0x2f :: 0x2f :: removeTabsAndNewlines (text.rdropWhile isC0OrSpace), ?_, fun _ => ⟨_, rfl⟩⟩
      rw [htext, ownedInput_append text (hne _) hslashes, List.append_assoc]
      rfl
  | false =>
      have htext : ∃ text, href url = url.scheme ++ [0x3a] ++ text := by
        rw [href, serializeUrl]
        exact ⟨_, by simp only [List.append_assoc]; rfl⟩
      obtain ⟨text, htext⟩ := htext
      refine ⟨removeTabsAndNewlines (text.rdropWhile isC0OrSpace), ?_, fun hspecial => ?_⟩
      · rw [htext, ownedInput_append text (hne _) hplain, List.append_assoc]
        rfl
      · rw [(hwell.noHost hhost).1] at hspecial
        cases hspecial

/-- A URL that is written is read in the same way with every base. -/
theorem parses_href (hwell : url.WellFormed) (base base' : Option UrlRecord) (r : Except UrlError UrlRecord) :
    Parses base (href url) r ↔ Parses base' (href url) r := by
  obtain ⟨rest, howned, hslashes⟩ := ownedInput_href hwell
  obtain ⟨s, hfree, hreaches⟩ := reaches_baseFree hwell.scheme hslashes
  rw [← howned] at hreaches
  exact parses_iff_of_reaches (hreaches base) (hreaches base') hfree

/-! ## Identities -/

/-- The empty reference and a reference that is a fragment change the fragment only, and a URL that is written does not
depend on the base. -/
theorem reference_identities :
    (∀ b, Parsed b → b.isOpaquePath = false →
      (∃ url, Parses (some b) [] (.ok url) ∧ url.components = { b.components with hasFragment := false, fragment := [] }) ∧
      (∀ f cps, utf8DecodeAll f = .ok cps → ∃ url, Parses (some b) (0x23 :: f) (.ok url)) ∧
      ∀ f url, Parses (some b) (0x23 :: f) (.ok url) →
        url.components = { b.components with
          hasFragment := true
          fragment := (fragmentInput f).flatMap (encodeByte fragmentPercentEncodeSet) }) ∧
    ∀ u, Parsed u → ∀ b r, Parses (some b) (href u) r ↔ Parses none (href u) r := by
  refine ⟨fun b hb hlist => ?_, fun u hu b r => parses_href hu.wellFormed _ _ r⟩
  have hwell := hb.wellFormed
  have hpath : (referenceRecord b).path = [] := by
    rw [referenceRecord]
    split <;> rfl
  have hfragment (f : Bytes) := ends_reference hwell hlist (fragmentInput f)
  refine ⟨⟨_, (ends_empty hwell hlist).parses, ?_⟩, fun f cps hf => ?_, fun f url hurl => ?_⟩
  · rw [finish_split _ hwell hlist hpath, components_referenceRecord hwell]
  · obtain ⟨cps', hcps'⟩ := decode_fragment hf
    have hends := hfragment f
    rw [fragmentInput, hcps', ← fragmentInput, ← ownedInput_fragment] at hends
    exact ⟨_, hends.parses⟩
  · have hends := hfragment f
    rw [← ownedInput_fragment] at hends
    have hsame := hurl.unique hends.parses
    split at hsame
    · cases hsame
      have hcomponents := finish_split { beginFragment (referenceRecord b) with
        fragment := (fragmentInput f).flatMap (encodeByte fragmentPercentEncodeSet) } hwell hlist hpath
      exact hcomponents.trans (congrArg (fun c : Components => { c with
        hasFragment := true
        fragment := (fragmentInput f).flatMap (encodeByte fragmentPercentEncodeSet) }) (components_referenceRecord hwell))
    · cases hsame

/-- References of one base. -/
theorem reference_identities_query :
    ∃ b url url', Parses none (ascii "http://a/b?q#f") (.ok b) ∧ Parses (some b) [] (.ok url) ∧
      url.components = { b.components with hasFragment := false, fragment := [] } ∧ Parses (some b) (ascii "#g") (.ok url') ∧
        url'.components = { b.components with hasFragment := true, fragment := ascii "g" } := by
  have hrun : (Lib.runLoop (pass none) 40 (.initial (ascii "http://a/b?q#f"))).map
      (fun r => r.toOption.map UrlRecord.isOpaquePath) = some (some false) := by decide +kernel
  obtain ⟨r, hr, hlist⟩ := Lib.returns_of_map_runLoop hrun
  cases r with
  | error e => cases hlist
  | ok b =>
      simp only [Except.toOption, Option.map_some, Option.some.injEq] at hlist
      obtain ⟨⟨url, hurl, hcomponents⟩, hdecode, hfragment⟩ := reference_identities.1 b (.absolute hr) hlist
      obtain ⟨url', hurl'⟩ := hdecode (ascii "g") _ (utf8DecodeAll_ascii (by decide))
      refine ⟨b, url, url', hr, hurl, hcomponents, hurl', ?_⟩
      rw [hfragment (ascii "g") url' hurl']
      congr 1

end Rad.Url
