import Rad.Json.ReadBack

/-!
# What a call of the serializer writes

Each entry writes the first bytes of what it has to write and leaves entries for the rest, so a call writes as much of
the text of the stack as fits into the buffer.
-/

namespace Rad.Json

variable {opts : SerializeOptions} {doubleToChars : UInt64 → Option Bytes}

/-! ## Texts -/

theorem length_hexStr (ch : UInt8) : (hexStr ch).length = 6 := by
  rw [hexStr, toCharsHex]
  split <;> rfl

theorem toCharsInt_ne_nil (i : Int) : toCharsInt i ≠ [] := by
  rw [toCharsInt]
  split
  · simp
  · exact toChars_ne_nil (by decide)

@[simp] theorem escaped_nil : escaped opts [] = [] := rfl

@[simp] theorem escaped_cons (ch : UInt8) (s : Bytes) : escaped opts (ch :: s) = escape opts ch ++ escaped opts s := rfl

@[simp] theorem escapedFrom_nil (k : Nat) : escapedFrom opts [] k = [] := rfl

@[simp] theorem escapedFrom_zero (s : Bytes) : escapedFrom opts s 0 = escaped opts s := by
  cases s <;> rfl

theorem escapedFrom_cons {ch : UInt8} {s : Bytes} {k : Nat} (hk : k ≠ 0) :
    escapedFrom opts (ch :: s) k = (escape opts ch).drop ((escape opts ch).length - k) ++ escaped opts s := by
  rw [escapedFrom, if_neg hk]

@[simp] theorem pendingText_nil : pendingText opts doubleToChars [] = [] := rfl

@[simp] theorem pendingText_cons (e : Entry) (stack : List Entry) :
    pendingText opts doubleToChars (e :: stack) =
      e.pending opts doubleToChars ++ pendingText opts doubleToChars stack := rfl

@[simp] theorem pendingText_append (xs ys : List Entry) :
    pendingText opts doubleToChars (xs ++ ys) =
      pendingText opts doubleToChars xs ++ pendingText opts doubleToChars ys := by
  simp [pendingText]

@[simp] theorem escapeOk_zero (s : Bytes) : EscapeOk opts s 0 := .inl rfl

theorem EscapeOk.nil {k : Nat} (h : EscapeOk opts [] k) : k = 0 := by
  rcases h with rfl | ⟨ch, t, heq, -⟩
  · rfl
  · cases heq

theorem EscapeOk.lt {ch : UInt8} {s : Bytes} {k : Nat} (h : EscapeOk opts (ch :: s) k) (hk : k ≠ 0) :
    k < (escape opts ch).length := by
  rcases h with rfl | ⟨c, t, heq, hlt⟩
  · exact absurd rfl hk
  · cases heq
    exact hlt

/-! ## Strings -/

/-- What `write_escaped_string` comes to. -/
structure Escapes (opts : SerializeOptions) (s : Bytes) (k n : Nat) (r : (Bytes × Nat) × Bytes) : Prop where
  text : r.2 ++ escapedFrom opts r.1.1 r.1.2 = escapedFrom opts s k
  length_le : r.2.length ≤ n
  ok : EscapeOk opts r.1.1 r.1.2
  nil_of_lt : r.2.length < n → r.1.1 = []

/-- What is written of the first character, and then of the rest. -/
theorem Escapes.cons {ch : UInt8} {s part : Bytes} {k n m : Nat} {r : (Bytes × Nat) × Bytes}
    (hpart : part ++ escaped opts s = escapedFrom opts (ch :: s) k) (hn : part.length + m = n)
    (h : Escapes opts s 0 m r) : Escapes opts (ch :: s) k n (r.1, part ++ r.2) := by
  refine ⟨?_, ?_, h.ok, fun hlt => h.nil_of_lt ?_⟩
  · rw [List.append_assoc, h.text, escapedFrom_zero, hpart]
  · have := h.length_le
    rw [List.length_append]
    omega
  · rw [List.length_append] at hlt
    omega

theorem escapedFrom_hex {ch : UInt8} {s : Bytes} {k : Nat} (hescape : escape opts ch = hexStr ch) :
    escapedFrom opts (ch :: s) k = (hexStr ch).drop (6 - if k = 0 then 6 else k) ++ escaped opts s := by
  rcases Nat.eq_zero_or_pos k with rfl | hk
  · simp [hescape]
  · rw [escapedFrom_cons (by omega), hescape, length_hexStr, if_neg (by omega)]

theorem writeEscapedString_escapes {s : Bytes} {k n : Nat} (h : EscapeOk opts s k) :
    Escapes opts s k n (writeEscapedString opts s k n) := by
  fun_induction writeEscapedString opts s k n with
  | case1 k n => exact ⟨rfl, Nat.zero_le _, h, fun _ => rfl⟩
  | case2 k ch s => exact ⟨rfl, Nat.le_refl _, h, fun hlt => absurd hlt (Nat.lt_irrefl 0)⟩
  | case3 ch s hshort =>
      -- the buffer ends behind the backslash
      have hescape : escape opts ch = [0x5c, escapeChar ch] := if_pos hshort
      refine ⟨?_, Nat.le_refl _, .inr ⟨ch, s, rfl, by simp [hescape]⟩, fun hlt => absurd hlt (Nat.lt_irrefl 1)⟩
      simp [escapedFrom_cons, hescape]
  | case4 ch s hshort n r ih =>
      have hescape : escape opts ch = [0x5c, escapeChar ch] := if_pos hshort
      have hpart : [0x5c, escapeChar ch] ++ escaped opts s = escapedFrom opts (ch :: s) 0 := by simp [hescape]
      exact Escapes.cons hpart (by simp; omega) (ih (escapeOk_zero s))
  | case5 k ch s n hshort hk r ih =>
      have hescape : escape opts ch = [0x5c, escapeChar ch] := if_pos hshort
      have hlt := h.lt hk
      simp only [hescape, List.length_cons, List.length_nil] at hlt
      obtain rfl : k = 1 := by omega
      have hpart : [escapeChar ch] ++ escaped opts s = escapedFrom opts (ch :: s) 1 := by
        simp [escapedFrom_cons, hescape]
      exact Escapes.cons hpart (by simp; omega) (ih (escapeOk_zero s))
  | case6 k ch s n hshort hctl len part hopen =>
      -- the buffer ends inside the escape
      have hescape : escape opts ch = hexStr ch := by rw [escape, if_neg hshort, if_pos hctl]
      have hlen : len ≤ 6 := by
        have hlt := h.lt (k := k)
        rw [hescape, length_hexStr] at hlt
        simp only [len]
        split <;> omega
      have hpart : part.length = min (n + 1) len := by
        simp only [part, List.length_take, List.length_drop, length_hexStr]
        omega
      refine ⟨?_, List.length_take_le _ _, .inr ⟨ch, s, rfl, ?_⟩, fun hlt => absurd hlt ?_⟩
      · have hdrop : 6 - (len - part.length) = (6 - len) + (n + 1) := by omega
        rw [escapedFrom_hex hescape, escapedFrom_hex hescape, if_neg hopen, hdrop, ← List.drop_drop,
          ← List.append_assoc]
        exact congrArg (· ++ _) (List.take_append_drop (n + 1) _)
      · rw [hescape, length_hexStr]
        show len - part.length < 6
        omega
      · show ¬part.length < n + 1
        omega
  | case7 k ch s n hshort hctl len part hclosed r ih =>
      have hescape : escape opts ch = hexStr ch := by rw [escape, if_neg hshort, if_pos hctl]
      have hdrop : ((hexStr ch).drop (6 - len)).length ≤ n + 1 := by
        have hle : part.length ≤ n + 1 := List.length_take_le _ _
        rw [List.length_drop, length_hexStr]
        omega
      have hpart : part = (hexStr ch).drop (6 - len) := List.take_of_length_le hdrop
      refine Escapes.cons ?_ ?_ (ih (escapeOk_zero s))
      · rw [escapedFrom_hex hescape, hpart]
      · rw [← hpart] at hdrop
        omega
  | case8 k ch s n hshort hctl r ih =>
      have hescape : escape opts ch = [ch] := by rw [escape, if_neg hshort, if_neg hctl]
      obtain rfl : k = 0 := by
        by_contra hk
        have hlt := h.lt hk
        simp only [hescape, List.length_cons, List.length_nil] at hlt
        omega
      have hpart : [ch] ++ escaped opts s = escapedFrom opts (ch :: s) 0 := by simp [hescape]
      exact Escapes.cons hpart (by simp; omega) (ih (escapeOk_zero s))

/-! ## Entries -/

/-- What an entry comes to when it has a buffer of `n` bytes. -/
structure Wrote (opts : SerializeOptions) (doubleToChars : UInt64 → Option Bytes) (n : Nat) (e : Entry)
    (w : List Entry × Bytes) : Prop where
  text : w.2 ++ pendingText opts doubleToChars w.1 = e.pending opts doubleToChars
  length_le : w.2.length ≤ n
  ok : ∀ e' ∈ w.1, e'.Ok opts
  pos : e.Writes → w.2 ≠ []
  writes : w.2 = [] → ∃ e' ∈ w.1.head?, e'.Writes

theorem writePieceOfString_wrote {n written : Nat} {text : Bytes} {entry : Nat → Entry} (hn : 0 < n)
    (hpending : ∀ k, (entry k).pending opts doubleToChars = text.drop k)
    (hok : ∀ k, k < text.length → (entry k).Ok opts) (hwritten : written < text.length) :
    Wrote opts doubleToChars n (entry written) (writePieceOfString n written text entry) := by
  have hne : (text.drop written).take n ≠ [] := by
    simp only [ne_eq, List.take_eq_nil_iff, List.drop_eq_nil_iff]
    omega
  have hlen : ((text.drop written).take n).length = min n (text.length - written) := by simp
  refine ⟨?_, List.length_take_le _ _, ?_, fun _ => hne, fun h => absurd h hne⟩
  · rw [hpending, writePieceOfString]
    split
    · rename_i hall
      simp only [pendingText_nil, List.append_nil, hlen] at hall ⊢
      exact List.take_of_length_le (by simp; omega)
    · simp only [pendingText_cons, pendingText_nil, List.append_nil, hpending, hlen]
      rcases Nat.le_total n (text.length - written) with hle | hle
      · rw [Nat.min_eq_left hle, ← List.drop_drop, List.take_append_drop]
      · rw [Nat.min_eq_right hle, Nat.add_sub_cancel' (by omega), List.drop_length, List.append_nil]
        exact List.take_of_length_le (by simp; omega)
  · rw [writePieceOfString]
    intro e' he'
    split at he'
    · cases he'
    · rename_i hall
      obtain rfl := List.mem_singleton.1 he'
      rw [hlen] at hall ⊢
      exact hok _ (by omega)

theorem writePieceOfText_wrote {n : Nat} {text : Bytes} {entry : Bytes → Entry} (hn : 0 < n)
    (hpending : ∀ t, (entry t).pending opts doubleToChars = t) (hok : ∀ t, t ≠ [] → (entry t).Ok opts)
    (htext : text ≠ []) : Wrote opts doubleToChars n (entry text) (writePieceOfText n text entry) := by
  have hne : text.take n ≠ [] := by
    simp only [ne_eq, List.take_eq_nil_iff, htext, or_false]
    omega
  refine ⟨?_, List.length_take_le _ _, ?_, fun _ => hne, fun h => absurd h hne⟩
  · have hall : text.take n ++ text.drop (text.take n).length = text :=
      (List.prefix_append_drop (List.take_prefix n text)).symm
    rw [hpending, writePieceOfText]
    split
    · rename_i hnil
      rw [List.isEmpty_iff.1 hnil] at hall
      simpa using hall
    · simpa [hpending] using hall
  · rw [writePieceOfText]
    intro e' he'
    split at he'
    · cases he'
    · rename_i hnil
      obtain rfl := List.mem_singleton.1 he'
      exact hok _ fun h => hnil (List.isEmpty_iff.2 h)

/-- A string with some of its characters written, by the quote that opens it and its characters. -/
theorem writeQuotedString_wrote {n : Nat} {s : Bytes} {quotes k : Nat} (hn : 0 < n)
    (h : (Entry.stringValue s quotes k).Ok opts) :
    Wrote opts doubleToChars n (.stringValue s quotes k) (writeQuotedString opts n s quotes k) := by
  obtain ⟨hquotes, hesc⟩ := h
  rw [writeQuotedString]
  generalize hopen : (if quotes = 0 then [0x22] else [] : Bytes) = openQuote
  have hquotes' : (if quotes = 0 then 1 else quotes) = 1 := by split <;> omega
  have hlen : openQuote.length ≤ n := by
    rw [← hopen]
    split
    · exact hn
    · exact Nat.zero_le _
  have hr := writeEscapedString_escapes (n := n - openQuote.length) hesc
  generalize writeEscapedString opts s k (n - openQuote.length) = r at hr ⊢
  have hpending : (Entry.stringValue s quotes k).pending opts doubleToChars =
      openQuote ++ escapedFrom opts s k ++ [0x22] := by rw [Entry.pending, hopen]
  simp only [hquotes']
  split
  · -- the buffer ends behind the opening quote
    have hne : openQuote ≠ [] := by
      rintro rfl
      simp only [List.length_nil] at *
      omega
    refine ⟨?_, hlen, ?_, fun _ => hne, fun hnil => absurd hnil hne⟩
    · rw [hpending]
      simp [Entry.pending]
    · intro e' he'
      obtain rfl := List.mem_singleton.1 he'
      exact ⟨Nat.le_refl 1, hesc⟩
  · rename_i hpos
    split
    · -- the buffer ends among the characters
      rename_i hfull
      have hne : openQuote ++ r.2 ≠ [] := by
        intro hnil
        obtain ⟨-, hnil⟩ := List.append_eq_nil_iff.1 hnil
        rw [hnil, List.length_nil] at hfull
        omega
      refine ⟨?_, ?_, ?_, fun _ => hne, fun hnil => absurd hnil hne⟩
      · rw [hpending, ← hr.text]
        simp [Entry.pending]
      · have := hr.length_le
        simp only [List.length_append]
        omega
      · intro e' he'
        obtain rfl := List.mem_singleton.1 he'
        exact ⟨Nat.le_refl 1, hr.ok⟩
    · rename_i hrest
      have hnil := hr.nil_of_lt (by omega)
      refine ⟨?_, ?_, by simp, fun _ => by simp, by simp⟩
      · rw [hpending, ← hr.text, hnil]
        simp
      · simp only [List.length_append, List.length_singleton]
        omega

theorem writeKeySymbols_wrote {n : Nat} {quotes : Nat} (hn : 0 < n) (hquotes : 1 ≤ quotes) (hquotes' : quotes ≤ 3) :
    Wrote opts doubleToChars n (.key [] 0 quotes) (writeKeySymbols n [] 0 quotes) := by
  have hlength : keySymbols.length = 3 := rfl
  have h := @writePieceOfString_wrote opts doubleToChars n (quotes - 1) keySymbols (fun written => .key [] 0 (written + 1))
    hn (fun k => by simp [Entry.pending]) (fun k hk => ⟨by omega, escapeOk_zero _, fun _ => rfl⟩) (by omega)
  rwa [show quotes - 1 + 1 = quotes by omega] at h

theorem writeQuotedKey_wrote {n : Nat} {s : Bytes} {quotes k : Nat} (hn : 0 < n)
    (h : (Entry.key s k quotes).Ok opts) :
    Wrote opts doubleToChars n (.key s k quotes) (writeQuotedKey opts n s k quotes) := by
  obtain ⟨hquotes, hesc, hnil⟩ := h
  rw [writeQuotedKey]
  have hpending : (Entry.key s k quotes).pending opts doubleToChars =
      (if quotes = 0 then [0x22] else []) ++ escapedFrom opts s k ++
        keySymbols.drop ((if quotes = 0 then 1 else quotes) - 1) := by
    rw [Entry.pending]
    split <;> simp_all
  have hnil' : 2 ≤ (if quotes = 0 then 1 else quotes) → s = [] := by
    split
    · omega
    · exact hnil
  have hlen : (if quotes = 0 then [0x22] else [] : Bytes).length ≤ n := by
    split
    · exact hn
    · exact Nat.zero_le _
  have hone : 1 ≤ (if quotes = 0 then 1 else quotes) := by split <;> omega
  have hthree : (if quotes = 0 then 1 else quotes) ≤ 3 := by split <;> omega
  generalize (if quotes = 0 then [0x22] else [] : Bytes) = openQuote at hpending hlen ⊢
  generalize (if quotes = 0 then 1 else quotes) = q at hpending hnil' hone hthree ⊢
  have hr := writeEscapedString_escapes (n := n - openQuote.length) hesc
  generalize hreq : writeEscapedString opts s k (n - openQuote.length) = r at hr ⊢
  dsimp only
  split
  · -- the buffer ends among the characters
    rename_i hfull
    have hne : openQuote ++ r.2 ≠ [] := by
      intro heq
      have := congrArg List.length heq
      rw [List.length_append, List.length_nil] at this
      omega
    refine ⟨?_, ?_, ?_, fun _ => hne, fun heq => absurd heq hne⟩
    · rw [hpending, ← hr.text]
      simp [Entry.pending, show q ≠ 0 by omega]
    · have := hr.length_le
      rw [List.length_append]
      omega
    · intro e' he'
      obtain rfl := List.mem_singleton.1 he'
      refine ⟨hthree, hr.ok, fun htwo => ?_⟩
      obtain rfl := hnil' htwo
      rw [← hreq]
      rfl
  · rename_i hrest
    have hnil := hr.nil_of_lt (by omega)
    have hok := hr.ok
    rw [hnil] at hok
    have hzero := hok.nil
    have hw : Wrote opts doubleToChars (n - openQuote.length - r.2.length) _ _ :=
      writeKeySymbols_wrote (by omega) hone hthree
    rw [hnil, hzero]
    have hne := hw.pos trivial
    refine ⟨?_, ?_, hw.ok, fun _ => by simp [hne], fun heq => ?_⟩
    · rw [List.append_assoc, hw.text, hpending, ← hr.text, hnil]
      simp [Entry.pending, show q ≠ 0 by omega]
    · have := hw.length_le
      simp only [List.length_append]
      omega
    · simp [hne] at heq

theorem makeItemTypeFromValue_pending {v : Value} (hv : v.NoDouble) :
    (makeItemTypeFromValue doubleToChars opts v).pending opts doubleToChars = v.text opts doubleToChars := by
  cases v with
  | double d => exact absurd hv id
  | string s => simp [makeItemTypeFromValue, Entry.pending, Value.text, quoted]
  | array a => cases a <;> rfl
  | object o => cases o <;> rfl
  | _ => rfl

theorem makeItemTypeFromValue_ok {v : Value} (hv : v.NoDouble) : (makeItemTypeFromValue doubleToChars opts v).Ok opts := by
  cases v with
  | null => exact Nat.zero_lt_succ 3
  | bool b => cases b <;> exact Nat.zero_lt_succ _
  | int64 i => exact toCharsInt_ne_nil _
  | uint64 u => exact toChars_ne_nil (by decide)
  | double d => exact absurd hv id
  | string s => exact ⟨Nat.zero_le 1, escapeOk_zero s⟩
  | array a =>
      cases a with
      | nil => exact Nat.zero_lt_succ 1
      | cons v vs => exact ⟨hv, fun _ => List.cons_ne_nil v vs⟩
  | object o =>
      cases o with
      | nil => exact Nat.zero_lt_succ 1
      | cons kv o => exact ⟨hv, fun _ => List.cons_ne_nil kv o⟩

theorem makeItemTypeFromValue_writes (v : Value) : (makeItemTypeFromValue doubleToChars opts v).Writes := by
  cases v with
  | double d =>
      rw [makeItemTypeFromValue, makeDoubleValueEntry]
      split
      · trivial
      · split <;> trivial
  | array a => cases a <;> trivial
  | object o => cases o <;> trivial
  | _ => trivial

theorem pushElement_pending {v : Value} {rest : List Value} (hv : v.NoDouble) :
    pendingText opts doubleToChars (pushElement doubleToChars opts v rest) =
      Value.textElements opts doubleToChars (v :: rest) := by
  rw [pushElement, pendingText_cons, makeItemTypeFromValue_pending hv]
  cases rest with
  | nil => simp [Entry.pending, Value.textElements]
  | cons w vs => simp [Entry.pending, Value.textElements]

theorem pushMember_pending {kv : Bytes × Value} {rest : Members} (hv : kv.2.NoDouble) :
    pendingText opts doubleToChars (pushMember doubleToChars opts kv rest) =
      Value.textMembers opts doubleToChars (kv :: rest) := by
  rw [pushMember, pendingText_cons, pendingText_cons, makeItemTypeFromValue_pending hv]
  cases rest with
  | nil => simp [Entry.pending, Value.textMembers, keyText]
  | cons w vs => simp [Entry.pending, Value.textMembers, keyText]

theorem pushElement_ok {v : Value} {rest : List Value} (h : Value.NoDoubleElements (v :: rest)) :
    ∀ e ∈ pushElement doubleToChars opts v rest, e.Ok opts := by
  intro e he
  rcases List.mem_cons.1 he with rfl | he
  · exact makeItemTypeFromValue_ok h.1
  · rcases List.mem_append.1 he with hcomma | harray
    · split at hcomma
      · cases hcomma
      · obtain rfl := List.mem_singleton.1 hcomma
        exact Nat.zero_lt_succ 1
    · obtain rfl := List.mem_singleton.1 harray
      exact ⟨h.2, nofun⟩

theorem pushMember_ok {kv : Bytes × Value} {rest : Members} (h : Value.NoDoubleMembers (kv :: rest)) :
    ∀ e ∈ pushMember doubleToChars opts kv rest, e.Ok opts := by
  intro e he
  rcases List.mem_cons.1 he with rfl | he
  · exact ⟨Nat.zero_le 3, escapeOk_zero _, fun h => by omega⟩
  rcases List.mem_cons.1 he with rfl | he
  · exact makeItemTypeFromValue_ok h.1
  · rcases List.mem_append.1 he with hcomma | hobject
    · split at hcomma
      · cases hcomma
      · obtain rfl := List.mem_singleton.1 hcomma
        exact Nat.zero_lt_succ 1
    · obtain rfl := List.mem_singleton.1 hobject
      exact ⟨h.2, nofun⟩

theorem serializeArray_wrote {n : Nat} {items : List Value} {firstBracket : Bool} (hn : 0 < n)
    (h : (Entry.arrayValue items firstBracket).Ok opts) :
    Wrote opts doubleToChars n (.arrayValue items firstBracket) (serializeArray doubleToChars opts items firstBracket) := by
  obtain ⟨hitems, hfirst⟩ := h
  cases items with
  | nil =>
      cases firstBracket with
      | false => exact absurd rfl (hfirst rfl)
      | true => exact ⟨rfl, hn, by simp [serializeArray], fun _ => nofun, nofun⟩
  | cons v rest =>
      have hpending := @pushElement_pending opts doubleToChars v rest hitems.1
      cases firstBracket with
      | false => exact ⟨congrArg (0x5b :: ·) hpending, hn, pushElement_ok hitems, fun _ => nofun, nofun⟩
      | true =>
          refine ⟨hpending, Nat.zero_le n, pushElement_ok hitems, nofun, fun _ => ⟨_, rfl, ?_⟩⟩
          exact makeItemTypeFromValue_writes v

theorem serializeObject_wrote {n : Nat} {items : Members} {firstBracket : Bool} (hn : 0 < n)
    (h : (Entry.objectValue items firstBracket).Ok opts) :
    Wrote opts doubleToChars n (.objectValue items firstBracket)
      (serializeObject doubleToChars opts items firstBracket) := by
  obtain ⟨hitems, hfirst⟩ := h
  cases items with
  | nil =>
      cases firstBracket with
      | false => exact absurd rfl (hfirst rfl)
      | true => exact ⟨rfl, hn, by simp [serializeObject], fun _ => nofun, nofun⟩
  | cons kv rest =>
      have hpending := @pushMember_pending opts doubleToChars kv rest hitems.1
      cases firstBracket with
      | false => exact ⟨congrArg (0x7b :: ·) hpending, hn, pushMember_ok hitems, fun _ => nofun, nofun⟩
      | true =>
          refine ⟨hpending, Nat.zero_le n, pushMember_ok hitems, nofun, fun _ => ⟨_, rfl, ?_⟩⟩
          trivial

/-- The entry at the back of the stack. -/
theorem writeEntry_wrote {n : Nat} {e : Entry} (hn : 0 < n) (h : e.Ok opts) :
    Wrote opts doubleToChars n e (writeEntry doubleToChars opts n e) := by
  cases e with
  | nullValue written => exact writePieceOfString_wrote hn (fun _ => rfl) (fun _ hk => hk) h
  | boolValue b written => cases b <;> exact writePieceOfString_wrote hn (fun _ => rfl) (fun _ hk => hk) h
  | int64Value text => exact writePieceOfText_wrote hn (fun _ => rfl) (fun _ ht => ht) h
  | uint64Value text => exact writePieceOfText_wrote hn (fun _ => rfl) (fun _ ht => ht) h
  | doubleValue text => exact absurd h id
  | stringValue s quotes k => exact writeQuotedString_wrote hn h
  | key s k quotes => exact writeQuotedKey_wrote hn h
  | emptyArray written => exact writePieceOfString_wrote hn (fun _ => rfl) (fun _ hk => hk) h
  | arrayValue items firstBracket => exact serializeArray_wrote hn h
  | emptyObject written => exact writePieceOfString_wrote hn (fun _ => rfl) (fun _ hk => hk) h
  | objectValue items firstBracket => exact serializeObject_wrote hn h
  | commaSpace written => exact writePieceOfString_wrote hn (fun _ => rfl) (fun _ hk => hk) h

/-! ## Calls -/

/-- What a call comes to that has a buffer of `n` bytes. -/
structure ReadOk (opts : SerializeOptions) (doubleToChars : UInt64 → Option Bytes) (n : Nat) (stack : List Entry)
    (r : List Entry × Bytes) : Prop where
  text : r.2 ++ pendingText opts doubleToChars r.1 = pendingText opts doubleToChars stack
  ok : ∀ e ∈ r.1, e.Ok opts
  length_le : r.2.length ≤ n
  full : r.2.length = n ∨ r.1 = []

/-- An entry at the back that does not write needs one pass more. -/
theorem readLoop_ok {fuel n : Nat} {stack : List Entry} (hok : ∀ e ∈ stack, e.Ok opts)
    (hfuel : 2 * n ≤ fuel + 1) (hwrites : 2 * n = fuel + 1 → ∀ e ∈ stack.head?, e.Writes) :
    ReadOk opts doubleToChars n stack (readLoop doubleToChars opts fuel n stack) := by
  induction fuel generalizing n stack with
  | zero =>
      obtain rfl : n = 0 := by omega
      exact ⟨rfl, hok, Nat.zero_le 0, .inl rfl⟩
  | succ fuel ih =>
      cases n with
      | zero => exact ⟨rfl, hok, Nat.zero_le 0, .inl rfl⟩
      | succ n =>
          cases stack with
          | nil => exact ⟨rfl, hok, Nat.zero_le _, .inr rfl⟩
          | cons e stack =>
              have hw := @writeEntry_wrote opts doubleToChars (n + 1) e (Nat.zero_lt_succ n)
                (hok e List.mem_cons_self)
              rw [readLoop]
              generalize writeEntry doubleToChars opts (n + 1) e = w at hw ⊢
              have hok' : ∀ e' ∈ w.1 ++ stack, e'.Ok opts := fun e' he' =>
                (List.mem_append.1 he').elim (hw.ok e') fun h => hok e' (List.mem_cons_of_mem e h)
              have hlen := hw.length_le
              have hr : ReadOk opts doubleToChars (n + 1 - w.2.length) (w.1 ++ stack)
                  (readLoop doubleToChars opts fuel (n + 1 - w.2.length) (w.1 ++ stack)) := by
                by_cases hnil : w.2 = []
                · -- the next pass writes
                  obtain ⟨e', he', hw'⟩ := hw.writes hnil
                  have hfuel' : 2 * (n + 1) ≠ fuel + 1 + 1 := fun heq => hw.pos (hwrites heq e rfl) hnil
                  rw [hnil, List.length_nil]
                  refine ih hok' (by omega) fun _ e'' he'' => ?_
                  rw [List.head?_append, Option.mem_def.1 he'] at he''
                  cases he''
                  exact hw'
                · have hpos := List.length_pos_of_ne_nil hnil
                  exact ih hok' (by omega) fun heq => by omega
              refine ⟨?_, hr.ok, ?_, ?_⟩
              · rw [List.append_assoc, hr.text, pendingText_append, ← List.append_assoc, hw.text, pendingText_cons]
              · have := hr.length_le
                rw [List.length_append]
                omega
              · rw [List.length_append]
                exact hr.full.imp_left fun h => by omega

/-- A call writes as much of what is left as fits, and leaves the rest. -/
theorem Serializer.readInto_ok {s : Serializer} {n : Nat} (hok : ∀ e ∈ s.stack, e.Ok s.opts) :
    (s.readInto doubleToChars n).2 = (pendingText s.opts doubleToChars s.stack).take n ∧
    pendingText s.opts doubleToChars (s.readInto doubleToChars n).1.stack =
      (pendingText s.opts doubleToChars s.stack).drop n ∧
    ∀ e ∈ (s.readInto doubleToChars n).1.stack, e.Ok s.opts := by
  have h : ReadOk s.opts doubleToChars n s.stack (readLoop doubleToChars s.opts (2 * n) n s.stack) :=
    readLoop_ok hok (by omega) fun heq => by omega
  rw [readInto, ← h.text]
  refine ⟨?_, ?_, h.ok⟩
  · rcases h.full with hfull | hnil
    · exact (List.take_left' hfull).symm
    · rw [hnil, pendingText_nil, List.append_nil, List.take_of_length_le h.length_le]
  · rcases h.full with hfull | hnil
    · exact (List.drop_left' hfull).symm
    · rw [hnil, pendingText_nil, List.append_nil, List.drop_of_length_le h.length_le]

theorem Value.textElements_ne_nil (vs : List Value) : Value.textElements opts doubleToChars vs ≠ [] := by
  induction vs with
  | nil => simp [Value.textElements]
  | cons v vs ih =>
      cases vs with
      | nil => simp [Value.textElements]
      | cons w vs => simp [Value.textElements, ih]

theorem Value.textMembers_ne_nil (o : Members) : Value.textMembers opts doubleToChars o ≠ [] := by
  cases o with
  | nil => simp [Value.textMembers]
  | cons kv o => cases o <;> simp [Value.textMembers, keyText]

theorem Entry.Ok.pending_ne_nil {e : Entry} (h : e.Ok opts) : e.pending opts doubleToChars ≠ [] := by
  cases e with
  | nullValue written => exact mt List.drop_eq_nil_iff.1 (Nat.not_le.2 h)
  | boolValue b written => cases b <;> exact mt List.drop_eq_nil_iff.1 (Nat.not_le.2 h)
  | int64Value text => exact h
  | uint64Value text => exact h
  | doubleValue text => exact absurd h id
  | stringValue s quotes k => simp [Entry.pending]
  | key s k quotes =>
      have hlength : keySymbols.length = 3 := rfl
      have hquotes : quotes ≤ 3 := h.1
      have hsymbols : keySymbols.drop (quotes - 1) ≠ [] := mt List.drop_eq_nil_iff.1 (by omega)
      simp [Entry.pending, hsymbols]
  | emptyArray written => exact mt List.drop_eq_nil_iff.1 (Nat.not_le.2 h)
  | arrayValue items firstBracket => simp [Entry.pending, Value.textElements_ne_nil]
  | emptyObject written => exact mt List.drop_eq_nil_iff.1 (Nat.not_le.2 h)
  | objectValue items firstBracket => simp [Entry.pending, Value.textMembers_ne_nil]
  | commaSpace written => exact mt List.drop_eq_nil_iff.1 (Nat.not_le.2 h)

/-- A serializer is done when nothing is left to write. -/
theorem Serializer.done_iff {s : Serializer} (hok : ∀ e ∈ s.stack, e.Ok s.opts) :
    s.done = true ↔ pendingText s.opts doubleToChars s.stack = [] := by
  rw [done, List.isEmpty_iff]
  constructor
  · intro h
    rw [h, pendingText_nil]
  · intro h
    cases hstack : s.stack with
    | nil => rfl
    | cons e stack =>
        rw [hstack, pendingText_cons] at h
        exact absurd (List.append_eq_nil_iff.1 h).1 (hok e (hstack ▸ List.mem_cons_self)).pending_ne_nil

end Rad.Json
