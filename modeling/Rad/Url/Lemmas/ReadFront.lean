import Rad.Url.Lemmas.Address
import Rad.Url.Lemmas.ReadPath

/-!
# What is in front of the path is read back
-/

namespace Rad.Url

variable {base : Option UrlRecord} {u url url' : UrlRecord} {ctx ctx' : UrlParseContext} {before text rest tail : Bytes}
  {state state' : ParseState} {v : View}

/-! ## The end of the authority -/

/-- The byte belongs to the authority, and it does not end the credentials. -/
def isAuthorityByte (b : UInt8) : Bool :=
  b < 0x80 && b != 0x23 && b != 0x2f && b != 0x3f && b != 0x40 && b != 0x5c

theorem isAuthorityByte_of_toNat {b : UInt8}
    (h : b.toNat < 0x80 ∧ b.toNat ≠ 0x23 ∧ b.toNat ≠ 0x2f ∧ b.toNat ≠ 0x3f ∧ b.toNat ≠ 0x40 ∧ b.toNat ≠ 0x5c) :
    isAuthorityByte b = true := by
  simp only [isAuthorityByte, Bool.and_eq_true, decide_eq_true_eq, bne_iff_ne, ne_eq, UInt8.lt_iff_toNat_lt,
    ← UInt8.toNat_inj, UInt8.reduceToNat]
  omega

theorem authorityByte_facts {b : UInt8} (h : isAuthorityByte b = true) (rest : Bytes) (url : UrlRecord) :
    b < 0x80 ∧ endsAuthority (asciiView b rest) url = false ∧ (asciiView b rest).c ≠ 0x40 := by
  simp only [isAuthorityByte, Bool.and_eq_true, decide_eq_true_eq, bne_iff_ne, ne_eq, ← UInt8.toNat_inj,
    UInt8.reduceToNat] at h
  obtain ⟨⟨⟨⟨⟨hascii, hmark⟩, hslash⟩, hquery⟩, hat⟩, hback⟩ := h
  refine ⟨hascii, ?_, hat⟩
  simp only [endsAuthority, codepointView, beq_eq_false_iff_ne.2 hslash, beq_eq_false_iff_ne.2 hquery,
    beq_eq_false_iff_ne.2 hmark, beq_eq_false_iff_ne.2 hback, Bool.or_false, Bool.false_and]

theorem authorityByte_userinfo {b : UInt8} (h : keeps userinfoPercentEncodeSet b = true) : isAuthorityByte b = true := by
  simp only [keeps, isUnreservedCharacterSet, userinfoPercentEncodeSet, Bool.not_eq_true', List.any_cons, List.any_nil,
    PerecentEncodeSetItem.toEncode, Bool.or_eq_false_iff, decide_eq_false_iff_not, beq_eq_false_iff_ne] at h
  refine isAuthorityByte_of_toNat ?_
  omega

/-- The text behind the authority. -/
def IsBehindAuthority (tail : Bytes) : Prop :=
  tail = [] ∨ tail.head? = some 0x2f ∨ tail.head? = some 0x3f ∨ tail.head? = some 0x23

/-- The end of the authority is seen. -/
def View.AtEnd (v : View) : Prop := (v.isEof = true ∧ v.c = 0) ∨ v.c = 0x2f ∨ v.c = 0x3f ∨ v.c = 0x23

theorem View.AtEnd.facts (h : v.AtEnd) (url : UrlRecord) :
    endsAuthority v url = true ∧ v.c ≠ 0x3a ∧ v.c ≠ 0x40 ∧ isAsciiNumeric v.c = false := by
  rcases h with ⟨heof, hc⟩ | hc | hc | hc
  · simp only [endsAuthority, heof, Bool.true_or, hc]
    decide
  all_goals
    simp only [endsAuthority, hc, beq_self_eq_true, Bool.true_or, Bool.or_true]
    decide

theorem reaches_atEnd (htail : IsBehindAuthority tail)
    (hrun : ∀ v : View, v.AtEnd → runState v base url ctx state = .ok ⟨state', url', ctx', .decrease⟩) :
    Reaches base ⟨state, url, ctx, before, tail⟩ ⟨state', url', ctx', before, tail⟩ := by
  cases tail with
  | nil => exact .decrease_eof fun _ _ => hrun _ (.inl ⟨rfl, rfl⟩)
  | cons ch tail =>
      rcases htail with h | h | h | h
      · cases h
      · cases h
        exact .decrease_ascii (by decide) (hrun _ (.inr (.inl rfl)))
      · cases h
        exact .decrease_ascii (by decide) (hrun _ (.inr (.inr (.inl rfl))))
      · cases h
        exact .decrease_ascii (by decide) (hrun _ (.inr (.inr (.inr rfl))))

theorem reaches_back {buffer : Bytes} (htail : IsBehindAuthority tail)
    (hrun : ∀ v : View, v.AtEnd →
      runState v base url ctx state = .ok ⟨state', url', ctx', .decreaseByBytesPlus1Codepoint buffer.length⟩) :
    Reaches base ⟨state, url, ctx, before ++ buffer, tail⟩ ⟨state', url', ctx', before, buffer ++ tail⟩ := by
  cases tail with
  | nil =>
      rw [List.append_nil]
      exact .back_eof fun _ _ => hrun _ (.inl ⟨rfl, rfl⟩)
  | cons ch tail =>
      rcases htail with h | h | h | h
      · cases h
      · cases h
        exact .back_ascii (by decide) (hrun _ (.inr (.inl rfl)))
      · cases h
        exact .back_ascii (by decide) (hrun _ (.inr (.inr (.inl rfl))))
      · cases h
        exact .back_ascii (by decide) (hrun _ (.inr (.inr (.inr rfl))))

/-- The path, the query and the fragment are behind the authority. -/
theorem isBehindAuthority_path (path : List Bytes) (u : UrlRecord) :
    IsBehindAuthority (urlPathSerializer path ++ rearText u) := by
  cases path with
  | nil => exact (rearText_head u).imp id .inr
  | cons segment path => exact .inr (.inl rfl)

/-! ## Credentials -/

/-- A text that is kept is put behind the userinfo. -/
theorem getUsernameAndPassword_kept (scheme text rest userinfo : Bytes) (passwordPos : Option Nat)
    (username password seen : Bool) (h : ∀ b ∈ text, keeps userinfoPercentEncodeSet b = true) :
    getUsernameAndPasswordFromBuffer (text ++ rest) (credentialsOnly scheme userinfo passwordPos username password) seen =
      getUsernameAndPasswordFromBuffer rest
        (credentialsOnly scheme (userinfo ++ text) passwordPos (username || (!seen && !text.isEmpty))
          (password || (seen && !text.isEmpty))) seen := by
  induction text generalizing userinfo username password with
  | nil => simp only [List.nil_append, List.append_nil, List.isEmpty_nil, Bool.not_true, Bool.and_false, Bool.or_false]
  | cons b text ih =>
      obtain ⟨hb, htext⟩ := List.forall_mem_cons.1 h
      have hascii := keeps_ascii holdsHigh_userinfo hb
      have hdecode := utf8DecodeUnchecked_ascii hascii (text ++ rest)
      have hcolon : ¬(b.toNat = 0x3a ∧ seen = false) := by
        rintro ⟨hc, -⟩
        rw [UInt8.toNat_inj.1 (hc.trans (show 0x3a = (0x3a : UInt8).toNat from rfl))] at hb
        exact absurd hb (by decide)
      have hencode : percentEncodeSet userinfoPercentEncodeSet [b] = .ok [b] :=
        percentEncodeSet_of_keeps holdsHigh_userinfo fun b' hb' => (List.mem_singleton.1 hb') ▸ hb
      have hunit : (b :: (text ++ rest)).take ((b :: (text ++ rest)).length - (text ++ rest).length) = [b] := by
        rw [List.length_cons, Nat.add_sub_cancel_left]
        rfl
      rw [List.cons_append, getUsernameAndPasswordFromBuffer]
      split
      · rename_i h'
        rw [hdecode] at h'
        cases h'
      · rename_i c rest' h'
        rw [hdecode] at h'
        cases h'
        rw [if_neg hcolon, hunit, hencode]
        have hrest (username password : Bool) := ih (userinfo ++ [b]) username password htext
        rw [List.append_assoc, List.singleton_append] at hrest
        cases seen with
        | true =>
            refine (hrest username true).trans ?_
            simp only [Bool.not_true, Bool.false_and, Bool.or_false, Bool.true_or, List.isEmpty_cons, Bool.not_false,
              Bool.and_true, Bool.or_true]
        | false =>
            refine (hrest true password).trans ?_
            simp only [Bool.false_and, Bool.or_false, Bool.true_or, List.isEmpty_cons, Bool.not_false, Bool.and_true,
              Bool.or_true]

/-- The record with the credentials of another one. -/
def readCredentials (u : UrlRecord) : UrlRecord :=
  credentialsOnly u.scheme (u.username ++ u.password) (if u.password = [] then none else some u.username.length)
    (!u.username.isEmpty) (!u.password.isEmpty)

theorem credentials_sub (u : UrlRecord) : u.username ⊆ u.userinfo ∧ u.password ⊆ u.userinfo := by
  constructor
  · rw [UrlRecord.username]
    split
    · exact List.nil_subset _
    · split
      · exact List.Subset.refl _
      · split
        · exact List.Subset.refl _
        · exact List.take_subset _ _
  · rw [UrlRecord.password]
    split
    · exact List.nil_subset _
    · exact List.drop_subset _ _

/-- The credentials are read from the text that is in front of the at sign. -/
theorem getUsernameAndPassword_read (h : ∀ b ∈ u.userinfo, keeps userinfoPercentEncodeSet b = true) :
    getUsernameAndPasswordFromBuffer (u.username ++ if u.password ≠ [] then 0x3a :: u.password else []) (blank u.scheme) false =
      (readCredentials u, !u.password.isEmpty) := by
  have hend (url : UrlRecord) (seen : Bool) : getUsernameAndPasswordFromBuffer [] url seen = (url, seen) := by
    rw [getUsernameAndPasswordFromBuffer]
    rfl
  have hpassword : ∀ b ∈ u.password, keeps userinfoPercentEncodeSet b = true := fun b hb => h b ((credentials_sub u).2 hb)
  rw [getUsernameAndPassword_kept _ _ _ _ _ _ _ _ fun b hb => h b ((credentials_sub u).1 hb), readCredentials]
  by_cases hnone : u.password = []
  · rw [if_neg (not_not.2 hnone), hend, hnone]
    simp only [List.nil_append, List.append_nil, Bool.not_false, Bool.true_and, Bool.false_or, Bool.false_and, if_true,
      List.isEmpty_nil, Bool.not_true]
  · rw [if_pos hnone, getUsernameAndPasswordFromBuffer]
    split
    · rename_i h'
      rw [utf8DecodeUnchecked_ascii (by decide)] at h'
      cases h'
    · rename_i c rest h'
      rw [utf8DecodeUnchecked_ascii (by decide)] at h'
      cases h'
      rw [if_pos ⟨rfl, rfl⟩]
      have hkept := getUsernameAndPassword_kept u.scheme u.password [] u.username (some u.username.length)
        (!u.username.isEmpty) false true hpassword
      rw [List.append_nil, hend] at hkept
      have hsome : u.password.isEmpty = false := by
        rw [List.isEmpty_eq_false_iff]
        exact hnone
      rw [hsome, if_neg hnone]
      rw [hsome] at hkept
      simp only [Bool.not_true, Bool.or_false, Bool.not_false, Bool.and_true, Bool.or_true] at hkept
      exact hkept

/-- The state in which the authority is read on. -/
structure InsideAuthority (ctx : UrlParseContext) : Prop where
  buffer : ctx.buffer = []
  path : ctx.path = []
  insideBrackets : ctx.insideBrackets = false

theorem InsideAuthority.same (h : InsideAuthority ctx) : { ctx with buffer := [] } = ctx := by rw [← h.buffer]

theorem reaches_authority_chunk (url : UrlRecord) (hctx : InsideAuthority ctx) (h : ∀ b ∈ text, isAuthorityByte b = true) :
    Reaches base ⟨.authority, url, ctx, before, text ++ rest⟩
      ⟨.authority, url, { ctx with buffer := text }, before ++ text, rest⟩ := by
  have hchunk : Reaches base ⟨.authority, url, { ctx with buffer := [] }, before, text ++ rest⟩
      ⟨.authority, url, { ctx with buffer := text }, before ++ text, rest⟩ := by
    refine reaches_chunk ctx [] fun ch hch => ?_
    obtain ⟨hascii, -⟩ := authorityByte_facts (h ch hch) [] url
    refine ⟨hascii, fun buffer rest => ?_⟩
    obtain ⟨-, hend, hat⟩ := authorityByte_facts (h ch hch) rest url
    rw [runState, authorityState, if_neg hat, hend]
    rfl
  rwa [hctx.same] at hchunk

/-- Each byte of the credentials belongs to the authority or is the at sign. -/
theorem credentials_bytes (h : ∀ b ∈ u.userinfo, keeps userinfoPercentEncodeSet b = true) :
    ∀ b ∈ serializeCredentials u, isAuthorityByte b = true ∨ b = 0x40 := by
  rw [serializeCredentials]
  split
  · refine List.forall_mem_append.2 ⟨List.forall_mem_append.2 ⟨fun b hb => .inl ?_, ?_⟩,
      List.forall_mem_singleton.2 (.inr rfl)⟩
    · exact authorityByte_userinfo (h b ((credentials_sub u).1 hb))
    · split
      · exact List.forall_mem_cons.2 ⟨by decide, fun b hb => .inl (authorityByte_userinfo (h b ((credentials_sub u).2 hb)))⟩
      · nofun
  · nofun

/-- The credentials are read, or there are none. -/
theorem reaches_credentials (base : Option UrlRecord) (before rest : Bytes)
    (h : ∀ b ∈ u.userinfo, keeps userinfoPercentEncodeSet b = true) :
    ∃ ctx : UrlParseContext, InsideAuthority ctx ∧ (ctx.atSignSeen = true → serializeCredentials u ≠ []) ∧
      Reaches base ⟨.authority, blank u.scheme, {}, before, serializeCredentials u ++ rest⟩
        ⟨.authority, readCredentials u, ctx, before ++ serializeCredentials u, rest⟩ := by
  rw [serializeCredentials]
  cases hcredentials : (u.hasUsername || u.hasPassword) with
  | false =>
      rw [Bool.or_eq_false_iff] at hcredentials
      have husername : u.username = [] := by rw [UrlRecord.username, hcredentials.1]; rfl
      have hpassword : u.password = [] := by rw [UrlRecord.password, hcredentials.2]; rfl
      have hblank : readCredentials u = blank u.scheme := by
        rw [readCredentials, husername, hpassword]
        rfl
      refine ⟨{}, ⟨rfl, rfl, rfl⟩, nofun, ?_⟩
      rw [hblank, if_neg Bool.false_ne_true, List.append_nil]
      exact .refl _
  | true =>
      rw [if_pos rfl]
      have hbytes : ∀ b ∈ u.username ++ (if u.password ≠ [] then 0x3a :: u.password else []), isAuthorityByte b = true := by
        refine List.forall_mem_append.2 ⟨fun b hb => authorityByte_userinfo (h b ((credentials_sub u).1 hb)), ?_⟩
        split
        · exact List.forall_mem_cons.2 ⟨by decide, fun b hb => authorityByte_userinfo (h b ((credentials_sub u).2 hb))⟩
        · nofun
      refine ⟨{ atSignSeen := true, passwordTokenSeen := !u.password.isEmpty }, ⟨rfl, rfl, rfl⟩,
        fun _ => List.append_ne_nil_of_right_ne_nil _ (List.cons_ne_nil _ _), ?_⟩
      have hchunk : Reaches base
          ⟨.authority, blank u.scheme, {}, before,
            (u.username ++ if u.password ≠ [] then 0x3a :: u.password else []) ++ 0x40 :: rest⟩ _ :=
        reaches_authority_chunk (blank u.scheme) ⟨rfl, rfl, rfl⟩ hbytes
      have hat : Reaches base
          ⟨.authority, blank u.scheme, { buffer := u.username ++ if u.password ≠ [] then 0x3a :: u.password else [] },
            before ++ (u.username ++ if u.password ≠ [] then 0x3a :: u.password else []), 0x40 :: rest⟩
          ⟨.authority, readCredentials u, { atSignSeen := true, passwordTokenSeen := !u.password.isEmpty },
            before ++ (u.username ++ if u.password ≠ [] then 0x3a :: u.password else []) ++ [0x40], rest⟩ := by
        refine .keep_ascii (by decide) ?_
        rw [runState, authorityState, if_pos (show (asciiView 0x40 rest).c = 0x40 from rfl)]
        simp only [Bool.false_eq_true, if_false, getUsernameAndPassword_read h]
      have hboth := hchunk.trans hat
      rw [List.append_assoc before] at hboth
      rw [List.append_assoc _ [0x40]]
      exact hboth

/-- What is behind the credentials is put back for the host state. -/
theorem reaches_hostState {authority : Bytes} (url : UrlRecord) (hctx : InsideAuthority ctx)
    (hsign : ctx.atSignSeen = true → authority ≠ []) (hbytes : ∀ b ∈ authority, isAuthorityByte b = true)
    (htail : IsBehindAuthority tail) :
    Reaches base ⟨.authority, url, ctx, before, authority ++ tail⟩ ⟨.host, url, ctx, before, authority ++ tail⟩ := by
  refine (reaches_authority_chunk url hctx hbytes).trans ?_
  have hback : Reaches base ⟨.authority, url, { ctx with buffer := authority }, before ++ authority, tail⟩
      ⟨.host, url, { ctx with buffer := [] }, before, authority ++ tail⟩ := by
    refine reaches_back htail fun v hv => ?_
    obtain ⟨hend, -, hat, -⟩ := hv.facts url
    have hfilled : ¬((ctx.atSignSeen && decide (authority = [])) = true) := by
      rw [Bool.and_eq_true, decide_eq_true_eq]
      exact fun h => hsign h.1 h.2
    rw [runState, authorityState, if_neg hat, hend, if_pos rfl, if_neg hfilled]
  rwa [hctx.same] at hback

/-! ## Hosts -/

/-- A text that the host state reads up to its end. -/
def IsHostText (host : Bytes) : Prop :=
  (∀ b ∈ host, isHostByte b = true) ∨ ∃ text, host = 0x5b :: text ++ [0x5d] ∧ ∀ b ∈ text, isAddressByte b = true

theorem IsHostText.authority {host : Bytes} (h : IsHostText host) : ∀ b ∈ host, isAuthorityByte b = true := by
  rcases h with h | ⟨text, rfl, h⟩
  · intro b hb
    have hb' := h b hb
    grind [isAuthorityByte, isHostByte]
  · refine List.forall_mem_append.2 ⟨List.forall_mem_cons.2 ⟨by decide, fun b hb => ?_⟩,
      List.forall_mem_singleton.2 (by decide)⟩
    have hb' := h b hb
    simp only [isAddressByte, isHexDigit, isAsciiNumeric, Bool.or_eq_true, beq_iff_eq, Bool.and_eq_true,
      decide_eq_true_eq, UInt8.le_iff_toNat_le, ← UInt8.toNat_inj, UInt8.reduceToNat] at hb'
    refine isAuthorityByte_of_toNat ?_
    omega

theorem hostState_byte {b : UInt8} (hb : isAuthorityByte b = true) (hcolon : b ≠ 0x3a ∨ ctx.insideBrackets = true)
    (rest : Bytes) (url : UrlRecord) :
    hostState (asciiView b rest) url ctx = .ok ⟨.host, url, { ctx with
      insideBrackets := if b = 0x5d then false else if b = 0x5b then true else ctx.insideBrackets
      buffer := ctx.buffer ++ [b] }, .keep⟩ := by
  obtain ⟨-, hend, -⟩ := authorityByte_facts hb rest url
  have hport : ¬((asciiView b rest).c = 0x3a ∧ ctx.insideBrackets = false) := by
    rintro ⟨hc, hfalse⟩
    rcases hcolon with hne | htrue
    · exact hne (UInt8.toNat_inj.1 hc)
    · rw [hfalse] at htrue
      cases htrue
  have hc (b' : UInt8) : (asciiView b rest).c = b'.toNat ↔ b = b' := UInt8.toNat_inj
  rw [hostState, if_neg hport, hend, if_neg Bool.false_ne_true]
  simp only [show (asciiView b rest).c = 0x5b ↔ b = 0x5b from hc 0x5b, show (asciiView b rest).c = 0x5d ↔ b = 0x5d from hc 0x5d]
  rfl

theorem reaches_hostText {host : Bytes} (url : UrlRecord) (hctx : InsideAuthority ctx) (h : IsHostText host) :
    Reaches base ⟨.host, url, ctx, before, host ++ rest⟩
      ⟨.host, url, { ctx with buffer := host }, before ++ host, rest⟩ := by
  have hauthority := h.authority
  have hplain {b : UInt8} : isHostByte b = true → b ≠ 0x3a ∧ b ≠ 0x5d ∧ b ≠ 0x5b := fun hb => by
    refine ⟨?_, ?_, ?_⟩ <;> rintro rfl <;> exact absurd hb (by decide)
  have hinside {b : UInt8} : isAddressByte b = true → b ≠ 0x5d ∧ b ≠ 0x5b := fun hb => by
    refine ⟨?_, ?_⟩ <;> rintro rfl <;> exact absurd hb (by decide)
  rcases h with h | ⟨text, rfl, h⟩
  · have hchunk : Reaches base ⟨.host, url, { ctx with buffer := [] }, before, host ++ rest⟩
        ⟨.host, url, { ctx with buffer := host }, before ++ host, rest⟩ := by
      refine reaches_chunk ctx [] fun ch hch => ?_
      obtain ⟨hcolon, hclose, hopen⟩ := hplain (h ch hch)
      refine ⟨(authorityByte_facts (hauthority ch hch) [] url).1, fun buffer rest => ?_⟩
      rw [runState, hostState_byte (hauthority ch hch) (.inl hcolon), if_neg hclose, if_neg hopen]
    rwa [hctx.same] at hchunk
  · obtain ⟨hopen, hclose⟩ := List.forall_mem_append.1 hauthority
    obtain ⟨hopen, htext⟩ := List.forall_mem_cons.1 hopen
    have hfirst : Reaches base ⟨.host, url, ctx, before, 0x5b :: (text ++ 0x5d :: rest)⟩
        ⟨.host, url, { ctx with insideBrackets := true, buffer := [0x5b] }, before ++ [0x5b], text ++ 0x5d :: rest⟩ := by
      refine .keep_ascii (by decide) ?_
      rw [runState, hostState_byte hopen (.inl (by decide)), hctx.buffer]
      rfl
    have hmiddle : Reaches base
        ⟨.host, url, { ctx with insideBrackets := true, buffer := [0x5b] }, before ++ [0x5b], text ++ 0x5d :: rest⟩
        ⟨.host, url, { ctx with insideBrackets := true, buffer := [0x5b] ++ text }, before ++ [0x5b] ++ text,
          0x5d :: rest⟩ := by
      refine reaches_chunk { ctx with insideBrackets := true } [0x5b] fun ch hch => ?_
      obtain ⟨hclose, hopen⟩ := hinside (h ch hch)
      refine ⟨(authorityByte_facts (htext ch hch) [] url).1, fun buffer rest => ?_⟩
      rw [runState, hostState_byte (htext ch hch) (.inr rfl), if_neg hclose, if_neg hopen]
    have hlast : Reaches base
        ⟨.host, url, { ctx with insideBrackets := true, buffer := [0x5b] ++ text }, before ++ [0x5b] ++ text, 0x5d :: rest⟩
        ⟨.host, url, { ctx with insideBrackets := false, buffer := [0x5b] ++ text ++ [0x5d] },
          before ++ [0x5b] ++ text ++ [0x5d], rest⟩ := by
      refine .keep_ascii (by decide) ?_
      rw [runState, hostState_byte (hclose 0x5d List.mem_cons_self) (.inr rfl)]
      rfl
    have hall := (hfirst.trans hmiddle).trans hlast
    rw [← hctx.insideBrackets] at hall
    rw [List.append_assoc before, List.append_assoc before] at hall
    rw [List.append_assoc _ [0x5d] rest]
    exact hall

/-! ## Ports -/

/-- The record with the host of another one. -/
def UrlRecord.withHost (url : UrlRecord) (kind : UrlRecord.HostKind) (host : Bytes) : UrlRecord :=
  { url.setHostFlag kind with host := host }

/-- The record with the port of another one. -/
def UrlRecord.withPort (url u : UrlRecord) : UrlRecord :=
  if u.hasPort then { url with flags := { url.flags with port := true }, port := u.port } else url

theorem digit_facts {b : UInt8} (h : isDigitOf 10 b = true) :
    b < 0x80 ∧ isAsciiNumeric b.toNat = true ∧ isAuthorityByte b = true := by
  have hb : 0x30 ≤ b.toNat ∧ b.toNat ≤ 0x39 := by
    simp only [isDigitOf, digitOf, UInt8.le_iff_toNat_le, UInt8.reduceToNat] at h
    split at h
    · assumption
    · repeat' split at h
      all_goals simp only [Option.any_some, Option.any_none, decide_eq_true_eq, Bool.false_eq_true] at h
      all_goals omega
  refine ⟨UInt8.lt_iff_toNat_lt.2 (show b.toNat < 0x80 by omega), ?_, isAuthorityByte_of_toNat (by omega)⟩
  rw [isAsciiNumeric, decide_eq_true hb.1, decide_eq_true hb.2]
  rfl

theorem reaches_port (url : UrlRecord) (hctx : InsideAuthority ctx) (port : UInt16)
    (hdefault : defaultSchemePort url.scheme ≠ some port) (htail : IsBehindAuthority tail) :
    Reaches base ⟨.port, url, ctx, before, toChars 10 port.toNat ++ tail⟩
      ⟨.pathStart, { url with flags := { url.flags with port := true }, port := port }, ctx,
        before ++ toChars 10 port.toNat, tail⟩ := by
  have hdigits : ∀ b ∈ toChars 10 port.toNat, isDigitOf 10 b = true :=
    List.all_eq_true.1 (toChars_digits (by decide) (by decide))
  have hchunk : Reaches base ⟨.port, url, { ctx with buffer := [] }, before, toChars 10 port.toNat ++ tail⟩
      ⟨.port, url, { ctx with buffer := toChars 10 port.toNat }, before ++ toChars 10 port.toNat, tail⟩ := by
    refine reaches_chunk ctx [] fun ch hch => ?_
    obtain ⟨hascii, hnumeric, -⟩ := digit_facts (hdigits ch hch)
    refine ⟨hascii, fun buffer rest => ?_⟩
    rw [runState, portState, if_pos (show isAsciiNumeric (asciiView ch rest).c = true from hnumeric)]
    rfl
  have hend : Reaches base
      ⟨.port, url, { ctx with buffer := toChars 10 port.toNat }, before ++ toChars 10 port.toNat, tail⟩
      ⟨.pathStart, { url with flags := { url.flags with port := true }, port := port }, { ctx with buffer := [] },
        before ++ toChars 10 port.toNat, tail⟩ := by
    refine reaches_atEnd htail fun v hv => ?_
    obtain ⟨hend, -, -, hnumeric⟩ := hv.facts url
    have hnumber : toNumeric 16 10 (toChars 10 port.toNat) = some port.toNat :=
      toNumeric_toChars (by decide) (by decide) port.toNat_lt
    rw [runState, portState, hnumeric, if_neg Bool.false_ne_true, hend, if_pos rfl]
    simp only [if_neg (toChars_ne_nil (n := port.toNat) (show 1 < 10 by decide)), hnumber, UInt16.ofNat_toNat, if_neg hdefault]
  rw [hctx.same] at hchunk hend
  exact hchunk.trans hend

/-- The host and the port are read. -/
theorem reaches_hostPort (url : UrlRecord) (hctx : InsideAuthority ctx) (hscheme : url.scheme = u.scheme)
    {kind : UrlRecord.HostKind} (hparse : parseHostText u.host (!isSpecialScheme u.scheme) = .ok (u.host, kind))
    (htext : IsHostText u.host) (hfilled : u.host = [] → isSpecialScheme u.scheme = false ∧ u.hasPort = false)
    (hdefault : u.hasPort = true → defaultSchemePort u.scheme ≠ some u.port) (htail : IsBehindAuthority tail) :
    Reaches base ⟨.host, url, ctx, before, u.host ++ (serializePort u ++ tail)⟩
      ⟨.pathStart, (url.withHost kind u.host).withPort u, ctx, before ++ u.host ++ serializePort u, tail⟩ := by
  have hhost : parseHost u.host (!isSpecialScheme url.scheme) url = .ok (url.withHost kind u.host) := by
    rw [parseHost, hscheme, hparse]
    rfl
  refine (reaches_hostText url hctx htext).trans ?_
  rw [serializePort, UrlRecord.withPort]
  cases hport : u.hasPort with
  | true =>
      have hne : u.host ≠ [] := fun hnil => by
        rw [(hfilled hnil).2] at hport
        cases hport
      have hcolon : Reaches base
          ⟨.host, url, { ctx with buffer := u.host }, before ++ u.host, 0x3a :: (toChars 10 u.port.toNat ++ tail)⟩
          ⟨.port, url.withHost kind u.host, { ctx with buffer := [] }, before ++ u.host ++ [0x3a],
            toChars 10 u.port.toNat ++ tail⟩ := by
        refine .keep_ascii (by decide) ?_
        rw [runState, hostState, if_pos ⟨show (asciiView 0x3a _).c = 0x3a from rfl, hctx.insideBrackets⟩, if_neg hne, hhost]
        rfl
      rw [hctx.same] at hcolon
      refine hcolon.trans ?_
      have hread : Reaches base
          ⟨.port, url.withHost kind u.host, ctx, before ++ u.host ++ [0x3a], toChars 10 u.port.toNat ++ tail⟩ _ :=
        reaches_port (url.withHost kind u.host) hctx u.port (hscheme ▸ hdefault hport) htail
      rw [List.append_assoc _ [0x3a]] at hread
      exact hread
  | false =>
      rw [if_neg Bool.false_ne_true, if_neg Bool.false_ne_true, List.append_nil]
      have hend : Reaches base ⟨.host, url, { ctx with buffer := u.host }, before ++ u.host, tail⟩
          ⟨.pathStart, url.withHost kind u.host, { ctx with buffer := [] }, before ++ u.host, tail⟩ := by
        refine reaches_atEnd htail fun v hv => ?_
        obtain ⟨hend, hcolon, -, -⟩ := hv.facts url
        have hempty : ¬(u.host = [] ∧ isSpecialScheme url.scheme = true) := by
          rintro ⟨hnil, hspecial⟩
          rw [hscheme, (hfilled hnil).1] at hspecial
          cases hspecial
        rw [runState, hostState, if_neg fun h => hcolon h.1, hend, if_pos rfl, if_neg hempty, hhost]
        rfl
      rw [hctx.same] at hend
      exact hend

/-! ## What is shown -/

theorem components_withHost (kind : UrlRecord.HostKind) (host : Bytes) :
    (url.withHost kind host).components = { url.components with hasHost := true, hostname := host } := by
  cases kind <;> rfl

theorem components_withPort (hscheme : url.scheme = u.scheme) (hport : url.flags.port = false) :
    (url.withPort u).components = { url.components with hasPort := u.hasPort, port := u.portNumber } := by
  rw [UrlRecord.withPort, UrlRecord.portNumber]
  cases u.hasPort with
  | true => rfl
  | false =>
      simp only [UrlRecord.components, UrlRecord.portNumber, UrlRecord.hasPort, hport, hscheme, Bool.false_eq_true, if_false]

theorem username_eq_nil_iff : u.username = [] ↔ u.hasUsername = false := by
  rw [UrlRecord.username]
  cases h : u.hasUsername with
  | false => simp
  | true =>
      rw [UrlRecord.hasUsername, Bool.and_eq_true, Bool.and_eq_true, decide_eq_true_eq, decide_eq_true_eq] at h
      obtain ⟨⟨-, hne⟩, hpos⟩ := h
      cases hp : u.passwordPos with
      | none => simp [hne]
      | some pos =>
          rw [hp] at hpos
          simp only [Bool.not_true, Bool.false_eq_true, if_false, reduceCtorEq, iff_false]
          split
          · exact hne
          · intro hnil
            rcases List.take_eq_nil_iff.1 hnil with rfl | hnil
            · exact hpos rfl
            · exact hne hnil

theorem components_readCredentials (u : UrlRecord) :
    (readCredentials u).components = { (blank u.scheme).components with username := u.username, password := u.password } := by
  have husername : (readCredentials u).username = u.username := by
    rw [UrlRecord.username, UrlRecord.hasUsername, readCredentials, credentialsOnly]
    by_cases hname : u.username = []
    · simp [hname]
    · by_cases hpassword : u.password = []
      · simp [hname, hpassword]
      · have hlong : 0 < u.password.length := List.length_pos_iff.2 hpassword
        simp only [ne_eq, List.append_eq_nil_iff, hname, hpassword, and_self, not_false_eq_true, decide_true,
          Bool.and_true, ↓reduceIte, Option.some.injEq, List.length_eq_zero_iff, Bool.not_not, List.isEmpty_iff,
          List.length_append, ge_iff_le, List.take_left', ite_eq_right_iff, List.append_right_eq_self, imp_false,
          not_le, Nat.lt_add_right_iff_pos, hlong]
  have hpassword : (readCredentials u).password = u.password := by
    rw [UrlRecord.password, UrlRecord.hasPassword, readCredentials, credentialsOnly]
    by_cases hpassword : u.password = []
    · simp [hpassword]
    · have hlong : 0 < u.password.length := List.length_pos_iff.2 hpassword
      simp [hpassword, hlong]
  rw [UrlRecord.components, husername, hpassword]
  rfl

theorem password_eq_nil_iff : u.password = [] ↔ u.hasPassword = false := by
  rw [UrlRecord.password]
  cases h : u.hasPassword with
  | false => simp
  | true =>
      rw [UrlRecord.hasPassword, Bool.and_eq_true, Option.any_eq_true] at h
      obtain ⟨-, pos, hpos, hlt⟩ := h
      rw [hpos]
      simpa using hlt

/-! ## From the beginning to the path -/

/-- A scheme and two solidi in front of an authority. -/
theorem reaches_authority {scheme : Bytes} (hscheme : IsScheme scheme) (hfile : scheme ≠ ascii "file")
    (hhead : isSpecialScheme scheme = true → ∀ ch, text.head? = some ch → isAuthorityByte ch = true ∨ ch = 0x40) :
    Reaches base ⟨.schemeStart, {}, {}, [], scheme ++ 0x3a :: 0x2f :: 0x2f :: text⟩
      ⟨.authority, blank scheme, {}, scheme ++ [0x3a] ++ [0x2f] ++ [0x2f], text⟩ := by
  cases hspecial : isSpecialScheme scheme with
  | true =>
      refine ((reaches_scheme hscheme).trans (reaches_ignoreSlashes hspecial hfile)).trans ?_
      cases text with
      | nil => exact .decrease_eof fun _ _ => rfl
      | cons ch text =>
          have hbyte : ch < 0x80 ∧ ch ≠ 0x2f ∧ ch ≠ 0x5c := by
            rcases hhead hspecial ch rfl with hch | rfl
            · grind [isAuthorityByte]
            · decide
          refine .decrease_ascii hbyte.1 ?_
          have hslash : (asciiView ch text).c ≠ 0x2f ∧ (asciiView ch text).c ≠ 0x5c :=
            ⟨fun h => hbyte.2.1 (UInt8.toNat_inj.1 h), fun h => hbyte.2.2 (UInt8.toNat_inj.1 h)⟩
          rw [runState, specialAuthorityIgnoreSlashesState, if_pos hslash]
  | false =>
      exact ((reaches_scheme hscheme).trans (reaches_pathOrAuthority hspecial)).trans (.keep_ascii (by decide) rfl)

/-- The record with what is in front of the path of another one that is no file. -/
def frontRecord (u : UrlRecord) (kind : UrlRecord.HostKind) : UrlRecord :=
  ((readCredentials u).withHost kind u.host).withPort u

theorem components_frontRecord (hhost : u.flags.host = true) (hlist : u.flags.opaquePath = false)
    (kind : UrlRecord.HostKind) : (frontRecord u kind).components = u.components.front := by
  have hport : ((readCredentials u).withHost kind u.host).flags.port = false := by
    rw [UrlRecord.withHost]
    exact UrlRecord.setHostFlag_port _ _
  have hscheme : ((readCredentials u).withHost kind u.host).scheme = u.scheme := by cases kind <;> rfl
  rw [frontRecord, components_withPort hscheme hport, components_withHost, components_readCredentials]
  simp only [UrlRecord.components, Components.front, UrlRecord.hasHost, UrlRecord.isOpaquePath, hhost, hlist]
  rfl

theorem components_file (kind : UrlRecord.HostKind) (hfile : u.scheme = ascii "file") (hbare : u.Bare)
    (hhost : u.flags.host = true) (hlist : u.flags.opaquePath = false) :
    (fileRecord.withHost kind u.host).components = u.components.front := by
  have husername : u.username = [] := username_eq_nil_iff.2 (by rw [UrlRecord.hasUsername, hbare.username]; rfl)
  have hpassword : u.password = [] := password_eq_nil_iff.2 (by rw [UrlRecord.hasPassword, hbare.password]; rfl)
  rw [components_withHost]
  simp only [UrlRecord.components, Components.front, husername, hpassword, UrlRecord.hasHost, UrlRecord.isOpaquePath, hhost,
    hlist, UrlRecord.hasPort, UrlRecord.portNumber, hbare.port, hfile]
  rfl

/-- From the authority to the path. -/
theorem reaches_frontRecord (base : Option UrlRecord) (before : Bytes) (hfront : u.Front) (hhost : u.flags.host = true)
    (hfile : u.scheme ≠ ascii "file") {kind : UrlRecord.HostKind}
    (hparse : parseHostText u.host (!isSpecialScheme u.scheme) = .ok (u.host, kind))
    (htext : IsHostText u.host) (htail : IsBehindAuthority tail) :
    ∃ (ctx : UrlParseContext) (before' : Bytes), InsideAuthority ctx ∧
      Reaches base
        ⟨.authority, blank u.scheme, {}, before, serializeCredentials u ++ (u.host ++ (serializePort u ++ tail))⟩
        ⟨.pathStart, frontRecord u kind, ctx, before', tail⟩ := by
  obtain ⟨ctx, hctx, hsign, hcredentials⟩ := reaches_credentials base before (u.host ++ (serializePort u ++ tail))
    hfront.userinfo
  have hfilled : u.host = [] → isSpecialScheme u.scheme = false ∧ u.hasPort = false := by
    intro hnil
    refine ⟨Bool.eq_false_iff.2 fun hspecial => hfile ((hfront.host hhost).special hnil hspecial), ?_⟩
    exact (hfront.bare hnil).port
  have hport : ∀ b ∈ serializePort u, isAuthorityByte b = true := by
    rw [serializePort]
    split
    · exact List.forall_mem_cons.2 ⟨by decide, fun b hb => (digit_facts (List.all_eq_true.1
        (toChars_digits (by decide) (by decide)) b hb)).2.2⟩
    · nofun
  have hbytes : ∀ b ∈ u.host ++ serializePort u, isAuthorityByte b = true :=
    List.forall_mem_append.2 ⟨htext.authority, hport⟩
  have hempty : ctx.atSignSeen = true → u.host ++ serializePort u ≠ [] := by
    intro hseen hnil
    have hbare := hfront.bare (List.append_eq_nil_iff.1 hnil).1
    refine hsign hseen ?_
    rw [serializeCredentials, UrlRecord.hasUsername, UrlRecord.hasPassword, hbare.username, hbare.password]
    rfl
  have hstate : Reaches base
      ⟨.authority, readCredentials u, ctx, before ++ serializeCredentials u, u.host ++ serializePort u ++ tail⟩
      ⟨.host, readCredentials u, ctx, before ++ serializeCredentials u, u.host ++ serializePort u ++ tail⟩ :=
    reaches_hostState (readCredentials u) hctx hempty hbytes htail
  rw [List.append_assoc u.host] at hstate
  have hread : Reaches base
      ⟨.host, readCredentials u, ctx, before ++ serializeCredentials u, u.host ++ (serializePort u ++ tail)⟩
      ⟨.pathStart, frontRecord u kind, ctx, before ++ serializeCredentials u ++ u.host ++ serializePort u, tail⟩ :=
    reaches_hostPort (readCredentials u) hctx (show (readCredentials u).scheme = u.scheme from rfl) hparse htext hfilled
      hfront.port htail
  exact ⟨ctx, _, hctx, (hcredentials.trans hstate).trans hread⟩

/-- The host of a file. -/
theorem reaches_fileRecord (base : Option UrlRecord) (before : Bytes) {kind : UrlRecord.HostKind}
    (hfile : u.scheme = ascii "file") (hlocal : u.host ≠ ascii "localhost")
    (hparse : parseHostText u.host (!isSpecialScheme u.scheme) = .ok (u.host, kind))
    (htext : IsHostText u.host) (htail : IsBehindAuthority tail) :
    Reaches base ⟨.fileHost, fileRecord, {}, before, u.host ++ tail⟩
      ⟨.pathStart, fileRecord.withHost kind u.host, {}, before ++ u.host, tail⟩ := by
  have hchunk : Reaches base ⟨.fileHost, fileRecord, {}, before, u.host ++ tail⟩
      ⟨.fileHost, fileRecord, { buffer := u.host }, before ++ u.host, tail⟩ := by
    refine reaches_chunk {} [] fun ch hch => ?_
    have hbyte := htext.authority ch hch
    refine ⟨(authorityByte_facts hbyte [] fileRecord).1, fun buffer rest => ?_⟩
    have hend := (authorityByte_facts hbyte rest fileRecord).2.1
    have hstop : ((asciiView ch rest).isEof || (asciiView ch rest).c == 0x2f || (asciiView ch rest).c == 0x5c ||
        (asciiView ch rest).c == 0x3f || (asciiView ch rest).c == 0x23) = false := by
      rw [endsAuthority, show isSpecialScheme fileRecord.scheme = true from isSpecialScheme_file, Bool.and_true] at hend
      simp only [Bool.or_eq_false_iff] at hend ⊢
      obtain ⟨⟨⟨⟨heof, hslash⟩, hquery⟩, hmark⟩, hback⟩ := hend
      exact ⟨⟨⟨⟨heof, hslash⟩, hback⟩, hquery⟩, hmark⟩
    rw [runState, fileHostState, hstop]
    rfl
  have hdrive : isWindowsDriveLetter u.host = false := by
    rw [Bool.eq_false_iff]
    intro hdrive
    obtain ⟨letter, mark, hhost, hmark, -⟩ := isWindowsDriveLetter_iff.1 hdrive
    rcases htext with hplain | ⟨text, hbrackets, -⟩
    · have hbyte := hplain mark (by rw [hhost]; exact List.mem_cons_of_mem _ List.mem_cons_self)
      rcases hmark with rfl | rfl <;> exact absurd hbyte (by decide)
    · have hlast : u.host.getLast? = some mark := by rw [hhost]; rfl
      rw [hbrackets, List.getLast?_concat, Option.some_inj] at hlast
      rcases hmark with h | h <;> exact absurd (hlast.trans h) (by decide)
  refine hchunk.trans (reaches_atEnd htail fun v hv => ?_)
  have hstop : (v.isEof || v.c == 0x2f || v.c == 0x5c || v.c == 0x3f || v.c == 0x23) = true := by
    rcases hv with ⟨heof, -⟩ | hc | hc | hc
    · rw [heof]
      rfl
    all_goals simp [hc]
  rw [runState, fileHostState, hstop, if_pos rfl]
  simp only [hdrive, Bool.false_eq_true, if_false]
  by_cases hnil : u.host = []
  · have hkind : kind = .empty := by
      rw [hnil, parseHostText, if_pos rfl] at hparse
      cases hparse
      rfl
    rw [if_pos hnil, hnil, hkind]
    rfl
  · have hhost : parseHost u.host (!isSpecialScheme fileRecord.scheme) fileRecord = .ok (fileRecord.withHost kind u.host) := by
      rw [parseHost, show fileRecord.scheme = u.scheme from hfile.symm, hparse]
      rfl
    have hlocal' : ¬(fileRecord.withHost kind u.host).host = ascii "localhost" := hlocal
    rw [if_neg hnil, hhost]
    simp only [Except.map, if_neg hlocal']

example : isWindowsDriveLetter (ascii "c|") = true := by decide +kernel

end Rad.Url
