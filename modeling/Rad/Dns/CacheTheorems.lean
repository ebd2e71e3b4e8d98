import Mathlib.Data.Finset.Image
import Mathlib.Data.Finset.Insert
import Rad.Dns.Cache

/-!
# Lookups in the cache

A lookup follows the canonical names that have not expired. It ends unless these go around.
-/

namespace Rad.Dns

/-! ## Following canonical names -/

/-- A name has an address of the wanted family that has not expired. -/
def CacheStore.HasAddress (s : CacheStore) (now : Int) (af : AddressFamily) (host : Bytes) : Prop :=
  ∃ e ∈ s.addresses, e.expired now = false ∧ e.isMatch host af = true

instance (s : CacheStore) (now : Int) (af : AddressFamily) (host : Bytes) : Decidable (s.HasAddress now af host) :=
  inferInstanceAs (Decidable (∃ e ∈ s.addresses, e.expired now = false ∧ e.isMatch host af = true))

/-- The canonical name of a name: that of the last entry for it that has not expired. -/
def CacheStore.canonicalName (s : CacheStore) (now : Int) (host : Bytes) : Option Bytes :=
  ((s.cnames.filter fun e => !e.expired now && e.isMatch host).getLast?).map (·.cname)

/-- Following the canonical names leads from a name to another one. -/
abbrev CacheStore.Follows (s : CacheStore) (now : Int) : Bytes → Bytes → Prop :=
  Relation.ReflTransGen fun host cname => s.canonicalName now host = some cname

/-- A lookup for a name ends, and its result is whether the names that are followed lead to one with an address. -/
def FindCorrect (s : CacheStore) (now : Int) (af : AddressFamily) (port : Nat) (host : Bytes) (results : List Endpoint) :
    Prop :=
  ∃ r, Lib.Returns (findPass now af port) ⟨host, s, results⟩ r ∧
    (r.found = true ↔ ∃ cname, s.Follows now host cname ∧ s.HasAddress now af cname)

/-- The canonical names lead on from a name that has no address itself. -/
abbrev CacheStore.LeadsOn (s : CacheStore) (now : Int) (af : AddressFamily) (host cname : Bytes) : Prop :=
  ¬s.HasAddress now af host ∧ s.canonicalName now host = some cname

/-- The names that a lookup follows come back to one of them. -/
def CacheStore.GoesAround (s : CacheStore) (now : Int) (af : AddressFamily) (host : Bytes) : Prop :=
  ∃ cname, Relation.ReflTransGen (s.LeadsOn now af) host cname ∧ Relation.TransGen (s.LeadsOn now af) cname cname

/-! ## The loop over names -/

/-- A pass of the lookup, as far as names are concerned. -/
def namePass (s : CacheStore) (now : Int) (af : AddressFamily) (host : Bytes) : Lib.Pass Bytes Bool :=
  if s.HasAddress now af host then .done true
  else
    match s.canonicalName now host with
    | some cname => .next cname
    | none => .done false

section

variable {s s' : CacheStore} {now : Int} {af : AddressFamily} {port : Nat} {host : Bytes} {results : List Endpoint}

theorem namePass_next_iff {cname : Bytes} : namePass s now af host = .next cname ↔ s.LeadsOn now af host cname := by
  rw [namePass]
  split
  · rename_i haddress
    simp [CacheStore.LeadsOn, haddress]
  · rename_i haddress
    split
    · rename_i cname' hcname
      simp [CacheStore.LeadsOn, haddress, hcname]
    · rename_i hnone
      simp [CacheStore.LeadsOn, hnone]

theorem namePass_found {found : Bool} (h : Lib.Returns (namePass s now af) host found) :
    found = true ↔ ∃ cname, s.Follows now host cname ∧ s.HasAddress now af cname := by
  induction h with
  | @done host found hdone =>
      rw [namePass] at hdone
      split at hdone
      · rename_i haddress
        cases hdone
        exact iff_of_true rfl ⟨host, .refl, haddress⟩
      · rename_i haddress
        split at hdone
        · cases hdone
        · rename_i hnone
          cases hdone
          refine iff_of_false Bool.false_ne_true ?_
          rintro ⟨cname, hfollows, hcname⟩
          rcases hfollows.cases_head with rfl | ⟨host', hnext, -⟩
          · exact haddress hcname
          · rw [hnone] at hnext
            cases hnext
  | @next host host' found hnext _ ih =>
      obtain ⟨haddress, hcname⟩ := namePass_next_iff.1 hnext
      rw [ih]
      constructor
      · rintro ⟨cname, hfollows, h⟩
        exact ⟨cname, .head hcname hfollows, h⟩
      · rintro ⟨cname, hfollows, h⟩
        rcases hfollows.cases_head with rfl | ⟨host'', hfirst, hrest⟩
        · exact absurd h haddress
        · rw [hcname] at hfirst
          cases hfirst
          exact ⟨cname, hrest, h⟩

theorem exists_returns_namePass_iff : (∃ found, Lib.Returns (namePass s now af) host found) ↔ ¬s.GoesAround now af host := by
  have hstep : (fun h h' => namePass s now af h = .next h') = s.LeadsOn now af := by
    funext h h'
    exact propext namePass_next_iff
  have hvisits : ∀ cname, Lib.Visits (namePass s now af) host cname →
      cname ∈ insert host (s.cnames.map (·.cname)).toFinset := by
    intro cname h
    rw [Finset.mem_insert, List.mem_toFinset, List.mem_map]
    rcases h.cases_tail with rfl | ⟨host', -, hnext⟩
    · exact .inl rfl
    · obtain ⟨e, he, rfl⟩ := Option.map_eq_some_iff.1 (namePass_next_iff.1 hnext).2
      exact .inr ⟨e, (List.mem_filter.1 (List.mem_of_getLast? he)).1, rfl⟩
  rw [Lib.exists_returns_iff_acyclic hvisits]
  unfold Lib.Visits Lib.LeadsTo
  rw [hstep]
  simp only [CacheStore.GoesAround, not_exists, not_and]

/-! ## The lookup as a loop over names -/

/-- The entries that have not expired are the same. -/
def SameLive (now : Int) (s s' : CacheStore) : Prop := s.clearExpired now = s'.clearExpired now

theorem SameLive.hasAddress (h : SameLive now s s') : s.HasAddress now af host ↔ s'.HasAddress now af host := by
  have hlive : ∀ t : CacheStore, t.HasAddress now af host ↔
      ∃ e ∈ (t.clearExpired now).addresses, e.isMatch host af = true := by
    intro t
    simp only [CacheStore.HasAddress, CacheStore.clearExpired, List.mem_filter, Bool.not_eq_true', and_assoc]
  rw [hlive, hlive, h]

theorem SameLive.canonicalName (h : SameLive now s s') : s.canonicalName now host = s'.canonicalName now host := by
  have hlive : ∀ t : CacheStore, t.canonicalName now host =
      (((t.clearExpired now).cnames.filter (·.isMatch host)).getLast?).map (·.cname) := by
    intro t
    rw [CacheStore.canonicalName, CacheStore.clearExpired, List.filter_filter]
    simp only [Bool.and_comm]
  rw [hlive, hlive, h]

theorem scanAddresses_spec (now : Int) (host : Bytes) (af : AddressFamily) (l : List CacheIpEntry) :
    (scanAddresses now host af l).1.filter (fun e => !e.expired now) = l.filter (fun e => !e.expired now) ∧
      ((scanAddresses now host af l).2.isSome ↔ ∃ e ∈ l, e.expired now = false ∧ e.isMatch host af = true) := by
  induction l with
  | nil => simp [scanAddresses]
  | cons e es ih =>
      rw [scanAddresses]
      split
      · rename_i hexpired
        simp [hexpired, ih]
      · rename_i hlive
        rw [Bool.not_eq_true] at hlive
        split
        · rename_i hmatch
          simp [hlive, hmatch]
        · rename_i hmatch
          simp [hlive, hmatch, ih]

theorem findCname_spec (now : Int) (host : Bytes) (l : List CacheCanonicalNameEntry) (result : Option CacheCanonicalNameEntry) :
    (findCname now host result l).1.filter (fun e => !e.expired now) = l.filter (fun e => !e.expired now) ∧
      (findCname now host result l).2 = ((l.filter fun e => !e.expired now && e.isMatch host).getLast?).or result := by
  induction l generalizing result with
  | nil => simp [findCname]
  | cons e es ih =>
      rw [findCname]
      split
      · rename_i hexpired
        simp [hexpired, ih]
      · rename_i hlive
        rw [Bool.not_eq_true] at hlive
        by_cases hmatch : e.isMatch host = true
        · simp [hlive, hmatch, ih, List.getLast?_cons]
        · simp [hlive, hmatch, ih]

/-- A pass of the lookup does what the pass over names does, and only removes entries that have expired. -/
theorem findPass_of_namePass (port : Nat) (results : List Endpoint) (h : SameLive now s s') :
    (∀ cname, namePass s now af host = .next cname →
      ∃ s'', SameLive now s s'' ∧ findPass now af port ⟨host, s', results⟩ = .next ⟨cname, s'', results⟩) ∧
    ∀ found, namePass s now af host = .done found →
      ∃ r, findPass now af port ⟨host, s', results⟩ = .done r ∧ r.found = found := by
  obtain ⟨hscan, hfound⟩ := scanAddresses_spec now host af s'.addresses
  obtain ⟨hfilter, hcname⟩ := findCname_spec now host s'.cnames none
  have haddress : (scanAddresses now host af s'.addresses).2.isSome ↔ s.HasAddress now af host :=
    hfound.trans h.hasAddress.symm
  have hname : (findCname now host none s'.cnames).2.map (·.cname) = s.canonicalName now host := by
    rw [hcname, Option.or_none, h.canonicalName]
    rfl
  have hlive : SameLive now s ⟨(scanAddresses now host af s'.addresses).1, (findCname now host none s'.cnames).1⟩ := by
    rw [SameLive, h, CacheStore.clearExpired, CacheStore.clearExpired, hscan, hfilter]
  rw [namePass, findPass]
  by_cases hempty : host = []
  · subst hempty
    have hnoAddress : ¬s.HasAddress now af [] := by
      rintro ⟨e, -, -, hmatch⟩
      simp [CacheIpEntry.isMatch, compareTwoDomains] at hmatch
    have hnoName : s.canonicalName now [] = none := by
      have hfilter : (s.cnames.filter fun e => !e.expired now && e.isMatch []) = [] :=
        List.filter_eq_nil_iff.2 fun e _ => by simp [CacheCanonicalNameEntry.isMatch, compareTwoDomains]
      rw [CacheStore.canonicalName, hfilter]
      rfl
    simp [hnoAddress, hnoName]
  · have hne : ¬host.isEmpty = true := by rwa [List.isEmpty_iff]
    simp only [hne, Bool.false_eq_true, ↓reduceIte]
    cases hscanned : (scanAddresses now host af s'.addresses).2 with
    | some e =>
        have hhas := haddress.1 (by rw [hscanned]; rfl)
        simp [hhas]
    | none =>
        have hnot : ¬s.HasAddress now af host := fun hhas => by
          have := haddress.2 hhas
          rw [hscanned] at this
          cases this
        cases hlast : (findCname now host none s'.cnames).2 with
        | some e =>
            rw [hlast] at hname
            simp only [if_neg hnot, ← hname, Option.map_some]
            refine ⟨?_, nofun⟩
            rintro _ ⟨⟩
            exact ⟨_, hlive, rfl⟩
        | none =>
            rw [hlast] at hname
            simp only [if_neg hnot, ← hname, Option.map_none]
            refine ⟨nofun, ?_⟩
            rintro _ ⟨⟩
            exact ⟨_, rfl, rfl⟩

theorem returns_find_of_name (port : Nat) (results : List Endpoint) {found : Bool} (h : SameLive now s s')
    (hr : Lib.Returns (namePass s now af) host found) :
    ∃ r, Lib.Returns (findPass now af port) ⟨host, s', results⟩ r ∧ r.found = found := by
  induction hr generalizing s' results with
  | done hdone =>
      obtain ⟨r, hpass, hfound⟩ := (findPass_of_namePass port results h).2 _ hdone
      exact ⟨r, .done hpass, hfound⟩
  | next hnext _ ih =>
      obtain ⟨s'', hlive, hpass⟩ := (findPass_of_namePass port results h).1 _ hnext
      obtain ⟨r, hr, hfound⟩ := ih results hlive
      exact ⟨r, .next hpass hr, hfound⟩

theorem returns_name_of_find {t : FindState} {r : FindResult} (h : SameLive now s t.store)
    (hr : Lib.Returns (findPass now af port) t r) : Lib.Returns (namePass s now af) t.hostname r.found := by
  induction hr with
  | @done t r hdone =>
      cases hpass : namePass s now af t.hostname with
      | done found =>
          obtain ⟨r', hpass', hfound⟩ := (findPass_of_namePass port t.results h).2 _ hpass
          rw [hdone] at hpass'
          cases hpass'
          rw [hfound]
          exact .done hpass
      | next cname =>
          obtain ⟨s'', -, hpass'⟩ := (findPass_of_namePass port t.results h).1 _ hpass
          rw [hdone] at hpass'
          cases hpass'
  | @next t t' r hnext _ ih =>
      cases hpass : namePass s now af t.hostname with
      | done found =>
          obtain ⟨r', hpass', -⟩ := (findPass_of_namePass port t.results h).2 _ hpass
          rw [hnext] at hpass'
          cases hpass'
      | next cname =>
          obtain ⟨s'', hlive, hpass'⟩ := (findPass_of_namePass port t.results h).1 _ hpass
          rw [hnext] at hpass'
          cases hpass'
          exact .next hpass (ih hlive)

theorem findCorrect_iff_not_goesAround : FindCorrect s now af port host results ↔ ¬s.GoesAround now af host := by
  rw [← exists_returns_namePass_iff]
  constructor
  · rintro ⟨r, hr, -⟩
    exact ⟨r.found, returns_name_of_find rfl hr⟩
  · rintro ⟨found, hname⟩
    obtain ⟨r, hr, rfl⟩ := returns_find_of_name port results (rfl : SameLive now s s) hname
    exact ⟨r, hr, namePass_found hname⟩

end

/-! ## Every sequence of calls -/

/-- After every sequence of calls, a lookup is correct exactly when the names that it follows do not go around. -/
theorem find_correct_iff (calls : List CacheCall) (now : Int) (af : AddressFamily) (port : Nat) (host : Bytes)
    (results : List Endpoint) :
    FindCorrect (cacheAfter calls) now af port host results ↔ ¬(cacheAfter calls).GoesAround now af host :=
  findCorrect_iff_not_goesAround

/-- Two names that are aliases of each other are looked up without an end. -/
theorem find_around :
    ¬∀ calls now af port host results, FindCorrect (cacheAfter calls) now af port host results := by
  intro h
  have hcorrect := h [.addCname 0 [0x61] [0x62] 60, .addCname 0 [0x62] [0x61] 60] 0 .ipv4 80 [0x61] []
  have hthere : (cacheAfter [.addCname 0 [0x61] [0x62] 60, .addCname 0 [0x62] [0x61] 60]).LeadsOn 0 .ipv4 [0x61] [0x62] :=
    ⟨by decide, by decide⟩
  have hback : (cacheAfter [.addCname 0 [0x61] [0x62] 60, .addCname 0 [0x62] [0x61] 60]).LeadsOn 0 .ipv4 [0x62] [0x61] :=
    ⟨by decide, by decide⟩
  exact findCorrect_iff_not_goesAround.1 hcorrect ⟨[0x61], .refl, .tail (.single hthere) hback⟩

end Rad.Dns
