import Mathlib.Algebra.Order.Group.Int
import Rad.Lib.Loop
import Rad.Text.Ascii

/-!
# The cache of lookups (include/rad/net/dns/dns_parser.h, src/net/dns/dns_parser.cpp)

The clock is an argument of the operations that read it: a number of seconds.
-/

namespace Rad.Dns

/-- `dns::compare_two_domains`. -/
def compareTwoDomains (domain1 domain2 : Bytes) : Bool :=
  if domain1.isEmpty || domain2.isEmpty then false
  else
    let wildcard1 := domain1.headD 0 == '*'.toUInt8
    let wildcard2 := domain2.headD 0 == '*'.toUInt8
    if wildcard1 = wildcard2 then iequal domain1 domain2
    else if domain1.length = 1 || domain2.length = 1 then false
    else
      let (domain1, domain2) := if wildcard2 then (domain2, domain1) else (domain1, domain2)
      match domain2.findIdx? (· = '.'.toUInt8) with
      | none => false
      | some firstDotIdx =>
        if firstDotIdx + 1 ≥ domain2.length then false else iequal (domain1.drop 1) (domain2.drop (firstDotIdx + 1))

inductive AddressFamily where
  | unspecified
  | ipv4
  | ipv6
  | other (family : Nat)
  deriving DecidableEq

inductive Address where
  | ipv4 (ip : Nat)
  | ipv6 (ip : Bytes)
  deriving DecidableEq

def Address.family : Address → AddressFamily
  | .ipv4 _ => .ipv4
  | .ipv6 _ => .ipv6

/-- An endpoint that is valid; others are no endpoint. -/
structure Endpoint where
  address : Address
  port : Nat
  deriving DecidableEq

/-- `cache_canonical_name_entry`. -/
structure CacheCanonicalNameEntry where
  expiryTime : Int
  aliasName : Bytes
  cname : Bytes
  deriving DecidableEq

/-- `cache_ip_entry`. -/
structure CacheIpEntry where
  expiryTime : Int
  hostname : Bytes
  address : Address
  deriving DecidableEq

namespace CacheCanonicalNameEntry

def expired (e : CacheCanonicalNameEntry) (now : Int) : Bool := now ≥ e.expiryTime

def isMatch (e : CacheCanonicalNameEntry) (host : Bytes) : Bool := compareTwoDomains e.aliasName host

end CacheCanonicalNameEntry

namespace CacheIpEntry

def expired (e : CacheIpEntry) (now : Int) : Bool := now ≥ e.expiryTime

def isMatch (e : CacheIpEntry) (host : Bytes) (af : AddressFamily) : Bool :=
  (af == e.address.family || af == .unspecified) && compareTwoDomains e.hostname host

def toEndpoint (e : CacheIpEntry) (port : Nat) : Endpoint := ⟨e.address, port⟩

end CacheIpEntry

/-- `cache_storage::cache_store`. -/
structure CacheStore where
  addresses : List CacheIpEntry := []
  cnames : List CacheCanonicalNameEntry := []
  deriving DecidableEq

/-- The first entry that meets `p` is replaced; without one, the entry is appended. -/
def replaceOrAppend {ε : Type} (p : ε → Bool) (entry : ε) : List ε → List ε
  | [] => [entry]
  | e :: es => if p e then entry :: es else e :: replaceOrAppend p entry es

namespace CacheStore

/-- `cache_storage::add` of an address. -/
def addAddress (s : CacheStore) (now : Int) (hostname : Bytes) (address : Option Endpoint) (time : Int) : CacheStore :=
  match address with
  | none => s
  | some endpoint =>
    if hostname.isEmpty || hostname.length > 255 || time ≤ 0 then s
    else
      { s with
        addresses := replaceOrAppend (·.isMatch hostname endpoint.address.family)
          ⟨now + time, hostname, endpoint.address⟩ s.addresses }

/-- `cache_storage::add` of a canonical name. -/
def addCname (s : CacheStore) (now : Int) (aliasName cname : Bytes) (time : Int) : CacheStore :=
  if aliasName.isEmpty || aliasName.length > 255 || cname.isEmpty || cname.length > 255 || time ≤ 0 then s
  else { s with cnames := replaceOrAppend (·.isMatch aliasName) ⟨now + time, aliasName, cname⟩ s.cnames }

/-- `cache_storage::clear_expired`. -/
def clearExpired (s : CacheStore) (now : Int) : CacheStore :=
  ⟨s.addresses.filter fun e => !e.expired now, s.cnames.filter fun e => !e.expired now⟩

end CacheStore

/-- The scan of the addresses in `cache_storage::find`: the addresses that are left, and the one that is found. -/
def scanAddresses (now : Int) (hostname : Bytes) (af : AddressFamily) :
    List CacheIpEntry → List CacheIpEntry × Option CacheIpEntry
  | [] => ([], none)
  | e :: es =>
    if e.expired now then scanAddresses now hostname af es
    else if e.isMatch hostname af then (e :: es, some e)
    else
      let (es, found) := scanAddresses now hostname af es
      (e :: es, found)

/-- The loop of `cache_storage::find_cname`, with the last entry that matches so far. -/
def findCname (now : Int) (host : Bytes) (result : Option CacheCanonicalNameEntry) :
    List CacheCanonicalNameEntry → List CacheCanonicalNameEntry × Option CacheCanonicalNameEntry
  | [] => ([], result)
  | e :: es =>
    if e.expired now then findCname now host result es
    else
      let (es, result) := findCname now host (if e.isMatch host then some e else result) es
      (e :: es, result)

structure FindState where
  hostname : Bytes
  store : CacheStore
  results : List Endpoint
  deriving DecidableEq

structure FindResult where
  found : Bool
  store : CacheStore
  results : List Endpoint
  deriving DecidableEq

/-- One pass of the loop of `cache_storage::find`. -/
def findPass (now : Int) (af : AddressFamily) (port : Nat) (s : FindState) : Lib.Pass FindState FindResult :=
  if s.hostname.isEmpty then .done ⟨false, s.store, s.results⟩
  else
    let (addresses, found) := scanAddresses now s.hostname af s.store.addresses
    match found with
    | some e => .done ⟨true, { s.store with addresses := addresses }, s.results ++ [e.toEndpoint port]⟩
    | none =>
      let (cnames, cnameResult) := findCname now s.hostname none s.store.cnames
      match cnameResult with
      | some e => .next ⟨e.cname, ⟨addresses, cnames⟩, s.results⟩
      | none => .done ⟨false, ⟨addresses, cnames⟩, s.results⟩

/-- The calls that change a cache. -/
inductive CacheCall where
  | addAddress (now : Int) (hostname : Bytes) (address : Option Endpoint) (time : Int)
  | addCname (now : Int) (aliasName cname : Bytes) (time : Int)
  | clear
  | clearExpired (now : Int)
  deriving DecidableEq

def CacheCall.apply (s : CacheStore) : CacheCall → CacheStore
  | .addAddress now hostname address time => s.addAddress now hostname address time
  | .addCname now aliasName cname time => s.addCname now aliasName cname time
  | .clear => {}
  | .clearExpired now => s.clearExpired now

/-- A cache after a sequence of calls. -/
def cacheAfter (calls : List CacheCall) : CacheStore := calls.foldl CacheCall.apply {}

end Rad.Dns
