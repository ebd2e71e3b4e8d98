import Rad.Dns.Name
import Rad.Lib.Blocks

/-!
# Messages (include/rad/net/dns/dns_parser.h, src/net/dns/dns_parser.cpp)

A handler answers a call by what it has been called with before. The parsers return the count of consumed bytes, the
error and the calls that have been made; there is no result where a name is not parsed within the depth.
-/

namespace Rad.Dns

open Lib

/-! ## Wire format -/

/-- `query_type`: every number of 16 bits is a value. -/
abbrev QueryType := Nat

namespace QueryType

def ipv4 : QueryType := 1
def nameServer : QueryType := 2
def mailDestination : QueryType := 3
def mailForwarder : QueryType := 4
def canonicalName : QueryType := 5
def startOfAuthority : QueryType := 6
def mailbox : QueryType := 7
def mailGroup : QueryType := 8
def mailRename : QueryType := 9
def domainPointer : QueryType := 12
def hostInfo : QueryType := 13
def mailInfo : QueryType := 14
def mailExchange : QueryType := 15
def textStrings : QueryType := 16
def ipv6 : QueryType := 28

end QueryType

inductive RdataType where
  | domainName
  | charsStrings
  | twoCharsStrings
  | twoDomainNames
  | i16DomainName
  | opaqueData
  | ipv4
  | ipv6
  deriving DecidableEq

def getRdataType (q : QueryType) : RdataType :=
  if q = QueryType.ipv4 then .ipv4
  else if q = QueryType.ipv6 then .ipv6
  else if q = QueryType.nameServer ∨ q = QueryType.mailDestination ∨ q = QueryType.mailForwarder ∨
    q = QueryType.canonicalName ∨ q = QueryType.mailbox ∨ q = QueryType.mailGroup ∨ q = QueryType.mailRename ∨
    q = QueryType.domainPointer then .domainName
  else if q = QueryType.hostInfo then .twoCharsStrings
  else if q = QueryType.mailInfo then .twoDomainNames
  else if q = QueryType.mailExchange then .i16DomainName
  else if q = QueryType.textStrings then .charsStrings
  else .opaqueData

structure DnsHeader where
  id : Nat
  questions : Nat
  answers : Nat
  nameServers : Nat
  additionalRecords : Nat
  responseCode : Nat
  opcode : Nat
  isResponse : Bool
  authoritativeAnswer : Bool
  truncated : Bool
  recursionDesired : Bool
  recursionAvailable : Bool
  deriving DecidableEq

/-- The number in `n` bytes from the offset on. -/
def field (raw : Bytes) (offset n : Nat) : Nat := ofBigEndian ((raw.drop offset).take n)

/-- `bits::check` and `bits::extract` of a byte. -/
def checkBit (n : Nat) (b : UInt8) : Bool := b.toNat.testBit n

def extractBits (first last : Nat) (b : UInt8) : Nat := b.toNat / 2 ^ first % 2 ^ (last - first + 1)

/-- `dns_header_raw::decode`. -/
def decodeHeader (raw : Bytes) : DnsHeader where
  id := field raw 0 2
  isResponse := checkBit 7 (raw.getD 2 0)
  opcode := extractBits 3 6 (raw.getD 2 0)
  authoritativeAnswer := checkBit 2 (raw.getD 2 0)
  truncated := checkBit 1 (raw.getD 2 0)
  recursionDesired := checkBit 0 (raw.getD 2 0)
  recursionAvailable := checkBit 7 (raw.getD 3 0)
  responseCode := (raw.getD 3 0 &&& 0x0f).toNat
  questions := field raw 4 2
  answers := field raw 6 2
  nameServers := field raw 8 2
  additionalRecords := field raw 10 2

structure QuestionSection where
  type : QueryType
  qclass : Nat
  deriving DecidableEq

/-- `question_section_raw::decode`. -/
def decodeQuestion (raw : Bytes) : QuestionSection := ⟨field raw 0 2, field raw 2 2⟩

structure ResourceRecord where
  type : QueryType
  recordClass : Nat
  cacheTimeInterval : Nat
  dataLength : Nat
  deriving DecidableEq

/-- `resource_record_raw::decode`. -/
def decodeRecord (raw : Bytes) : ResourceRecord := ⟨field raw 0 2, field raw 2 2, field raw 4 4, field raw 8 2⟩

structure StartOfAuthority where
  primaryName : Bytes
  responsibleName : Bytes
  serial : Nat
  refresh : Nat
  retry : Nat
  expire : Nat
  minimum : Nat
  deriving DecidableEq

/-- `start_of_authority_raw::decoded`, with the names that are put into it. -/
def decodeStartOfAuthority (mname rname raw : Bytes) : StartOfAuthority :=
  ⟨mname, rname, field raw 0 4, field raw 4 4, field raw 8 4, field raw 12 4, field raw 16 4⟩

/-! ## Handlers -/

inductive ResourceRecordType where
  | answer
  | authority
  | additional
  deriving DecidableEq

/-- What the callback for a record is given next to the name and the fixed part of the record: a constructor for each of
the callbacks. -/
inductive RecordData where
  | ipv4 (ip : Nat)
  | ipv6 (ip : Bytes)
  | canonicalName (cname : Bytes)
  | startOfAuthority (soa : StartOfAuthority)
  | hostInfo (cpu os : Bytes)
  | texts (texts : List Bytes)
  | mailInfo (responsibleMail errorMail : Bytes)
  | mailExchange (preference : Nat) (exchangeHost : Bytes)
  | otherDomainName (name : Bytes)
  | opaqueData (data : Bytes)
  deriving DecidableEq

inductive Call where
  | header (header : DnsHeader)
  | question (name : Bytes) (question : QuestionSection)
  | record (rtype : ResourceRecordType) (name : Bytes) (record : ResourceRecord) (data : RecordData)
  deriving DecidableEq

/-- The answer to a call, after the calls that have been made before. -/
abbrev Handler := List Call → Call → Bool

structure Result where
  count : Nat
  ec : Option Error
  calls : List Call
  deriving DecidableEq

/-- A parser that has failed. -/
def fail (calls : List Call) : Result := ⟨0, some .formatError, calls⟩

/-- The handler is called; `stopped` and `n` are what the parser returns when it is stopped and when it goes on. -/
def emit (handler : Handler) (calls : List Call) (call : Call) (stopped n : Nat) : Result :=
  if handler calls call then ⟨n, none, calls ++ [call]⟩ else ⟨stopped, some .interrupted, calls ++ [call]⟩

/-! ## Record data -/

/-- `dns::parse_characters_string`. -/
def parseCharactersString (input : Bytes) : Option (Nat × Bytes) :=
  match input with
  | [] => none
  | len :: view => if len.toNat > view.length then none else some (len.toNat + 1, view.take len.toNat)

theorem parseCharactersString_count {input text : Bytes} {n : Nat} (h : parseCharactersString input = some (n, text)) :
    0 < n ∧ n ≤ input.length := by
  cases input with
  | nil => cases h
  | cons len view =>
      rw [parseCharactersString] at h
      split at h
      · cases h
      · cases h
        rw [List.length_cons]
        omega

/-- The loop of `dns::parse_texts_rdata`: the count of parsed bytes, and the texts unless there is an error. -/
def readTexts (parsedN : Nat) (texts : List Bytes) (rdata : Bytes) : Nat × Option (List Bytes) :=
  match rdata with
  | [] => (parsedN, some texts)
  | b :: t =>
    match _h : parseCharactersString (b :: t) with
    | none => (parsedN, none)
    | some (n, text) => readTexts (parsedN + n) (texts ++ [text]) ((b :: t).drop n)
  termination_by rdata.length
  decreasing_by
    have := parseCharactersString_count _h
    rw [List.length_drop]
    omega

section

variable (handler : Handler) (whole : Bytes) (depth : Nat) (rtype : ResourceRecordType) (name : Bytes)
  (rr : ResourceRecord) (calls : List Call)

/-- `dns::parse_ipv4_rdata`. -/
def parseIpv4Rdata (rdata : Buffer) : Result :=
  if rr.dataLength ≠ 4 then fail calls
  else emit handler calls (.record rtype name rr (.ipv4 (field rdata.data 0 4))) 0 4

/-- `dns::parse_ipv6_rdata`. -/
def parseIpv6Rdata (rdata : Buffer) : Result :=
  if rr.dataLength ≠ 16 then fail calls
  else emit handler calls (.record rtype name rr (.ipv6 (rdata.data.take 16))) 0 16

/-- `dns::parse_texts_rdata`. -/
def parseTextsRdata (rdata : Buffer) : Result :=
  if rdata.data.isEmpty then fail calls
  else
    match readTexts 0 [] rdata.data with
    | (parsedN, none) => ⟨parsedN, some .formatError, calls⟩
    | (parsedN, some texts) => emit handler calls (.record rtype name rr (.texts texts)) parsedN parsedN

/-- `dns::parse_host_info_rdata`. -/
def parseHostInfoRdata (rdata : Buffer) : Result :=
  if rdata.data.length < 2 then fail calls
  else
    match parseCharactersString rdata.data with
    | none => fail calls
    | some (n, cpu) =>
      match parseCharactersString (rdata.data.drop n) with
      | none => fail calls
      | some (n', os) =>
        if !((rdata.data.drop n).drop n').isEmpty then ⟨n', some .formatError, calls⟩
        else
          let parsedN := rdata.data.length - ((rdata.data.drop n).drop n').length
          emit handler calls (.record rtype name rr (.hostInfo cpu os)) parsedN parsedN

/-- `dns::parse_mail_exchange_rdata`. -/
def parseMailExchangeRdata (rdata : Buffer) : Option Result :=
  if rdata.data.length < 3 then some (fail calls)
  else
    (parseDomainName whole depth (rdata.advance 2) []).map fun r =>
      let rest := (rdata.advance 2).advance r.count
      if r.ec.isSome then ⟨0, r.ec, calls⟩
      else if !rest.data.isEmpty then fail calls
      else
        emit handler calls (.record rtype name rr (.mailExchange (field rdata.data 0 2) r.out)) r.count
          (rdata.data.length - rest.data.length)

/-- `dns::parse_mail_info_rdata`. -/
def parseMailInfoRdata (rdata : Buffer) : Option Result :=
  if rdata.data.length < 2 then some (fail calls)
  else
    (parseDomainName whole depth rdata []).bind fun r =>
      if r.ec.isSome then some ⟨0, r.ec, calls⟩
      else
        (parseDomainName whole depth (rdata.advance r.count) []).map fun r' =>
          let rest := (rdata.advance r.count).advance r'.count
          if r'.ec.isSome then ⟨0, r'.ec, calls⟩
          else if !rest.data.isEmpty then fail calls
          else
            emit handler calls (.record rtype name rr (.mailInfo r.out r'.out)) r'.count
              (rdata.data.length - rest.data.length)

/-- `dns::parse_start_of_authority_rdata`. -/
def parseStartOfAuthorityRdata (rdata : Buffer) : Option Result :=
  if rdata.data.length < 22 then some (fail calls)
  else
    (parseDomainName whole depth rdata []).bind fun r =>
      if r.ec.isSome then some ⟨0, r.ec, calls⟩
      else
        (parseDomainName whole depth (rdata.advance r.count) []).map fun r' =>
          let soaRaw := (rdata.advance r.count).advance r'.count
          if r'.ec.isSome then ⟨0, r'.ec, calls⟩
          else if soaRaw.data.length ≠ 20 then fail calls
          else
            emit handler calls
              (.record rtype name rr (.startOfAuthority (decodeStartOfAuthority r.out r'.out soaRaw.data))) r'.count
              (rdata.data.length - (soaRaw.advance 20).data.length)

/-- `dns::parse_domain_name_rdata`. -/
def parseDomainNameRdata (rdata : Buffer) : Option Result :=
  (parseDomainName whole depth rdata []).map fun r =>
    if r.ec.isSome then ⟨0, r.ec, calls⟩
    else if !(rdata.advance r.count).data.isEmpty then fail calls
    else
      emit handler calls
        (.record rtype name rr
          (if rr.type = QueryType.canonicalName then .canonicalName r.out else .otherDomainName r.out)) 0 r.count

/-- The branches of `dns::parse_resource_record` over the type of the record. -/
def parseRdata (rdata : Buffer) : Option Result :=
  if rr.type = QueryType.ipv4 then some (parseIpv4Rdata handler rtype name rr calls rdata)
  else if rr.type = QueryType.ipv6 then some (parseIpv6Rdata handler rtype name rr calls rdata)
  else if rr.type = QueryType.startOfAuthority then
    parseStartOfAuthorityRdata handler whole depth rtype name rr calls rdata
  else if rr.type = QueryType.hostInfo then some (parseHostInfoRdata handler rtype name rr calls rdata)
  else if rr.type = QueryType.textStrings then some (parseTextsRdata handler rtype name rr calls rdata)
  else if rr.type = QueryType.mailInfo then parseMailInfoRdata handler whole depth rtype name rr calls rdata
  else if rr.type = QueryType.mailExchange then parseMailExchangeRdata handler whole depth rtype name rr calls rdata
  else if getRdataType rr.type = .domainName then parseDomainNameRdata handler whole depth rtype name rr calls rdata
  else some (emit handler calls (.record rtype name rr (.opaqueData rdata.data)) rr.dataLength rr.dataLength)

end

/-! ## Questions, records and messages -/

section

variable (handler : Handler) (whole : Bytes) (depth : Nat)

/-- `dns::parse_question`. -/
def parseQuestion (input : Buffer) (calls : List Call) : Option Result :=
  if input.data.length < 5 then some (fail calls)
  else
    (parseDomainName whole depth input []).map fun r =>
      if r.ec.isSome ∨ r.count = 0 then ⟨0, r.ec, calls⟩
      else if (input.advance r.count).data.length < 4 then fail calls
      else
        emit handler calls (.question r.out (decodeQuestion ((input.advance r.count).data.take 4))) 0 (r.count + 4)

/-- `dns::parse_resource_record`. -/
def parseResourceRecord (rtype : ResourceRecordType) (input : Buffer) (calls : List Call) : Option Result :=
  if input.data.length < 11 then some (fail calls)
  else
    (parseDomainName whole depth input []).bind fun r =>
      let fixed := input.advance r.count
      if r.ec.isSome then some ⟨0, r.ec, calls⟩
      else if fixed.data.length < 10 then some (fail calls)
      else
        let rr := decodeRecord (fixed.data.take 10)
        let rest := fixed.advance 10
        if rr.dataLength > 0 ∧ rest.data.length < rr.dataLength then some (fail calls)
        else
          (parseRdata handler whole depth rtype r.out rr calls (rest.subBuffer rr.dataLength)).map fun r' =>
            if r'.ec.isSome then ⟨0, r'.ec, r'.calls⟩ else ⟨r.count + 10 + r'.count, none, r'.calls⟩

/-- The loop of `dns::parse_resource_records`, with the count of bytes parsed so far. -/
def parseResourceRecords (rtype : ResourceRecordType) (recordsCount : Nat) (input : Buffer) (parsedN : Nat)
    (calls : List Call) : Option Result :=
  match recordsCount with
  | 0 => some ⟨parsedN, none, calls⟩
  | recordsCount + 1 =>
    (parseResourceRecord handler whole depth rtype input calls).bind fun r =>
      if r.ec.isSome then some ⟨parsedN, r.ec, r.calls⟩
      else parseResourceRecords rtype recordsCount (input.advance r.count) (parsedN + r.count) r.calls

/-- The loop of `dns::parse_dns_message` over the questions: the rest of the message. -/
def parseQuestions (questions : Nat) (input : Buffer) (calls : List Call) :
    Option (Buffer × Option Error × List Call) :=
  match questions with
  | 0 => some (input, none, calls)
  | questions + 1 =>
    (parseQuestion handler whole depth input calls).bind fun r =>
      let input := input.advance r.count
      if r.ec.isSome then some (input, r.ec, r.calls) else parseQuestions questions input r.calls

end

/-- `dns::parse_dns_message`. -/
def parseDnsMessage (handler : Handler) (depth : Nat) (input : Bytes) : Option Result :=
  let stop (rest : Buffer) (ec : Option Error) (calls : List Call) : Result :=
    ⟨input.length - rest.data.length, ec, calls⟩
  if input.length < 12 ∨ input.length > 65535 then some (fail [])
  else
    let header := decodeHeader (input.take 12)
    if !handler [] (.header header) then some ⟨0, some .interrupted, [.header header]⟩
    else
      (parseQuestions handler input depth header.questions ⟨12, input.drop 12⟩ [.header header]).bind
        fun (rest, ec, calls) =>
      if ec.isSome then some (stop rest ec calls)
      else
        (parseResourceRecords handler input depth .answer header.answers rest 0 calls).bind fun r =>
        let rest := rest.advance r.count
        if r.ec.isSome then some (stop rest r.ec r.calls)
        else
          (parseResourceRecords handler input depth .authority header.nameServers rest 0 r.calls).bind fun r =>
          let rest := rest.advance r.count
          if r.ec.isSome then some (stop rest r.ec r.calls)
          else
            (parseResourceRecords handler input depth .additional header.additionalRecords rest 0 r.calls).map fun r =>
            let rest := rest.advance r.count
            -- the message must be fully consumed
            stop rest (if !rest.data.isEmpty then some .formatError else r.ec) r.calls

end Rad.Dns
