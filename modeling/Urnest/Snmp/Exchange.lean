import Urnest.Snmp.EncodeResponse
import Urnest.Snmp.RoundTrip
import Urnest.Snmp.ValidateResponse

/-!
# Exchanges

A client sends a request, the server decodes it and answers with some outcome, and
the client decodes and validates the response. What comes out is what the server had
in mind (`Exchange.run_eq`): its values under their identifiers, or the exception of
the error it reported, with the identifier it reported.

The error index is where the two sides could part: the server counts the parameters
in the order they were decoded in, and the client counts those of the response
(`getErrorOid_errorIndexOf`).
-/

namespace Urnest.Snmp

open Lib

/-! ## What the server may answer -/

/-- One value for each identifier, or an error about one of them. -/
def SnmpV1GetRequest.Outcome.For (request : SnmpV1GetRequest) : Outcome → Prop
  | .results values =>
    values.keys = request.oids.toList ∧ ∀ x ∈ values.toList, x.2.encodable
  | .noSuchName param | .genErr param => param ∈ request.oids.toList
  | .tooBig => True

def SnmpV1SetRequest.Outcome.For (request : SnmpV1SetRequest) : Outcome → Prop
  | .noSuchName param | .badValue param | .readOnly param | .genErr param =>
    param ∈ request.values.keys
  | .done | .tooBig => True

/-- One variable for each identifier, in order. -/
def SnmpV1GetNextRequest.Outcome.For (request : SnmpV1GetNextRequest) : Outcome → Prop
  | .results values =>
    values.length = request.oids.length ∧ ∀ x ∈ values, encodableVar x
  | .genErr param => param ∈ request.oids
  | .tooBig => True

/-- The end of the MIB view is no value. -/
def SnmpV2cGetRequest.Outcome.For (request : SnmpV2cGetRequest) : Outcome → Prop
  | .results vars =>
    vars.keys = request.oids.toList ∧
      ∀ x ∈ vars.toList, x.2.oid = x.1 ∧ x.2.encodable ∧ x.2.value ≠ .inl .endOfMibView
  | .noSuchName param | .genErr param => param ∈ request.oids.toList
  | .tooBig => True

def SnmpV2cSetRequest.Outcome.For (request : SnmpV2cSetRequest) : Outcome → Prop
  | .error _ param => param ∈ request.values.keys
  | .done | .tooBig => True

def SnmpV2cGetNextRequest.Outcome.For (request : SnmpV2cGetNextRequest) : Outcome → Prop
  | .results vars => vars.length = request.oids.length ∧ ∀ x ∈ vars, x.encodable
  | .genErr param => param ∈ request.oids
  | .tooBig => True

/-! ## Exchanges -/

/-- A request and what the server makes of it. -/
inductive Exchange where
  | v1Get (request : SnmpV1GetRequest) (outcome : SnmpV1GetRequest.Outcome)
  | v1Set (request : SnmpV1SetRequest) (outcome : SnmpV1SetRequest.Outcome)
  | v1GetNext (request : SnmpV1GetNextRequest) (outcome : SnmpV1GetNextRequest.Outcome)
  | v2cGet (request : SnmpV2cGetRequest) (outcome : SnmpV2cGetRequest.Outcome)
  | v2cSet (request : SnmpV2cSetRequest) (outcome : SnmpV2cSetRequest.Outcome)
  | v2cGetNext (request : SnmpV2cGetNextRequest) (outcome : SnmpV2cGetNextRequest.Outcome)

/-- What `validateResponse` returns, for any kind of request. -/
inductive Answer where
  | done
  | values (values : SortedMap Oid Value)
  | valueList (values : List (Oid × Value))
  | vars (vars : SortedMap Oid SnmpVar)
  | varList (vars : List SnmpVar)
  deriving DecidableEq

/-- The exception of a class of errors. -/
def SetError.exception : SetError → InvalidParam
  | genErr => .genErr
  | noAccess => .noAccess
  | notWritable => .notWritable
  | wrongType => .wrongType
  | wrongLength => .wrongLength
  | wrongEncoding => .wrongEncoding
  | wrongValue => .wrongValue
  | noCreation => .noCreation
  | inconsistentName => .inconsistentName
  | inconsistentValue => .inconsistentValue
  | resourceUnavailable => .resourceUnavailable
  | commitFailed => .commitFailed

namespace Exchange

/-- The client's request. -/
def requestData : Exchange → Result (List UInt8)
  | v1Get request _ => request.encode
  | v1Set request _ => request.encode
  | v1GetNext request _ => request.encode
  | v2cGet request _ => request.encode
  | v2cSet request _ => request.encode
  | v2cGetNext request _ => request.encode

/-- The server's response to the data it received. -/
def responseData (data : List UInt8) : Exchange → Result (List UInt8)
  | v1Get _ outcome => do
    let r ← decodeSnmpV1GetRequest data
    r.1.encodeResponse r.2 outcome
  | v1Set _ outcome => do
    let r ← decodeSnmpV1SetRequest data
    r.1.encodeResponse r.2 outcome
  | v1GetNext _ outcome => do
    let r ← decodeSnmpV1GetNextRequest data
    r.encodeResponse outcome
  | v2cGet _ outcome => do
    let r ← decodeSnmpV2cGetRequest data
    r.1.encodeResponse r.2 outcome
  | v2cSet _ outcome => do
    let r ← decodeSnmpV2cSetRequest data
    r.1.encodeResponse r.2 outcome
  | v2cGetNext _ outcome => do
    let r ← decodeSnmpV2cGetNextRequest data
    r.encodeResponse outcome

/-- What the client makes of the response. -/
def answer (reply : List UInt8) : Exchange → Result Answer
  | v1Get request _ => do
    let response ← decodeSnmpV1Response reply
    let values ← request.validateResponse response
    pure (.values values)
  | v1Set request _ => do
    let response ← decodeSnmpV1Response reply
    request.validateResponse response
    pure .done
  | v1GetNext request _ => do
    let response ← decodeSnmpV1Response reply
    let values ← request.validateResponse response
    pure (.valueList values)
  | v2cGet request _ => do
    let response ← decodeSnmpV2cResponse reply
    let vars ← request.validateResponse response
    pure (.vars vars)
  | v2cSet request _ => do
    let response ← decodeSnmpV2cResponse reply
    request.validateResponse response
    pure .done
  | v2cGetNext request _ => do
    let response ← decodeSnmpV2cResponse reply
    let vars ← request.validateResponse response
    pure (.varList vars)

/-- The whole exchange. -/
def run (x : Exchange) : Result Answer := do
  let data ← x.requestData
  let reply ← x.responseData data
  x.answer reply

/-- An error about one of the parameters. -/
abbrev fails (error : InvalidParam) (param : Oid) : Result Answer :=
  Run.throws (.invalidParam error param)

/-- What the server had in mind. -/
def expected : Exchange → Result Answer
  | v1Get _ (.results results) => .ok (.values results)
  | v1Get _ (.noSuchName param) => fails .noSuchName param
  | v1Get _ .tooBig => Run.throws .tooBig
  | v1Get _ (.genErr param) => fails .genErr param
  | v1Set _ .done => .ok .done
  | v1Set _ (.noSuchName param) => fails .noSuchName param
  | v1Set _ (.badValue param) => fails .badValue param
  | v1Set _ (.readOnly param) => fails .readOnly param
  | v1Set _ .tooBig => Run.throws .tooBig
  | v1Set _ (.genErr param) => fails .genErr param
  | v1GetNext _ (.results results) => .ok (.valueList results)
  | v1GetNext _ .tooBig => Run.throws .tooBig
  | v1GetNext _ (.genErr param) => fails .genErr param
  | v2cGet _ (.results results) => .ok (.vars results)
  | v2cGet _ (.noSuchName param) => fails .noSuchName param
  | v2cGet _ .tooBig => Run.throws .tooBig
  | v2cGet _ (.genErr param) => fails .genErr param
  | v2cSet _ .done => .ok .done
  | v2cSet _ .tooBig => Run.throws .tooBig
  | v2cSet _ (.error error param) => fails error.exception param
  | v2cGetNext _ (.results results) => .ok (.varList results)
  | v2cGetNext _ .tooBig => Run.throws .tooBig
  | v2cGetNext _ (.genErr param) => fails .genErr param

/-- The request can be encoded and come back, and so can the outcome, which is one for
the request. -/
def Proper : Exchange → Prop
  | v1Get request outcome =>
    (∀ oid ∈ request.oids.toList, oid.encodable = true) ∧ outcome.For request
  | v1Set request outcome =>
    (∀ x ∈ request.values.toList, encodableVar x) ∧ outcome.For request
  | v1GetNext request outcome =>
    (∀ oid ∈ request.oids, oid.encodable = true) ∧ outcome.For request
  | v2cGet request outcome =>
    (∀ oid ∈ request.oids.toList, oid.encodable = true) ∧ outcome.For request
  | v2cSet request outcome =>
    (∀ x ∈ request.values.toList, encodableVar x) ∧ outcome.For request
  | v2cGetNext request outcome =>
    (∀ oid ∈ request.oids, oid.encodable = true) ∧ outcome.For request

/-- Neither message is longer than an `int` can say. -/
def Fits (x : Exchange) : Prop :=
  ∀ data, x.requestData = .ok data → data.length ≤ 0x7fffffff ∧
    ∀ reply, x.responseData data = .ok reply → reply.length ≤ 0x7fffffff

end Exchange

/-! ## Errors -/

theorem errorIndexOf_of_mem {oids : List Oid} {param : Oid} (h : param ∈ oids) :
    errorIndexOf oids param = .ok (UInt64.ofNat (oids.idxOf param + 1)) := by
  simp [errorIndexOf, assert, h]

/-- The index points at the first place of the parameter. -/
theorem getElem_idxOf {oids : List Oid} {param : Oid} (h : param ∈ oids)
    (hlen : oids.length < 2 ^ 64) :
    UInt64.ofNat (oids.idxOf param + 1) ≠ 0 ∧
      (UInt64.ofNat (oids.idxOf param + 1)).toNat - 1 = oids.idxOf param ∧
      oids[oids.idxOf param]? = some param := by
  have hlt := List.idxOf_lt_length_of_mem h
  have hnat : (UInt64.ofNat (oids.idxOf param + 1)).toNat = oids.idxOf param + 1 :=
    UInt64.toNat_ofNat_of_lt' (by change _ < 2 ^ 64; omega)
  refine ⟨fun h0 => ?_, by omega, ?_⟩
  · rw [h0] at hnat
    simp at hnat
  · rw [List.getElem?_eq_getElem hlt, List.getElem_idxOf]

/-- The identifier that the client finds is the one that the server counted. -/
theorem getErrorOid_errorIndexOf {oids requestOids : List Oid} {param : Oid} (h : param ∈ oids)
    (hreq : param ∈ requestOids) (hlen : oids.length < 2 ^ 64) (error : String) :
    getErrorOid (UInt64.ofNat (oids.idxOf param + 1)) oids requestOids error = .ok param := by
  obtain ⟨h0, hnat, hget⟩ := getElem_idxOf h hlen
  rw [getErrorOid, if_neg h0, hnat, hget]
  simp [check, hreq]

theorem throwErrorStatus_of_find {cases : List (ErrorStatus × InvalidParam × String)}
    {status : ErrorStatus} {error : InvalidParam} {name : String} {oids requestOids : List Oid}
    {param : Oid} (h0 : status ≠ .noError) (h1 : status ≠ .tooBig)
    (hfind : cases.find? (fun c => c.1 = status) = some (status, error, name))
    (h : param ∈ oids) (hreq : param ∈ requestOids) (hlen : oids.length < 2 ^ 64) :
    throwErrorStatus cases status (UInt64.ofNat (oids.idxOf param + 1)) oids requestOids
      = .error (.threw (.invalidParam error param)) := by
  rw [throwErrorStatus, if_neg h0, if_neg h1, hfind]
  dsimp only
  rw [getErrorOid_errorIndexOf h hreq hlen]
  rfl

theorem checkIsResponse_self (id : RequestId) : checkIsResponse id id 0xA2 = .ok () := by
  simp [checkIsResponse, check]

/-! ## The parameters of a response -/

theorem paramValues_of_subset {values : SortedMap Oid Value} {xs : List (Oid × Value)}
    (h : ∀ x ∈ xs, x ∈ values.toList) : paramValues values (xs.map Prod.fst) = .ok xs := by
  induction xs with
  | nil => rfl
  | cons x xs ih =>
    rw [List.map_cons, paramValues, valueOf,
      OrderedBy.find?_of_mem (h x (List.mem_cons_self ..)), Run.ok_bind,
      ih fun y hy => h y (List.mem_cons_of_mem _ hy)]
    rfl

/-- The parameters of a map, in its own order, are the map. -/
theorem paramValues_keys (values : SortedMap Oid Value) :
    paramValues values values.keys = .ok values.toList :=
  paramValues_of_subset fun _ hx => hx

theorem paramVars_of_subset {vars : SortedMap Oid SnmpVar} {xs : List (Oid × SnmpVar)}
    (h : ∀ x ∈ xs, x ∈ vars.toList) : paramVars vars (xs.map Prod.fst) = .ok (xs.map Prod.snd) := by
  induction xs with
  | nil => rfl
  | cons x xs ih =>
    rw [List.map_cons, paramVars, valueOf,
      OrderedBy.find?_of_mem (h x (List.mem_cons_self ..)), Run.ok_bind,
      ih fun y hy => h y (List.mem_cons_of_mem _ hy)]
    rfl

theorem paramNulls_fst (oids : List Oid) : (paramNulls oids).map Prod.fst = oids := by
  rw [paramNulls, List.map_map]
  exact List.map_id oids

theorem paramNulls_encodable {oids : List Oid} (h : ∀ oid ∈ oids, oid.encodable = true) :
    ∀ x ∈ paramNulls oids, encodableVar x :=
  nullVars_encodable h

theorem ofPair_encodable {xs : List (Oid × Value)} (h : ∀ x ∈ xs, encodableVar x) :
    ∀ x ∈ xs.map SnmpVar.ofPair, x.encodable := by
  intro x hx
  obtain ⟨y, hy, rfl⟩ := List.mem_map.mp hx
  exact ⟨(h y hy).1, fun v hv => by cases hv; exact (h y hy).2⟩

theorem ofPair_oid (xs : List (Oid × Value)) :
    (xs.map SnmpVar.ofPair).map SnmpVar.oid = xs.map Prod.fst := by
  rw [List.map_map]
  rfl

/-! ## What the client compares -/

theorem compareOids_self (oids : SortedSet Oid) : compareOids oids oids = .ok () := by
  simp [compareOids, check]

/-- Answers to all identifiers, one each, leave nothing to complain about. -/
theorem foldl_count (requested : SortedSet Oid) (vars : List SnmpVar) (extra duplicate) :
    vars.foldl (GetTally.count requested) ⟨vars.map SnmpVar.oid, extra, duplicate⟩
      = ⟨[], extra, duplicate⟩ := by
  induction vars with
  | nil => rfl
  | cons x xs ih => simpa [GetTally.count] using ih

theorem checkNotEndOfMibView_of {vars : List SnmpVar}
    (h : ∀ x ∈ vars, x.value ≠ .inl .endOfMibView) : checkNotEndOfMibView vars = .ok () := by
  induction vars with
  | nil => rfl
  | cons x xs ih =>
    rw [checkNotEndOfMibView, ih fun y hy => h y (List.mem_cons_of_mem _ hy)]
    simp [check, h x (List.mem_cons_self ..)]

namespace Exchange

/-! ## From the outcome to the answer -/

/-- A V1 exchange comes to what the client makes of the response that was encoded. -/
theorem run_v1 {x : Exchange} {data : List UInt8} {community : Community} {id : RequestId}
    (status : ErrorStatus) {errorIndex : ErrorIndex} {vars : List (Oid × Value)}
    {r : Result Answer} (hfits : x.Fits) (hdata : x.requestData = .ok data)
    (hresponse : x.responseData data
      = encodeSnmpV1Message community id status.toUInt64 errorIndex vars 0xA2)
    (hstatus : 0 ≤ status.code) (hvars : ∀ v ∈ vars, encodableVar v)
    (hanswer : ∀ reply, decodeSnmpV1Response reply
      = .ok ⟨0xA2, community, id, status, errorIndex, vars⟩ → x.answer reply = r) :
    x.run = r := by
  obtain ⟨reply, henc, hback⟩ := SnmpV1Response.decode_encode
    (m := ⟨0xA2, community, id, status, errorIndex, vars⟩) hstatus hvars
  have hreply : x.responseData data = .ok reply := hresponse.trans henc
  rw [run, hdata, Run.ok_bind, hreply, Run.ok_bind]
  exact hanswer reply (hback ((hfits data hdata).2 reply hreply))

/-- So does a V2c exchange. -/
theorem run_v2c {x : Exchange} {data : List UInt8} {community : Community} {id : RequestId}
    (status : ErrorStatus) {errorIndex : ErrorIndex} (vars : List SnmpVar)
    {r : Result Answer} (hfits : x.Fits) (hdata : x.requestData = .ok data)
    (hresponse : x.responseData data
      = encodePDU community id status.toUInt64 errorIndex vars 0xA2)
    (hstatus : 0 ≤ status.code) (hvars : ∀ v ∈ vars, v.encodable)
    (hanswer : ∀ reply, decodeSnmpV2cResponse reply
      = .ok ⟨0xA2, community, id, status, errorIndex, vars⟩ → x.answer reply = r) :
    x.run = r := by
  obtain ⟨reply, henc, hback⟩ := SnmpV2cResponse.decode_encode
    (m := ⟨0xA2, community, id, status, errorIndex, vars⟩) hstatus hvars
  have hreply : x.responseData data = .ok reply := hresponse.trans henc
  rw [run, hdata, Run.ok_bind, hreply, Run.ok_bind]
  exact hanswer reply (hback ((hfits data hdata).2 reply hreply))

/-- An error that a V1 response reports is the one the client throws. -/
theorem run_v1_error {x : Exchange} {data : List UInt8} {community : Community}
    {id : RequestId} {vars : List (Oid × Value)} {oids : List Oid} {param : Oid}
    (cases : List (ErrorStatus × InvalidParam × String)) (status : ErrorStatus)
    {error : InvalidParam} {name : String} (hfits : x.Fits) (hdata : x.requestData = .ok data)
    (hresponse : x.responseData data = encodeV1Error community id status vars oids param)
    (hstatus : 0 ≤ status.code) (h0 : status ≠ .noError) (h1 : status ≠ .tooBig)
    (hfind : cases.find? (fun c => c.1 = status) = some (status, error, name))
    (hvars : ∀ v ∈ vars, encodableVar v) (hparam : param ∈ oids) (hlen : oids.length < 2 ^ 64)
    (hanswer : ∀ reply errorIndex, decodeSnmpV1Response reply
        = .ok ⟨0xA2, community, id, status, errorIndex, vars⟩ →
      ∃ rest, x.answer reply = throwErrorStatus cases status errorIndex oids oids >>= rest) :
    x.run = fails error param := by
  rw [encodeV1Error, errorIndexOf_of_mem hparam, Run.ok_bind] at hresponse
  refine run_v1 status hfits hdata hresponse hstatus hvars fun reply hreply => ?_
  obtain ⟨rest, hrest⟩ := hanswer reply _ hreply
  rw [hrest, throwErrorStatus_of_find h0 h1 hfind hparam hparam hlen]
  rfl

/-- An error that a V2c response reports is the one the client throws. -/
theorem run_v2c_error {x : Exchange} {data : List UInt8} {community : Community}
    {id : RequestId} {vars : List SnmpVar} {oids : List Oid} {param : Oid}
    (cases : List (ErrorStatus × InvalidParam × String)) (status : ErrorStatus)
    {error : InvalidParam} {name : String} (hfits : x.Fits) (hdata : x.requestData = .ok data)
    (hresponse : x.responseData data = encodeV2cError community id status vars oids param)
    (hstatus : 0 ≤ status.code) (h0 : status ≠ .noError) (h1 : status ≠ .tooBig)
    (hfind : cases.find? (fun c => c.1 = status) = some (status, error, name))
    (hvars : ∀ v ∈ vars, v.encodable) (hparam : param ∈ oids) (hlen : oids.length < 2 ^ 64)
    (hanswer : ∀ reply errorIndex, decodeSnmpV2cResponse reply
        = .ok ⟨0xA2, community, id, status, errorIndex, vars⟩ →
      ∃ rest, x.answer reply = throwErrorStatus cases status errorIndex oids oids >>= rest) :
    x.run = fails error param := by
  rw [encodeV2cError, errorIndexOf_of_mem hparam, Run.ok_bind] at hresponse
  refine run_v2c status vars hfits hdata hresponse hstatus hvars fun reply hreply => ?_
  obtain ⟨rest, hrest⟩ := hanswer reply _ hreply
  rw [hrest, throwErrorStatus_of_find h0 h1 hfind hparam hparam hlen]
  rfl

theorem run_v1Get {request : SnmpV1GetRequest} {outcome : SnmpV1GetRequest.Outcome}
    (hproper : (v1Get request outcome).Proper) (hfits : (v1Get request outcome).Fits) :
    (v1Get request outcome).run = (v1Get request outcome).expected := by
  obtain ⟨hoids, hfor⟩ := hproper
  obtain ⟨data, hdata, hback⟩ := SnmpV1GetRequest.decode_encode hoids
  have hlen := (hfits data hdata).1
  have hcount := (length_oids_le hoids hdata).trans hlen
  have hresponse : (v1Get request outcome).responseData data
      = request.encodeResponse request.oids.toList outcome := by
    rw [responseData, hback hlen]
    rfl
  have hnulls := paramNulls_encodable hoids
  have hnames := paramNulls_fst request.oids.toList
  have hanswer : ∀ reply status errorIndex vars, vars.map Prod.fst = request.oids.toList →
      decodeSnmpV1Response reply
        = .ok ⟨0xA2, request.community, request.id, status, errorIndex, vars⟩ →
      ∃ rest, (v1Get request outcome).answer reply
        = throwErrorStatus [(.noSuchName, .noSuchName, "NoSuchName (2)"),
            (.genErr, .genErr, "GenErr (5)")] status errorIndex request.oids.toList
            request.oids.toList >>= rest := by
    intro reply status errorIndex vars hvars hreply
    rw [answer, hreply, Run.ok_bind, SnmpV1GetRequest.validateResponse, checkIsResponse_self,
      Run.ok_bind, ← hvars]
    exact ⟨_, bind_assoc ..⟩
  cases outcome with
  | results values =>
    obtain ⟨hkeys, hvalues⟩ := hfor
    rw [SnmpV1GetRequest.encodeResponse, ← hkeys, paramValues_keys] at hresponse
    refine run_v1 .noError hfits hdata hresponse (by decide) ?_ fun reply hreply => ?_
    · intro x hx
      have hkey : x.1 ∈ values.keys := List.mem_map_of_mem hx
      exact ⟨hoids x.1 (hkeys ▸ hkey), hvalues x hx⟩
    · have hmissing : request.oids.toList.filter (fun oid => (values.find? oid).isNone) = [] := by
        refine List.filter_eq_nil_iff.mpr fun oid hoid => ?_
        rw [← hkeys] at hoid
        rw [Option.isNone_iff_eq_none, ← ne_eq, Option.ne_none_iff_isSome, OrderedBy.find?_isSome]
        exact hoid
      rw [answer, hreply, Run.ok_bind, SnmpV1GetRequest.validateResponse, checkIsResponse_self,
        Run.ok_bind]
      simp [throwErrorStatus, hmissing, check, expected]
  | noSuchName param =>
    exact run_v1_error _ .noSuchName hfits hdata hresponse (by decide) (by decide) (by decide)
      rfl hnulls hfor (by omega) fun reply errorIndex => hanswer reply _ _ _ hnames
  | tooBig =>
    refine run_v1 .tooBig hfits hdata hresponse (by decide) hnulls ?_
    intro reply hreply
    obtain ⟨rest, hrest⟩ := hanswer reply _ _ _ hnames hreply
    rw [hrest]
    rfl
  | genErr param =>
    exact run_v1_error _ .genErr hfits hdata hresponse (by decide) (by decide) (by decide)
      rfl hnulls hfor (by omega) fun reply errorIndex => hanswer reply _ _ _ hnames

theorem run_v1Set {request : SnmpV1SetRequest} {outcome : SnmpV1SetRequest.Outcome}
    (hproper : (v1Set request outcome).Proper) (hfits : (v1Set request outcome).Fits) :
    (v1Set request outcome).run = (v1Set request outcome).expected := by
  obtain ⟨hvars, hfor⟩ := hproper
  obtain ⟨data, hdata, hback⟩ := SnmpV1SetRequest.decode_encode hvars
  have hlen := (hfits data hdata).1
  have hcount : request.values.keys.length ≤ 0x7fffffff := by
    rw [OrderedBy.keys, List.length_map]
    exact (length_le_of_encodeRequest hvars hdata).trans hlen
  have hresponse : (v1Set request outcome).responseData data
      = request.encodeResponse request.values.keys outcome := by
    rw [responseData, hback hlen]
    rfl
  rw [SnmpV1SetRequest.encodeResponse, paramValues_keys, Run.ok_bind] at hresponse
  have hanswer : ∀ reply status errorIndex,
      decodeSnmpV1Response reply = .ok ⟨0xA2, request.community, request.id, status, errorIndex,
        request.values.toList⟩ →
      ∃ rest, (v1Set request outcome).answer reply
        = throwErrorStatus
            [(.noSuchName, .noSuchName, "NoSuchName (2)"), (.badValue, .badValue, "BadValue (3)"),
              (.readOnly, .readOnly, "ReadOnly (4)"), (.genErr, .genErr, "GenErr (5)")]
            status errorIndex request.values.keys request.values.keys >>= rest := by
    intro reply status errorIndex hreply
    rw [answer, hreply, Run.ok_bind, SnmpV1SetRequest.validateResponse, checkIsResponse_self,
      Run.ok_bind]
    exact ⟨_, bind_assoc ..⟩
  cases outcome with
  | done =>
    refine run_v1 .noError hfits hdata hresponse (by decide) hvars ?_
    intro reply hreply
    rw [answer, hreply, Run.ok_bind, SnmpV1SetRequest.validateResponse, checkIsResponse_self,
      Run.ok_bind]
    dsimp only
    rw [show request.values.toList.map Prod.fst = request.values.keys from rfl, compareOids_self]
    rfl
  | noSuchName param =>
    exact run_v1_error _ .noSuchName hfits hdata hresponse (by decide) (by decide) (by decide)
      rfl hvars hfor (by omega) fun reply errorIndex => hanswer reply _ _
  | badValue param =>
    exact run_v1_error _ .badValue hfits hdata hresponse (by decide) (by decide) (by decide)
      rfl hvars hfor (by omega) fun reply errorIndex => hanswer reply _ _
  | readOnly param =>
    exact run_v1_error _ .readOnly hfits hdata hresponse (by decide) (by decide) (by decide)
      rfl hvars hfor (by omega) fun reply errorIndex => hanswer reply _ _
  | tooBig =>
    refine run_v1 .tooBig hfits hdata hresponse (by decide) hvars ?_
    intro reply hreply
    obtain ⟨rest, hrest⟩ := hanswer reply _ _ hreply
    rw [hrest]
    rfl
  | genErr param =>
    exact run_v1_error _ .genErr hfits hdata hresponse (by decide) (by decide) (by decide)
      rfl hvars hfor (by omega) fun reply errorIndex => hanswer reply _ _

theorem run_v1GetNext {request : SnmpV1GetNextRequest} {outcome : SnmpV1GetNextRequest.Outcome}
    (hproper : (v1GetNext request outcome).Proper) (hfits : (v1GetNext request outcome).Fits) :
    (v1GetNext request outcome).run = (v1GetNext request outcome).expected := by
  obtain ⟨hoids, hfor⟩ := hproper
  obtain ⟨data, hdata, hback⟩ := SnmpV1GetNextRequest.decode_encode hoids
  have hlen := (hfits data hdata).1
  have hcount := (length_oids_le hoids hdata).trans hlen
  have hresponse : (v1GetNext request outcome).responseData data
      = request.encodeResponse outcome := by
    rw [responseData, hback hlen]
    rfl
  have hnulls := paramNulls_encodable hoids
  cases outcome with
  | results values =>
    obtain ⟨hlength, hvalues⟩ := hfor
    refine run_v1 .noError hfits hdata hresponse (by decide) hvalues ?_
    intro reply hreply
    rw [answer, hreply, Run.ok_bind, SnmpV1GetNextRequest.validateResponse,
      checkIsResponse_self, Run.ok_bind]
    simp [hlength, check, expected]
  | tooBig =>
    refine run_v1 .tooBig hfits hdata hresponse (by decide) hnulls ?_
    intro reply hreply
    rw [answer, hreply, Run.ok_bind, SnmpV1GetNextRequest.validateResponse,
      checkIsResponse_self]
    rfl
  | genErr param =>
    change param ∈ request.oids at hfor
    obtain ⟨h0, hnat, hget⟩ := getElem_idxOf hfor (by omega)
    have hlt := List.idxOf_lt_length_of_mem hfor
    rw [SnmpV1GetNextRequest.encodeResponse, encodeV1Error, errorIndexOf_of_mem hfor,
      Run.ok_bind] at hresponse
    refine run_v1 .genErr hfits hdata hresponse (by decide) hnulls fun reply hreply => ?_
    have hgenErr : genErrOid (UInt64.ofNat (request.oids.idxOf param + 1))
        (paramNulls request.oids).length request.oids = .ok param := by
      rw [genErrOid, if_neg h0, hnat, paramNulls, List.length_map, if_neg (by omega), hget]
    rw [answer, hreply, Run.ok_bind, SnmpV1GetNextRequest.validateResponse,
      checkIsResponse_self, Run.ok_bind]
    dsimp only
    rw [hgenErr]
    rfl

theorem run_v2cGet {request : SnmpV2cGetRequest} {outcome : SnmpV2cGetRequest.Outcome}
    (hproper : (v2cGet request outcome).Proper) (hfits : (v2cGet request outcome).Fits) :
    (v2cGet request outcome).run = (v2cGet request outcome).expected := by
  obtain ⟨hoids, hfor⟩ := hproper
  obtain ⟨data, hdata, hback⟩ := SnmpV2cGetRequest.decode_encode hoids
  have hlen := (hfits data hdata).1
  have hcount := (length_oids_le hoids hdata).trans hlen
  have hresponse : (v2cGet request outcome).responseData data
      = request.encodeResponse request.oids.toList outcome := by
    rw [responseData, hback hlen]
    rfl
  have hnulls := ofPair_encodable (paramNulls_encodable hoids)
  have hnames : ((paramNulls request.oids.toList).map SnmpVar.ofPair).map SnmpVar.oid
      = request.oids.toList := by
    rw [ofPair_oid, paramNulls_fst]
  -- The errors differ only in what is thrown, and it is thrown before the results are read.
  have hanswer : ∀ reply status errorIndex,
      decodeSnmpV2cResponse reply = .ok ⟨0xA2, request.community, request.id, status,
        errorIndex, (paramNulls request.oids.toList).map SnmpVar.ofPair⟩ →
      ∃ rest, (v2cGet request outcome).answer reply
        = throwErrorStatus [(.noSuchName, .noSuchName, "NoSuchName (2)"),
            (.genErr, .genErr, "GenErr (5)")] status errorIndex request.oids.toList
            request.oids.toList >>= rest := by
    intro reply status errorIndex hreply
    rw [answer, hreply, Run.ok_bind, SnmpV2cGetRequest.validateResponse, checkIsResponse_self,
      Run.ok_bind]
    dsimp only
    rw [hnames]
    exact ⟨_, bind_assoc ..⟩
  cases outcome with
  | results vars =>
    obtain ⟨hkeys, hvars⟩ := hfor
    have hown : (vars.toList.map Prod.snd).map SnmpVar.oid = request.oids.toList := by
      rw [← hkeys, List.map_map]
      exact List.map_congr_left fun x hx => (hvars x hx).1
    -- A result is kept under its own oid.
    have hback' : (vars.toList.map Prod.snd).map (fun x => (x.oid, x)) = vars.toList := by
      rw [List.map_map]
      refine (List.map_congr_left fun x hx => ?_).trans (List.map_id _)
      exact Prod.ext (hvars x hx).1 rfl
    have hvars' : ∀ v ∈ vars.toList.map Prod.snd, v.encodable ∧ v.value ≠ .inl .endOfMibView := by
      intro v hv
      obtain ⟨x, hx, rfl⟩ := List.mem_map.mp hv
      exact (hvars x hx).2
    have hparams : paramVars vars request.oids.toList = .ok (vars.toList.map Prod.snd) := by
      rw [← hkeys]
      exact paramVars_of_subset fun _ hx => hx
    rw [SnmpV2cGetRequest.encodeResponse, hparams] at hresponse
    refine run_v2c .noError _ hfits hdata hresponse (by decide)
      (fun v hv => (hvars' v hv).1) ?_
    intro reply hreply
    rw [answer, hreply, Run.ok_bind, SnmpV2cGetRequest.validateResponse, checkIsResponse_self,
      Run.ok_bind]
    dsimp only
    rw [← hown, foldl_count, checkNotEndOfMibView_of fun v hv => (hvars' v hv).2, hback',
      OrderedBy.ofList_toList]
    rfl
  | noSuchName param =>
    exact run_v2c_error _ .noSuchName hfits hdata hresponse (by decide) (by decide) (by decide)
      rfl hnulls hfor (by omega) fun reply errorIndex => hanswer reply _ _
  | tooBig =>
    refine run_v2c .tooBig _ hfits hdata hresponse (by decide) hnulls ?_
    intro reply hreply
    obtain ⟨rest, hrest⟩ := hanswer reply _ _ hreply
    rw [hrest]
    rfl
  | genErr param =>
    exact run_v2c_error _ .genErr hfits hdata hresponse (by decide) (by decide) (by decide)
      rfl hnulls hfor (by omega) fun reply errorIndex => hanswer reply _ _

/-- The table of the build and the one of the client agree. -/
theorem v2cSetErrors_find (error : SetError) :
    0 ≤ error.errorCode.code ∧ error.errorCode ≠ .noError ∧ error.errorCode ≠ .tooBig ∧
      error.errorCode ≠ .undoFailed ∧
      ∃ name, v2cSetErrors.find? (fun c => c.1 = error.errorCode)
        = some (error.errorCode, error.exception, name) := by
  cases error <;> exact ⟨by decide, by decide, by decide, by decide, _, rfl⟩

theorem run_v2cSet {request : SnmpV2cSetRequest} {outcome : SnmpV2cSetRequest.Outcome}
    (hproper : (v2cSet request outcome).Proper) (hfits : (v2cSet request outcome).Fits) :
    (v2cSet request outcome).run = (v2cSet request outcome).expected := by
  obtain ⟨hvars, hfor⟩ := hproper
  obtain ⟨data, hdata, hback⟩ := SnmpV2cSetRequest.decode_encode hvars
  have hlen := (hfits data hdata).1
  have hcount : request.values.keys.length ≤ 0x7fffffff := by
    rw [OrderedBy.keys, List.length_map]
    exact (length_le_of_encodeRequest hvars hdata).trans hlen
  have hresponse : (v2cSet request outcome).responseData data
      = request.encodeResponse request.values.keys outcome := by
    rw [responseData, hback hlen]
    rfl
  have hvars' := ofPair_encodable hvars
  have hnames : (request.values.toList.map SnmpVar.ofPair).map SnmpVar.oid
      = request.values.keys := ofPair_oid _
  cases outcome with
  | done =>
    rw [SnmpV2cSetRequest.encodeResponse, paramValues_keys, Run.ok_bind] at hresponse
    refine run_v2c .noError _ hfits hdata hresponse (by decide) hvars' ?_
    intro reply hreply
    rw [answer, hreply, Run.ok_bind, SnmpV2cSetRequest.validateResponse, checkIsResponse_self,
      Run.ok_bind]
    dsimp only
    rw [hnames, compareOids_self]
    rfl
  | tooBig =>
    -- the only response without its parameters
    refine run_v2c .tooBig [] hfits hdata hresponse (by decide)
      (fun v hv => absurd hv List.not_mem_nil) ?_
    intro reply hreply
    rw [answer, hreply, Run.ok_bind, SnmpV2cSetRequest.validateResponse, checkIsResponse_self]
    rfl
  | error error param =>
    obtain ⟨hcode, h0, h1, hundo, name, hfind⟩ := v2cSetErrors_find error
    rw [SnmpV2cSetRequest.encodeResponse, paramValues_keys, Run.ok_bind] at hresponse
    refine run_v2c_error _ error.errorCode hfits hdata hresponse hcode h0 h1 hfind hvars' hfor
      (by omega) fun reply errorIndex hreply => ?_
    rw [answer, hreply, Run.ok_bind, SnmpV2cSetRequest.validateResponse, checkIsResponse_self,
      Run.ok_bind]
    dsimp only
    rw [check, if_pos hundo, Run.ok_bind, hnames]
    exact ⟨_, bind_assoc ..⟩

theorem run_v2cGetNext {request : SnmpV2cGetNextRequest}
    {outcome : SnmpV2cGetNextRequest.Outcome}
    (hproper : (v2cGetNext request outcome).Proper) (hfits : (v2cGetNext request outcome).Fits) :
    (v2cGetNext request outcome).run = (v2cGetNext request outcome).expected := by
  obtain ⟨hoids, hfor⟩ := hproper
  obtain ⟨data, hdata, hback⟩ := SnmpV2cGetNextRequest.decode_encode hoids
  have hlen := (hfits data hdata).1
  have hcount := (length_oids_le hoids hdata).trans hlen
  have hresponse : (v2cGetNext request outcome).responseData data
      = request.encodeResponse outcome := by
    rw [responseData, hback hlen]
    rfl
  have hnulls := ofPair_encodable (paramNulls_encodable hoids)
  have hnames : ((paramNulls request.oids).map SnmpVar.ofPair).map SnmpVar.oid
      = request.oids := by
    rw [ofPair_oid, paramNulls_fst]
  cases outcome with
  | results vars =>
    obtain ⟨hlength, hvars⟩ := hfor
    refine run_v2c .noError _ hfits hdata hresponse (by decide) hvars ?_
    intro reply hreply
    rw [answer, hreply, Run.ok_bind, SnmpV2cGetNextRequest.validateResponse,
      checkIsResponse_self, Run.ok_bind]
    simp [throwErrorStatus, hlength, check, expected]
  | tooBig =>
    refine run_v2c .tooBig _ hfits hdata hresponse (by decide) hnulls ?_
    intro reply hreply
    rw [answer, hreply, Run.ok_bind, SnmpV2cGetNextRequest.validateResponse,
      checkIsResponse_self]
    rfl
  | genErr param =>
    refine run_v2c_error [(.genErr, .genErr, "GenErr (5)")] .genErr hfits hdata hresponse
      (by decide) (by decide) (by decide) rfl hnulls hfor (by omega)
      fun reply errorIndex hreply => ?_
    rw [answer, hreply, Run.ok_bind, SnmpV2cGetNextRequest.validateResponse,
      checkIsResponse_self, Run.ok_bind]
    dsimp only
    rw [hnames]
    exact ⟨_, bind_assoc ..⟩

/-- Client and server agree: the client gets the server's values, under the identifiers
the server gave them for, or the exception of the error the server reported, about the
same identifier. -/
theorem run_eq (x : Exchange) (hproper : x.Proper) (hfits : x.Fits) : x.run = x.expected := by
  cases x with
  | v1Get request outcome => exact run_v1Get hproper hfits
  | v1Set request outcome => exact run_v1Set hproper hfits
  | v1GetNext request outcome => exact run_v1GetNext hproper hfits
  | v2cGet request outcome => exact run_v2cGet hproper hfits
  | v2cSet request outcome => exact run_v2cSet hproper hfits
  | v2cGetNext request outcome => exact run_v2cGetNext hproper hfits

theorem run_eq_wrongType :
    (v2cSet ⟨[0x70], 7, .ofList [(⟨[1, 3, 6]⟩, .intValue 5)]⟩
        (.error .wrongType ⟨[1, 3, 6]⟩)).run
      = fails .wrongType ⟨[1, 3, 6]⟩ := by
  refine run_eq (v2cSet ⟨[0x70], 7, .ofList [(⟨[1, 3, 6]⟩, .intValue 5)]⟩
    (.error .wrongType ⟨[1, 3, 6]⟩)) ⟨?_, ?_⟩ ?_
  · intro x hx
    obtain rfl := List.mem_singleton.mp hx
    exact ⟨by decide, trivial⟩
  · exact List.mem_singleton.mpr rfl
  · have hdata : (v2cSet ⟨[0x70], 7, .ofList [(⟨[1, 3, 6]⟩, .intValue 5)]⟩
        (.error .wrongType ⟨[1, 3, 6]⟩)).requestData
          = .ok [0x30, 28, 2, 1, 1, 4, 1, 0x70, 0xA3, 20, 2, 1, 7, 2, 1, 0, 2, 1, 0, 0x30, 9,
            0x30, 7, 6, 2, 0x2b, 6, 2, 1, 5] := by decide +kernel
    have hresponse : (v2cSet ⟨[0x70], 7, .ofList [(⟨[1, 3, 6]⟩, .intValue 5)]⟩
        (.error .wrongType ⟨[1, 3, 6]⟩)).responseData
          [0x30, 28, 2, 1, 1, 4, 1, 0x70, 0xA3, 20, 2, 1, 7, 2, 1, 0, 2, 1, 0, 0x30, 9,
            0x30, 7, 6, 2, 0x2b, 6, 2, 1, 5]
          = .ok [0x30, 28, 2, 1, 1, 4, 1, 0x70, 0xA2, 20, 2, 1, 7, 2, 1, 7, 2, 1, 1, 0x30, 9,
            0x30, 7, 6, 2, 0x2b, 6, 2, 1, 5] := by decide +kernel
    intro data h
    rw [hdata] at h
    cases h
    refine ⟨by decide, fun reply hreply => ?_⟩
    rw [hresponse] at hreply
    cases hreply
    decide

/-- What cannot be told to a peer is not agreed on: a time travels in hundredths of a
second, identifiers start `.1.3`, and the end of the MIB view is not accepted for a
value. -/
theorem run_ne_expected :
    (v1Get ⟨[0x70], 7, .ofList [⟨[1, 3, 6]⟩]⟩
        (.results (.ofList [(⟨[1, 3, 6]⟩, .timeTicksValue 5)]))).run
      = .ok (.values (.ofList [(⟨[1, 3, 6]⟩, .timeTicksValue 0)])) ∧
    (v1Get ⟨[0x70], 7, .ofList [⟨[1, 4]⟩]⟩
        (.results (.ofList [(⟨[1, 4]⟩, .intValue 5)]))).run
      = .error (.died .assertFailed) ∧
    (v2cGet ⟨[0x70], 7, .ofList [⟨[1, 3, 6]⟩]⟩
        (.results (.ofList [(⟨[1, 3, 6]⟩, ⟨⟨[1, 3, 6]⟩, .inl .endOfMibView⟩)]))).run
      = .error (.threw (.endOfMibView ⟨[1, 3, 6]⟩)) ∧
    ¬ ∀ x : Exchange, x.run = x.expected := by
  refine ⟨by decide +kernel, by decide +kernel, by decide +kernel, fun h => ?_⟩
  have htime := h (v1Get ⟨[0x70], 7, .ofList [⟨[1, 3, 6]⟩]⟩
    (.results (.ofList [(⟨[1, 3, 6]⟩, .timeTicksValue 5)])))
  revert htime
  decide +kernel

end Exchange

end Urnest.Snmp
