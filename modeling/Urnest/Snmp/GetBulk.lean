import Urnest.Snmp.ValidateResponse

/-!
# The response to a get-bulk

`validateResponse` of a get-bulk cuts the flat list of a response in two: as many variables as
there are "get" identifiers, and rows with a variable for each repeated one. The rows keep
every variable in its place. The "get" ones are put in a map, and its key is the identifier
that was asked for: where that is asked for twice, only the first variable is kept.
-/

namespace Urnest.Snmp

open Lib

/-! ## The code -/

/-- The rows from the given one on. -/
def nextValues (rowSize : Nat) (h : 0 < rowSize) (row : Nat) (vars : List SnmpVar) :
    Result (List (List SnmpVar)) :=
  if hvars : vars = [] then .ok []
  else if vars.length < rowSize then
    throwException ("\"next values\" row " ++ Nat.repr row ++ " only has " ++ Nat.repr vars.length
      ++ " values, which is less than the row size of " ++ Nat.repr rowSize)
  else do
    let rows ← nextValues rowSize h (row + 1) (vars.drop rowSize)
    pure (vars.take rowSize :: rows)
  termination_by vars.length
  decreasing_by
    have := List.length_pos_of_ne_nil hvars
    simp only [List.length_drop]
    omega

def SnmpV2cGetBulkRequest.validateResponse (request : SnmpV2cGetBulkRequest)
    (response : SnmpV2cResponse) : Result (SortedMap Oid SnmpVar × List (List SnmpVar)) := do
  checkIsResponse request.id response.id response.responseType
  -- What is looked up and where it has to be are both the request's here.
  throwErrorStatus [(.genErr, .genErr, "GenErr (5)")] response.error response.errorIndex
    request.getNext request.getNextN
  check (¬ response.varResults.length < request.getNext.length)
    (.exception ("response contains only " ++ Nat.repr response.varResults.length
      ++ " value(s), which is less than then number (" ++ Nat.repr request.getNext.length
      ++ ") of \"get\" oids requested"))
  let values : SortedMap Oid SnmpVar := .ofList (request.getNext.zip response.varResults)
  let rest := response.varResults.drop request.getNext.length
  if h : request.getNextN.length = 0 then
    check (rest = []) (.exception ("response contains " ++ Nat.repr rest.length ++ " extra vars"))
    pure (values, [])
  else
    let rows ← nextValues request.getNextN.length (Nat.pos_of_ne_zero h) 0 rest
    pure (values, rows)

/-! ## The rows -/

theorem nextValues_eq_ok {rowSize row : Nat} {h : 0 < rowSize} {vars : List SnmpVar}
    {rows : List (List SnmpVar)} (hrows : nextValues rowSize h row vars = .ok rows) :
    vars = rows.flatten ∧ ∀ r ∈ rows, r.length = rowSize := by
  fun_induction nextValues rowSize h row vars generalizing rows with
  | case1 =>
    cases hrows
    simp
  | case2 => cases hrows
  | case3 row vars hvars hlt ih =>
    obtain ⟨rest, hrest, heq⟩ := Run.bind_eq_ok.mp hrows
    cases heq
    obtain ⟨hflat, hlength⟩ := ih hrest
    constructor
    · rw [List.flatten_cons, ← hflat, List.take_append_drop]
    · rintro r (_ | ⟨_, hr⟩)
      · exact List.length_take_of_le (not_lt.mp hlt)
      · exact hlength r hr

/-- The only complaint is about a row that is not whole. -/
theorem nextValues_eq_error {rowSize row : Nat} {h : 0 < rowSize} {vars : List SnmpVar}
    {stop : Stop Exception Fault} (hstop : nextValues rowSize h row vars = .error stop) :
    (∃ e, stop = .threw e) ∧ ¬ rowSize ∣ vars.length := by
  fun_induction nextValues rowSize h row vars generalizing stop with
  | case1 => cases hstop
  | case2 row vars hvars hlt =>
    cases hstop
    exact ⟨⟨_, rfl⟩, Nat.not_dvd_of_pos_of_lt (List.length_pos_of_ne_nil hvars) hlt⟩
  | case3 row vars hvars hlt ih =>
    cases hrest : nextValues rowSize h (row + 1) (vars.drop rowSize) with
    | ok rows =>
      rw [hrest] at hstop
      cases hstop
    | error stop' =>
      rw [hrest] at hstop
      cases hstop
      obtain ⟨hthrew, hnot⟩ := ih hrest
      refine ⟨hthrew, fun hdvd => hnot ?_⟩
      rw [List.length_drop]
      exact Nat.dvd_sub hdvd dvd_rfl

theorem dvd_length_flatten {rowSize : Nat} {rows : List (List SnmpVar)}
    (h : ∀ row ∈ rows, row.length = rowSize) : rowSize ∣ rows.flatten.length := by
  induction rows with
  | nil => simp
  | cons row rows ih =>
    obtain ⟨hrow, hrows⟩ := List.forall_mem_cons.mp h
    rw [List.flatten_cons, List.length_append, hrow]
    exact (Nat.dvd_add_right dvd_rfl).mpr (ih hrows)

/-! ## What is refused -/

namespace SnmpV2cGetBulkRequest

variable (request : SnmpV2cGetBulkRequest) (response : SnmpV2cResponse)

/-- It answers another request, or says that something went wrong. -/
def ReportsError : Prop :=
  request.id ≠ response.id ∨ response.responseType ≠ 0xA2 ∨ response.error ≠ .noError

def TooFew : Prop := response.varResults.length < request.getNext.length

/-- Behind the "get" variables are whole rows. Where a row has nothing in it, so has the rest. -/
def WholeRows : Prop :=
  request.getNextN.length ∣ response.varResults.length - request.getNext.length

end SnmpV2cGetBulkRequest

theorem check_eq_error {p : Prop} [Decidable p] {e : Exception} {stop : Stop Exception Fault}
    (h : check p e = .error stop) : stop = .threw e ∧ ¬ p := by
  unfold check at h
  split at h
  · cases h
  · cases h
    exact ⟨rfl, by assumption⟩

theorem check_eq_ok {p : Prop} [Decidable p] {e : Exception} (h : check p e = .ok ()) : p := by
  unfold check at h
  split at h
  · assumption
  · cases h

theorem getErrorOid_eq_error {errorIndex : ErrorIndex} {responseOids requestOids : List Oid}
    {error : String} {stop : Stop Exception Fault}
    (h : getErrorOid errorIndex responseOids requestOids error = .error stop) :
    ∃ e, stop = .threw e := by
  unfold getErrorOid at h
  split at h
  · cases h
    exact ⟨_, rfl⟩
  · split at h
    · cases h
      exact ⟨_, rfl⟩
    · rcases Run.bind_eq_error.mp h with h | ⟨_, -, h⟩
      · exact ⟨_, (check_eq_error h).1⟩
      · cases h

theorem throwErrorStatus_eq_error {cases : List (ErrorStatus × InvalidParam × String)}
    {status : ErrorStatus} {errorIndex : ErrorIndex} {responseOids requestOids : List Oid}
    {stop : Stop Exception Fault}
    (h : throwErrorStatus cases status errorIndex responseOids requestOids = .error stop) :
    (∃ e, stop = .threw e) ∧ status ≠ .noError := by
  unfold throwErrorStatus at h
  split_ifs at h with hno hbig
  · cases h
    exact ⟨⟨_, rfl⟩, hno⟩
  · refine ⟨?_, hno⟩
    split at h
    · rcases Run.bind_eq_error.mp h with h | ⟨_, -, h⟩
      · exact getErrorOid_eq_error h
      · cases h
        exact ⟨_, rfl⟩
    · cases h
      exact ⟨_, rfl⟩

theorem throwErrorStatus_eq_ok {cases : List (ErrorStatus × InvalidParam × String)}
    {status : ErrorStatus} {errorIndex : ErrorIndex} {responseOids requestOids : List Oid}
    (h : throwErrorStatus cases status errorIndex responseOids requestOids = .ok ()) :
    status = .noError := by
  unfold throwErrorStatus at h
  split_ifs at h with hno hbig
  · exact hno
  · split at h
    · obtain ⟨_, -, h⟩ := Run.bind_eq_ok.mp h
      cases h
    · cases h

namespace SnmpV2cGetBulkRequest

variable {request : SnmpV2cGetBulkRequest} {response : SnmpV2cResponse}

theorem of_validateResponse_eq_error {stop : Stop Exception Fault}
    (h : request.validateResponse response = .error stop) :
    (∃ e, stop = .threw e) ∧
      (request.ReportsError response ∨ request.TooFew response ∨ ¬ request.WholeRows response) := by
  rw [validateResponse] at h
  rcases Run.bind_eq_error.mp h with h | ⟨_, -, h⟩
  · rcases Run.bind_eq_error.mp h with h | ⟨_, -, h⟩
    · obtain ⟨hthrew, hid⟩ := check_eq_error h
      exact ⟨⟨_, hthrew⟩, .inl (.inl hid)⟩
    · obtain ⟨hthrew, htype⟩ := check_eq_error h
      exact ⟨⟨_, hthrew⟩, .inl (.inr (.inl htype))⟩
  rcases Run.bind_eq_error.mp h with h | ⟨_, -, h⟩
  · obtain ⟨hthrew, hstatus⟩ := throwErrorStatus_eq_error h
    exact ⟨hthrew, .inl (.inr (.inr hstatus))⟩
  rcases Run.bind_eq_error.mp h with h | ⟨_, -, h⟩
  · obtain ⟨hthrew, hfew⟩ := check_eq_error h
    exact ⟨⟨_, hthrew⟩, .inr (.inl (not_not.mp hfew))⟩
  have hlength : (response.varResults.drop request.getNext.length).length =
      response.varResults.length - request.getNext.length := List.length_drop
  split at h
  case isTrue hzero =>
    rcases Run.bind_eq_error.mp h with h | ⟨_, -, h⟩
    · obtain ⟨hthrew, hextra⟩ := check_eq_error h
      refine ⟨⟨_, hthrew⟩, .inr (.inr fun hwhole => hextra ?_)⟩
      rw [WholeRows, hzero, zero_dvd_iff, ← hlength] at hwhole
      exact List.length_eq_zero_iff.mp hwhole
    · cases h
  case isFalse hne =>
    rcases Run.bind_eq_error.mp h with h | ⟨_, -, h⟩
    · obtain ⟨hthrew, hnot⟩ := nextValues_eq_error h
      rw [hlength] at hnot
      exact ⟨hthrew, .inr (.inr hnot)⟩
    · cases h

/-- Where there is an answer, the response is cut into the "get" variables and the rows. -/
theorem of_validateResponse_eq_ok {values : SortedMap Oid SnmpVar} {rows : List (List SnmpVar)}
    (h : request.validateResponse response = .ok (values, rows)) :
    ¬ request.ReportsError response ∧
      ∃ first, response.varResults = first ++ rows.flatten ∧
        first.length = request.getNext.length ∧
        (∀ row ∈ rows, row.length = request.getNextN.length) ∧
        values = .ofList (request.getNext.zip first) := by
  rw [validateResponse] at h
  obtain ⟨_, hcheck, h⟩ := Run.bind_eq_ok.mp h
  obtain ⟨_, hid, htype⟩ := Run.bind_eq_ok.mp hcheck
  obtain ⟨_, hstatus, h⟩ := Run.bind_eq_ok.mp h
  obtain ⟨_, hfew, h⟩ := Run.bind_eq_ok.mp h
  have hle := not_lt.mp (check_eq_ok hfew)
  have hzip : request.getNext.zip response.varResults =
      request.getNext.zip (response.varResults.take request.getNext.length) := by
    rw [List.zip_eq_zip_take_min, Nat.min_eq_left hle, List.take_length]
  refine ⟨?_, response.varResults.take request.getNext.length, ?_⟩
  · rintro (hid' | htype' | hstatus')
    · exact hid' (check_eq_ok hid)
    · exact htype' (check_eq_ok htype)
    · exact hstatus' (throwErrorStatus_eq_ok hstatus)
  split at h
  · obtain ⟨_, hrest, h⟩ := Run.bind_eq_ok.mp h
    cases h
    have hrest := check_eq_ok hrest
    refine ⟨?_, List.length_take_of_le hle, by simp, congrArg _ hzip⟩
    rw [List.flatten_nil, ← hrest, List.take_append_drop]
  · obtain ⟨rows', hrows, h⟩ := Run.bind_eq_ok.mp h
    cases h
    obtain ⟨hflat, hlength⟩ := nextValues_eq_ok hrows
    refine ⟨?_, List.length_take_of_le hle, hlength, congrArg _ hzip⟩
    rw [← hflat, List.take_append_drop]

/-! ## What becomes of the variables -/

/-- The variable for an identifier that was asked for -/
def valueOf (values : SortedMap Oid SnmpVar) (oid : Oid) : Option SnmpVar :=
  (values.find? oid).map Prod.snd

theorem find?_ofList (xs : List (Oid × SnmpVar)) (oid : Oid) :
    (OrderedBy.ofList xs : SortedMap Oid SnmpVar).find? oid = xs.find? fun x => x.1 = oid := by
  rw [OrderedBy.find?_ofList]
  congr!

theorem valueOf_zip {oids : List Oid} {vars : List SnmpVar} (h : oids.Nodup)
    (hlength : vars.length = oids.length) :
    oids.map (valueOf (.ofList (oids.zip vars))) = vars.map some := by
  have hfirst (oid : Oid) : valueOf (.ofList (oids.zip vars)) oid =
      ((oids.zip vars).find? fun x => x.1 = oid).map Prod.snd := by
    rw [valueOf, find?_ofList]
  rw [List.map_congr_left fun oid _ => hfirst oid]
  clear hfirst
  induction oids generalizing vars with
  | nil => simp [List.length_eq_zero_iff.mp hlength]
  | cons oid oids ih =>
    obtain ⟨var, vars, rfl⟩ := List.exists_cons_of_length_eq_add_one hlength
    obtain ⟨hnotMem, hnodup⟩ := List.nodup_cons.mp h
    have hrest := ih hnodup (Nat.succ.inj hlength)
    rw [List.map_cons, List.map_cons, ← hrest]
    congr 1
    · simp
    · refine List.map_congr_left fun oid' hoid' => ?_
      have hne : oid ≠ oid' := fun heq => hnotMem (heq ▸ hoid')
      simp [hne]

/-- Nothing is lost: the variables that were asked for, in the order of the request, and behind
them the rows are the response's. -/
def Partitions (request : SnmpV2cGetBulkRequest) (response : SnmpV2cResponse) : Prop :=
  match request.validateResponse response with
  | .error _ =>
    request.ReportsError response ∨ request.TooFew response ∨ ¬ request.WholeRows response
  | .ok (values, rows) =>
    request.getNext.map (valueOf values) ++ rows.flatten.map some = response.varResults.map some ∧
      ∀ row ∈ rows, row.length = request.getNextN.length

/-- A response is refused for one of the three reasons. Else it is cut into the variables that
the map is made of, where the first one of an identifier counts, and the rows; if no identifier
is asked for twice, the map has all of those variables. -/
theorem validateResponse_partition (request : SnmpV2cGetBulkRequest) (response : SnmpV2cResponse) :
    match request.validateResponse response with
    | .error stop =>
      (∃ e, stop = .threw e) ∧
        (request.ReportsError response ∨ request.TooFew response ∨ ¬ request.WholeRows response)
    | .ok (values, rows) =>
      ¬ request.ReportsError response ∧ ¬ request.TooFew response ∧ request.WholeRows response ∧
        ∃ first, response.varResults = first ++ rows.flatten ∧
          first.length = request.getNext.length ∧
          (∀ row ∈ rows, row.length = request.getNextN.length) ∧
          (∀ oid, values.find? oid = (request.getNext.zip first).find? fun x => x.1 = oid) ∧
          (request.getNext.Nodup → request.getNext.map (valueOf values) = first.map some) := by
  cases h : request.validateResponse response with
  | error stop => exact of_validateResponse_eq_error h
  | ok answer =>
    obtain ⟨values, rows⟩ := answer
    obtain ⟨hreports, first, hvars, hfirst, hrows, rfl⟩ := of_validateResponse_eq_ok h
    have hlength : response.varResults.length =
        request.getNext.length + rows.flatten.length := by
      rw [hvars, List.length_append, hfirst]
    refine ⟨hreports, ?_, ?_, first, hvars, hfirst, hrows, ?_, fun hnodup => ?_⟩
    · rw [TooFew, hlength]
      exact Nat.not_lt.mpr (Nat.le_add_right ..)
    · rw [WholeRows, hlength, Nat.add_sub_cancel_left]
      exact dvd_length_flatten hrows
    · exact find?_ofList _
    · exact valueOf_zip hnodup hfirst

/-- Of two variables for the same identifier the second one is lost. -/
theorem not_partitions :
    ¬ Partitions ⟨[], 1, [⟨[1, 3, 1]⟩, ⟨[1, 3, 1]⟩], [], 0⟩
      ⟨0xA2, [], 1, .noError, 0,
        [⟨⟨[1, 3, 2]⟩, .inr .nullValue⟩, ⟨⟨[1, 3, 4]⟩, .inr .nullValue⟩]⟩ := by
  intro h
  have hvalues := h.1
  revert hvalues
  decide

end SnmpV2cGetBulkRequest

end Urnest.Snmp
