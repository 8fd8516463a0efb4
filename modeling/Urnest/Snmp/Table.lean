import Urnest.Snmp.EncodeResponse
import Urnest.Snmp.ValidateResponse

/-!
# Tables

`SnmpV1Table` and `SnmpV2cTable`: the columns collected so far, the identifiers to ask
for next and `add`, which takes a row of answers or finds that the table is at its end.
The two classes differ in their cells and in what tells a cell that is past the end of
its column (`leaves`); the rest is `Table`, for any type of cell.

That the map of the source has the given columns as its keys, whatever is added, is
carried by the table.
-/

namespace Urnest.Snmp

open Lib

/-- A table under construction. -/
structure Table (ι : Type) where
  cols : SortedSet Oid
  /-- the cells of each column, first row first -/
  data : SortedMap Oid (List ι)
  atEnd : Bool
  /-- there is a column for each of `cols` -/
  keys : data.keys = cols.toList

namespace Table

variable {ι : Type}

/-- No rows yet. -/
def new (cols : SortedSet Oid) : Table ι where
  cols := cols
  data := ⟨cols.toList.map fun x => (x, []), List.pairwise_map.mpr cols.sorted⟩
  atEnd := false
  keys := by simp [OrderedBy.keys, Function.comp_def]

/-- The identifier of the last cell of each column, which must have one. -/
def lastOids (oidOf : ι → Oid) : List (Oid × List ι) → Result (List Oid)
  | [] => .ok []
  | x :: xs =>
    match x.2.getLast? with
    | none => .error (.died .outOfRange)
    | some cell => do
      let rest ← lastOids oidOf xs
      pure (oidOf cell :: rest)

/-- What to ask for: the columns, or what follows their last cells. The first column
decides whether there are rows. -/
def nextOids (oidOf : ι → Oid) (t : Table ι) : Result (List Oid) :=
  match t.data.toList with
  | [] => .error (.died .outOfRange)
  | first :: _ =>
    if first.2.length = 0 then .ok t.cols.toList
    else do
      let result ← lastOids oidOf t.data.toList
      assert (result.length = t.cols.toList.length)
      pure result

/-- Push the cells of a row, each on its column. -/
def pushCells : List (Oid × List ι) → List ι → List (Oid × List ι)
  | x :: xs, cell :: row => (x.1, x.2 ++ [cell]) :: pushCells xs row
  | xs, _ => xs

theorem pushCells_keys (xs : List (Oid × List ι)) (row : List ι) :
    (pushCells xs row).map Prod.fst = xs.map Prod.fst := by
  induction xs generalizing row with
  | nil => rfl
  | cons x xs ih =>
    cases row with
    | nil => rfl
    | cons cell row => simp [pushCells, ih row]

/-- A table with a row more. -/
def pushRow (t : Table ι) (row : List ι) : Table ι where
  cols := t.cols
  data :=
    { toList := pushCells t.data.toList row
      sorted := by
        have hsorted := t.data.keys_sorted
        rw [OrderedBy.keys, ← pushCells_keys t.data.toList row] at hsorted
        exact List.pairwise_map.mp hsorted }
  atEnd := t.atEnd
  keys := by rw [OrderedBy.keys, pushCells_keys]; exact t.keys

/-- Take a row, unless one of its cells `leaves` its column, which ends the table. -/
def add (leaves : Oid → ι → Bool) (t : Table ι) (row : List ι) : Result (Table ι) := do
  assert (row.length = t.cols.toList.length)
  if (t.cols.toList.zip row).any fun x => leaves x.1 x.2 then pure { t with atEnd := true }
  else pure (t.pushRow row)

end Table

/-! ## The two classes -/

abbrev SnmpV1Table := Table (Oid × Value)

/-- A cell that is not in the column. -/
def SnmpV1Table.leaves (col : Oid) (x : Oid × Value) : Bool := !col.contains x.1

def SnmpV1Table.nextOids (t : SnmpV1Table) : Result (List Oid) := Table.nextOids Prod.fst t

def SnmpV1Table.add (t : SnmpV1Table) (row : List (Oid × Value)) : Result SnmpV1Table :=
  Table.add SnmpV1Table.leaves t row

abbrev SnmpV2cTable := Table SnmpVar

/-- A cell that is not in the column, or that says that there is no more. -/
def SnmpV2cTable.leaves (col : Oid) (x : SnmpVar) : Bool :=
  !col.contains x.oid || x.value = .inl .endOfMibView

def SnmpV2cTable.nextOids (t : SnmpV2cTable) : Result (List Oid) :=
  Table.nextOids SnmpVar.oid t

def SnmpV2cTable.add (t : SnmpV2cTable) (row : List SnmpVar) : Result SnmpV2cTable :=
  Table.add SnmpV2cTable.leaves t row

/-! ## Agents -/

/-- What an agent knows. -/
abbrev Mib := SortedMap Oid Value

namespace Mib

/-- A V1 agent: the next variable for each identifier or, where one of them has none,
an error that names it. -/
def answerV1 (mib : Mib) (request : SnmpV1GetNextRequest) : SnmpV1Response :=
  match request.oids.mapM mib.next? with
  | some values => ⟨0xA2, request.community, request.id, .noError, 0, values⟩
  | none =>
    { responseType := 0xA2
      community := request.community
      id := request.id
      error := .noSuchName
      errorIndex := UInt64.ofNat (request.oids.findIdx (fun x => (mib.next? x).isNone) + 1)
      values := paramNulls request.oids }

/-- The next variable or, at the end, the identifier itself with a marker. -/
def nextVar (mib : Mib) (oid : Oid) : SnmpVar :=
  match mib.next? oid with
  | some x => .ofPair x
  | none => ⟨oid, .inl .endOfMibView⟩

/-- A V2c agent. -/
def answerV2c (mib : Mib) (request : SnmpV2cGetNextRequest) : SnmpV2cResponse :=
  ⟨0xA2, request.community, request.id, .noError, 0, request.oids.map mib.nextVar⟩

/-- The instances of a column: what is below it, in order. -/
def instances (mib : Mib) (col : Oid) : List (Oid × Value) :=
  mib.toList.filter fun x => col.contains x.1 && x.1 ≠ col

/-- What tells the instances of a column apart. -/
def suffixes (mib : Mib) (col : Oid) : List (List UInt32) :=
  (mib.instances col).map fun x => x.1.components.drop col.components.length

end Mib

/-! ## The loop -/

/-- The table after `n` turns of `while (!table.atEnd()) table.add(…)`; once it is at
its end the loop is left. -/
def Table.walk {ι : Type} (turn : Nat → Table ι → Result (Table ι)) (t : Table ι) :
    Nat → Result (Table ι)
  | 0 => .ok t
  | n + 1 => do
    let t ← Table.walk turn t n
    if t.atEnd then pure t else turn n t

/-- One turn against a V1 agent: request, response, `validateResponse`, `add`. The
requests have the identifiers `ids`. -/
def SnmpV1Table.turn (mib : Mib) (community : Community) (ids : Nat → RequestId) (n : Nat)
    (t : SnmpV1Table) : Result SnmpV1Table := do
  let oids ← SnmpV1Table.nextOids t
  let request : SnmpV1GetNextRequest := ⟨community, ids n, oids⟩
  let row ← request.validateResponse (mib.answerV1 request)
  SnmpV1Table.add t row

/-- One turn against a V2c agent. -/
def SnmpV2cTable.turn (mib : Mib) (community : Community) (ids : Nat → RequestId) (n : Nat)
    (t : SnmpV2cTable) : Result SnmpV2cTable := do
  let oids ← SnmpV2cTable.nextOids t
  let request : SnmpV2cGetNextRequest := ⟨community, ids n, oids⟩
  let row ← request.validateResponse (mib.answerV2c request)
  SnmpV2cTable.add t row

end Urnest.Snmp
