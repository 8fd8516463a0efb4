import Urnest.Cmc.PerfLog
import Urnest.Lib.Binary64
import Urnest.Lib.Lines
import Urnest.Lib.Throwing

/-!
# Records

A record is a line of `json`: an array of the time since the start of the bucket and the
values of the columns, of which there is one for each column of the schema. What has been
encoded is decoded to what it was (`decode_encode`), and `read_lines` has the lines of a bucket
as they were added, wherever its reads come to an end (`readLines_flatten`).

`json` is not read here but taken as it is documented: `loads` undoes `dumps`, whose text is a
single line.
-/

namespace Urnest.Cmc

open Lib

/-- A value of a record. The finite numbers are all there are; what is in arrays and objects is
left to `json`. -/
inductive Value (Nested : Type) where
  | null
  | bool (b : Bool)
  | int (i : Int)
  | float (x : Binary64)
  | str (s : String)
  | nested (x : Nested)
  deriving DecidableEq

/-- The types of columns; the values of an optional one may be `None`. -/
inductive ColType where
  | str
  | int
  | float
  | bool
  | optionalStr
  | optionalInt
  | optionalFloat
  | optionalBool
  | json
  deriving DecidableEq

abbrev Schema := Dict String ColType

/-- What recording and fetching raise. -/
inductive Failure where
  | store (e : Error)
  /-- a year that `datetime` does not have -/
  | year
  /-- a value that is not of a type -/
  | isNot (type : String)
  /-- a schema of so many columns, and a record of so many values -/
  | count (columns values : Nat)
  /-- `IndexError` -/
  | index
  /-- an assertion about a time or a line -/
  | assertFailed
  /-- an array or its first item that is not of a type -/
  | json (type : String)
  /-- a text that is not `json`'s -/
  | loads
  /-- what a caller's function raises -/
  | caller
  deriving DecidableEq

/-- What `json.loads` gives. -/
inductive Loaded (Nested : Type) where
  | array (xs : List (Value Nested))
  | other

/-- The two functions of `json`, between arrays and bytes of `utf-8`. -/
structure Host (Nested : Type) where
  dumps : List (Value Nested) → List UInt8
  /-- nothing, where it raises -/
  loads : List UInt8 → Option (Loaded Nested)
  loads_dumps : ∀ xs, loads (dumps xs) = some (.array xs)
  newline_not_mem : ∀ xs, PerfLog.newline ∉ dumps xs

variable {Nested : Type}

/-! ## Columns -/

namespace Value

def isNone : Value Nested → Bool
  | null => true
  | _ => false

def isStr : Value Nested → Bool
  | str _ => true
  | _ => false

/-- `bool` is a kind of `int`. -/
def isInt : Value Nested → Bool
  | int _ => true
  | bool _ => true
  | _ => false

def isFloat : Value Nested → Bool
  | float _ => true
  | _ => false

def isBool : Value Nested → Bool
  | bool _ => true
  | _ => false

end Value

/-- A value is given back if it is of a type. -/
def validateIs (isType : Value Nested → Bool) (type : String) (value : Value Nested) :
    Except Failure (Value Nested) :=
  if isType value then .ok value else .error (.isNot type)

def validateStr : Value Nested → Except Failure (Value Nested) := validateIs Value.isStr "str"

def validateInt : Value Nested → Except Failure (Value Nested) := validateIs Value.isInt "int"

def validateFloat : Value Nested → Except Failure (Value Nested) :=
  validateIs (fun value => value.isFloat || value.isInt) "float"

def validateBool : Value Nested → Except Failure (Value Nested) := validateIs Value.isBool "bool"

/-- `None`, or what is valid otherwise. -/
def validateOptional (validate : Value Nested → Except Failure (Value Nested))
    (value : Value Nested) : Except Failure (Value Nested) :=
  if value.isNone then .ok value else validate value

/-- `validate_col` -/
def validateCol (value : Value Nested) : ColType → Except Failure (Value Nested)
  | .str => validateStr value
  | .int => validateInt value
  | .float => validateFloat value
  | .bool => validateBool value
  | .optionalStr => validateOptional validateStr value
  | .optionalInt => validateOptional validateInt value
  | .optionalFloat => validateOptional validateFloat value
  | .optionalBool => validateOptional validateBool value
  | .json => .ok value

/-- The loop of `validate_record` -/
def validateCols : List (Value Nested) → List (String × ColType) → Except Failure Unit
  | value :: values, (_, colType) :: cols => do
    let _ ← validateCol value colType
    validateCols values cols
  | _, _ => .ok ()

/-- `validate_record` -/
def validateRecord (record : List (Value Nested)) (schema : Schema) :
    Except Failure (List (Value Nested)) :=
  if record.length ≠ schema.length then .error (.count schema.length record.length)
  else do
    validateCols record schema.items
    return record

/-! ## Encoding -/

section Encoding

variable (host : Host Nested)

/-- `encode_timestamped_record` -/
def encodeTimestampedRecord (timeDelta : Binary64) (record : List (Value Nested))
    (schema : Schema) : Except Failure (List UInt8) :=
  if 0 ≤ timeDelta.val then do
    let record ← validateRecord record schema
    return host.dumps (.float timeDelta :: record) ++ [PerfLog.newline]
  else .error .assertFailed

/-- The loop of `decode_timestamped_record` -/
def decodeCols : List ColType → List (Value Nested) → Except Failure (List (Value Nested))
  | [], _ => .ok []
  | _ :: _, [] => .error .index
  | colType :: colTypes, value :: values => do
    let value ← validateCol value colType
    let record ← decodeCols colTypes values
    return value :: record

/-- `decode_timestamped_record`: the time, the record and the bytes it has. -/
def decodeTimestampedRecord (data : List UInt8) (schema : Schema) :
    Except Failure (Binary64 × List (Value Nested) × Nat) :=
  if data.getLast? ≠ some PerfLog.newline then .error .assertFailed
  else match host.loads data.dropLast with
  | none => .error .loads
  | some .other => .error (.json "list")
  | some (.array []) => .error .index
  | some (.array (.float timeDelta :: values)) =>
    if 0 ≤ timeDelta.val then do
      let record ← decodeCols schema.values values
      return (timeDelta, record, data.length)
    else .error .assertFailed
  | some (.array _) => .error (.json "float")

end Encoding

theorem validateIs_eq {isType : Value Nested → Bool} {type : String} {value value' : Value Nested}
    (h : validateIs isType type value = .ok value') : value' = value := by
  rw [validateIs] at h
  split_ifs at h
  cases h
  rfl

theorem validateOptional_eq {validate : Value Nested → Except Failure (Value Nested)}
    (hvalidate : ∀ {value value'}, validate value = .ok value' → value' = value)
    {value value' : Value Nested} (h : validateOptional validate value = .ok value') :
    value' = value := by
  rw [validateOptional] at h
  split_ifs at h
  · cases h
    rfl
  · exact hvalidate h

/-- A valid value is given back as it is. -/
theorem validateCol_eq {value value' : Value Nested} {colType : ColType}
    (h : validateCol value colType = .ok value') : value' = value := by
  cases colType with
  | str | int | float | bool =>
    simp only [validateCol, validateStr, validateInt, validateFloat, validateBool] at h
    exact validateIs_eq h
  | optionalStr | optionalInt | optionalFloat | optionalBool =>
    simp only [validateCol, validateStr, validateInt, validateFloat, validateBool] at h
    exact validateOptional_eq validateIs_eq h
  | json =>
    cases h
    rfl

theorem decodeCols_eq {record : List (Value Nested)} {cols : List (String × ColType)}
    (hlength : record.length = cols.length) (h : validateCols record cols = .ok ()) :
    decodeCols (cols.map Prod.snd) record = .ok record := by
  induction cols generalizing record with
  | nil =>
    rw [List.eq_nil_of_length_eq_zero hlength]
    rfl
  | cons col cols ih =>
    cases record with
    | nil => cases hlength
    | cons value record =>
      obtain ⟨value', hvalue, hrest⟩ := bind_eq_ok.mp h
      obtain rfl := validateCol_eq hvalue
      rw [List.map_cons, decodeCols, hvalue, ih (Nat.succ.inj hlength) hrest]
      rfl

variable {host : Host Nested} {timeDelta : Binary64} {record : List (Value Nested)}
  {schema : Schema} {line : List UInt8}

theorem encode_eq_ok : encodeTimestampedRecord host timeDelta record schema = .ok line ↔
    0 ≤ timeDelta.val ∧ (record.length = schema.length ∧
      validateCols record schema.items = .ok ()) ∧
        line = host.dumps (.float timeDelta :: record) ++ [PerfLog.newline] := by
  rw [encodeTimestampedRecord, validateRecord]
  by_cases hdelta : 0 ≤ timeDelta.val
  · by_cases hlength : record.length = schema.length
    · rw [if_pos hdelta, if_neg (not_not.mpr hlength)]
      cases validateCols record schema.items with
      | error e => simp [hdelta, bind, Except.bind]
      | ok u =>
        simp only [hdelta, hlength, true_and]
        exact ⟨fun h => by cases h; exact rfl, fun h => by rw [h]; rfl⟩
    · rw [if_pos hdelta, if_pos hlength]
      exact iff_of_false (fun h => nomatch h) fun h => hlength h.2.1.1
  · rw [if_neg hdelta]
    exact iff_of_false (fun h => nomatch h) fun h => hdelta h.1

/-- What has been encoded is decoded. -/
theorem decode_encode (h : encodeTimestampedRecord host timeDelta record schema = .ok line) :
    decodeTimestampedRecord host line schema = .ok (timeDelta, record, line.length) := by
  obtain ⟨hdelta, ⟨hlength, hcols⟩, rfl⟩ := encode_eq_ok.mp h
  rw [decodeTimestampedRecord, if_neg (not_not.mpr List.getLast?_concat), List.dropLast_concat,
    host.loads_dumps]
  dsimp only
  rw [if_pos hdelta, Dict.values, decodeCols_eq hlength hcols]
  rfl

/-! ## Lines -/

/-- The loop of `read_lines`, over what its reads give. -/
def readLinesFrom (buffered : List UInt8) : List (List UInt8) → List (List UInt8)
  | [] => if buffered.isEmpty then [] else [buffered]
  | next :: rest =>
    let (recs, buffered) := takeLines PerfLog.newline buffered (next.splitOn PerfLog.newline)
    recs ++ readLinesFrom buffered rest

/-- `read_lines`, of a file that has so many bytes -/
def readLines (content : List UInt8) : List (List UInt8) :=
  readLinesFrom [] (parts 1024 content.length content)

theorem readLinesFrom_eq (buffered : List UInt8) (reads : List (List UInt8)) :
    readLinesFrom buffered reads = linesFrom PerfLog.newline buffered reads.flatten := by
  induction reads generalizing buffered with
  | nil => rfl
  | cons next rest ih =>
    rw [readLinesFrom, List.flatten_cons, linesFrom_append]
    dsimp only
    rw [ih]

/-- Where a read comes to its end does not matter. -/
theorem readLines_eq (content : List UInt8) :
    readLines content = lines PerfLog.newline content := by
  rw [readLines, readLinesFrom_eq, flatten_parts (by norm_num) le_rfl, lines]

theorem readLines_flatten {ls : List (List UInt8)}
    (h : ∀ l ∈ ls, ∃ timeDelta record,
      encodeTimestampedRecord host timeDelta record schema = .ok l) :
    readLines ls.flatten = ls := by
  rw [readLines_eq]
  refine lines_flatten fun l hl => ?_
  obtain ⟨timeDelta, record, hencode⟩ := h l hl
  obtain ⟨-, -, rfl⟩ := encode_eq_ok.mp hencode
  exact ⟨_, host.newline_not_mem _, rfl⟩

end Urnest.Cmc
