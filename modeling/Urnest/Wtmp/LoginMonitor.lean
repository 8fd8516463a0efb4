import Mathlib.Data.List.Basic
import Mathlib.Data.List.Range
import Mathlib.Data.List.Infix
import Mathlib.Tactic.Ring
import Mathlib.Tactic.SplitIfs

/-!
# The login monitor

`readEvents` looks for a new file, and sweeps over the files it tracks, reading each to its end. A
writer appends to the files and rolls them in the meantime; each step of either is an action. Files
are numbered in the order they are created.

The layout of `struct utmp` is the platform's, so it is a parameter.
-/

namespace Urnest.Wtmp

/-- What is used of a `struct utmp` -/
structure Utmp where
  ut_type : Int
  ut_user : List UInt8
  ut_host : List UInt8
  ut_tv : Int × Int

/-- The layout of a record -/
structure Layout where
  /-- `sizeof(record)` -/
  size : Nat
  size_pos : 0 < size
  decode : List UInt8 → Utmp

structure UserLoggedIn where
  user : List UInt8
  host : List UInt8
  /-- in microseconds of the epoch -/
  at_ : Int
  deriving DecidableEq

/-- The characters in front of the first NUL -/
def toString (cs : List UInt8) : List UInt8 := cs.takeWhile (· ≠ 0)

/-- `:` and `.` -/
def isDisplay (host : List UInt8) : Bool := host.head? == some 58 && host.contains 46

def processRecord (record : Utmp) : Option UserLoggedIn :=
  if record.ut_type = 7 then
    if isDisplay (toString record.ut_host) then none
    else some ⟨toString record.ut_user, toString record.ut_host,
      record.ut_tv.1 * 1000000 + record.ut_tv.2⟩
  else none

variable (L : Layout) (maxRollsTracked : Nat)

/-- `file.read(&record,sizeof(record))` from an offset -/
def readRecord (bytes : List UInt8) (offset : Nat) : List UInt8 := (bytes.drop offset).take L.size

/-- The logins of the first records of a file -/
def loginsUpTo (bytes : List UInt8) (n : Nat) : List UserLoggedIn :=
  (List.range n).filterMap fun k => processRecord (L.decode (readRecord L bytes (k * L.size)))

/-- The logins of all its complete records -/
def loginsOf (bytes : List UInt8) : List UserLoggedIn := loginsUpTo L bytes (bytes.length / L.size)

/-- A `FileReader`: the number of its file, and its offset -/
structure Reader where
  file : Nat
  offset : Nat

/-- Where `readEvents` is -/
inductive Phase where
  /-- it has not been called -/
  | idle
  /-- about to look for a new file -/
  | looking
  /-- reading a tracked file, with the newest that logins were read from, and how many from this -/
  | reading (i newest count : Nat)
  /-- it has swept, and found no login -/
  | waiting
  deriving DecidableEq

structure State where
  /-- the contents of all files ever created -/
  files : List (List UInt8)
  /-- whether the last of them has the name `wtmp` -/
  named : Bool
  /-- the newest file that the writer has appended to -/
  writing : Nat
  currentFiles_ : List Reader
  phase : Phase
  /-- `result`, with the files that logins come from -/
  result : List (Nat × UserLoggedIn)
  /-- what calls have returned -/
  returned : List (List (Nat × UserLoggedIn))
  /-- since the last call was made the writer has done nothing and nothing has been thrown -/
  quiet : Bool

inductive Action where
  /-- the writer appends to a file -/
  | append (file : Nat) (bytes : List UInt8)
  /-- it renames the file that has the name -/
  | rename
  /-- it creates a new one -/
  | create
  | call
  /-- `trackRoll`, without an exception -/
  | look
  | lookThrows
  /-- one turn of `readNewEntries` -/
  | read
  | readThrows
  /-- the end of a sweep -/
  | finish
  /-- `select` returns in time -/
  | again
  | deadline
  | selectThrows

namespace State

variable (s : State)

def content (file : Nat) : List UInt8 := s.files.getD file []

/-- The file that `trackRoll` opens, unless it is the one at the back of `currentFiles_` -/
def newFile : Option Nat :=
  if s.named && s.currentFiles_.getLast?.map Reader.file != some (s.files.length - 1) then
    some (s.files.length - 1)
  else none

/-- The call ends with an exception, and `result` is destroyed. -/
def throws : State := { s with phase := .idle, result := [], quiet := false }

def returns : State :=
  { s with phase := .idle, result := [], returned := s.returned ++ [s.result] }

end State

/-- `trackRoll` -/
def trackRoll (s : State) : State :=
  match s.newFile with
  | some file =>
    { s with
      currentFiles_ :=
        (if s.currentFiles_.length > maxRollsTracked + 1 then s.currentFiles_.tail
          else s.currentFiles_) ++ [⟨file, 0⟩] }
  | none => s

/-- A turn of `readNewEntries` for the tracked file `r`, the `i`th. It ends when there is no whole
record left; a part of one is read again. -/
def readTurn (s : State) (i newest count : Nat) (r : Reader) : State :=
  let record := readRecord L (s.content r.file) r.offset
  if record.length < L.size then
    { s with phase := .reading (i + 1) (if count ≠ 0 then i else newest) 0 }
  else
    let s := { s with currentFiles_ := s.currentFiles_.set i ⟨r.file, r.offset + L.size⟩ }
    match processRecord (L.decode record) with
    | some login =>
      { s with phase := .reading i newest (count + 1), result := s.result ++ [(r.file, login)] }
    | none => s

/-- What an action does, none where it is not possible. The writer appends to a file until it has
appended to a newer one, and renames a file when it has been in place during a look. -/
def step (a : Action) (s : State) : Option State :=
  match a, s.phase with
  | .append file bytes, _ =>
    if s.writing ≤ file ∧ file < s.files.length then
      some { s with
        files := s.files.set file (s.content file ++ bytes), writing := file, quiet := false }
    else none
  | .rename, _ =>
    if s.named ∧ s.newFile = none then some { s with named := false, quiet := false } else none
  | .create, _ =>
    if s.named then none else some { s with files := s.files ++ [[]], named := true, quiet := false }
  | .call, .idle => some { s with phase := .looking, quiet := true }
  | .look, .looking => some { trackRoll maxRollsTracked s with phase := .reading 0 0 0 }
  | .lookThrows, .looking => some s.throws
  | .read, .reading i newest count =>
    match s.currentFiles_[i]? with
    | some r => some (readTurn L s i newest count r)
    | none => none
  | .readThrows, .reading i _ _ => if i < s.currentFiles_.length then some s.throws else none
  | .finish, .reading i newest _ =>
    if i = s.currentFiles_.length then
      let s := { s with currentFiles_ := s.currentFiles_.drop newest }
      some (if s.result ≠ [] then s.returns else { s with phase := .waiting })
    else none
  | .again, .waiting => some { s with phase := .looking }
  | .deadline, .waiting => some s.returns
  | .selectThrows, .waiting => some s.throws
  | _, _ => none

/-- No file exists, and no call has been made. -/
def init : State := ⟨[], false, 0, [], .idle, [], [], false⟩

def run : List Action → State → Option State
  | [], s => some s
  | a :: rest, s => (step L maxRollsTracked a s).bind (run rest)

/-! ## What is expected -/

/-- The logins of one file among some -/
def ofFile (file : Nat) (xs : List (Nat × UserLoggedIn)) : List UserLoggedIn :=
  (xs.filter fun x => x.1 == file).map Prod.snd

/-- Of each file the logins have been returned, or are about to be, in order and none twice; and
when a call has not been disturbed, all of them have been returned. -/
structure ExactlyOnce (s : State) : Prop where
  inOrder : ∀ file, ofFile file (s.returned.flatten ++ s.result) <+: loginsOf L (s.content file)
  all : s.phase = .idle → s.quiet = true →
    ∀ file, ofFile file s.returned.flatten = loginsOf L (s.content file)

/-! ## Where the monitor can follow -/

/-- A reader has no login in front of it. -/
def Clean (s : State) (r : Reader) : Prop :=
  loginsOf L (s.content r.file) = loginsUpTo L (s.content r.file) (r.offset / L.size)

/-- A login is not completed in a file that the sweep has still to read when it has gone past a file
with one that it has not read; nothing is thrown by a read when logins have been read; and a file
that is one too many has been read, and the writer has moved on from it. -/
def Follows (s : State) : Action → Prop
  | .append file bytes => ∀ i newest count, s.phase = .reading i newest count →
      ∀ k r, i ≤ k → s.currentFiles_[k]? = some r → r.file = file →
        loginsOf L (s.content file ++ bytes)
            ≠ loginsUpTo L (s.content file ++ bytes) (r.offset / L.size) →
          ∀ j r', j < i → s.currentFiles_[j]? = some r' → Clean L s r'
  | .readThrows => s.result = []
  | .look => s.newFile ≠ none → s.currentFiles_.length > maxRollsTracked + 1 →
      ∀ r, s.currentFiles_.head? = some r → Clean L s r ∧ r.file < s.writing
  | _ => True

/-- All actions of a run are such. -/
def FollowsAll : List Action → State → Prop
  | [], _ => True
  | a :: rest, s => Follows L maxRollsTracked s a ∧
      ∀ s', step L maxRollsTracked a s = some s' → FollowsAll rest s'

end Urnest.Wtmp
