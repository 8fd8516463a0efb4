import Mathlib.Data.List.Basic
import Mathlib.Data.List.TakeWhile
import Mathlib.Logic.Function.Basic
import Urnest.Xju.Exception

/-!
# Paths

Absolute and relative paths, and the functions that split a string into a directory and a file.
What the paths are about is `resolve`: each name is looked up in the directory that the names
before it lead to, and `..` is the way back. `normalise` is `resolve` with a message, so what it
makes of a concatenation it also makes of the concatenation with the left part normalised; that
is why `splitdir`, which normalises three times, agrees with the constructors of the paths.
-/

namespace Urnest.Xju.Path

abbrev DirName := List Char
abbrev FileName := List Char

def dot : DirName := ['.']
def dotDot : DirName := ['.', '.']

/-! ## Resolving names

In their own terms: a directory is the list of the names that lead to it.
-/

def enter (directory : List DirName) (name : DirName) : Option (List DirName) :=
  if name = dot ∨ name = [] then some directory
  else if name = dotDot then
    if directory = [] then none else some directory.dropLast
  else some (directory ++ [name])

def resolve (directory names : List DirName) : Option (List DirName) := names.foldlM enter directory

/-- Not one of the names that `enter` makes something else of -/
def Plain (name : DirName) : Prop := name ≠ dot ∧ name ≠ [] ∧ name ≠ dotDot

instance (name : DirName) : Decidable (Plain name) := inferInstanceAs (Decidable (_ ∧ _))

@[simp]
theorem resolve_nil (directory : List DirName) : resolve directory [] = some directory := rfl

theorem resolve_cons (directory : List DirName) (name : DirName) (names : List DirName) :
    resolve directory (name :: names) = (enter directory name).bind (resolve · names) := rfl

theorem resolve_append (directory left right : List DirName) :
    resolve directory (left ++ right) = (resolve directory left).bind (resolve · right) :=
  List.foldlM_append

theorem enter_of_plain (directory : List DirName) {name : DirName} (h : Plain name) :
    enter directory name = some (directory ++ [name]) := by
  obtain ⟨hdot, hnil, hdotDot⟩ := h
  simp [enter, hdot, hnil, hdotDot]

theorem resolve_of_plain (directory : List DirName) {names : List DirName}
    (h : ∀ name ∈ names, Plain name) : resolve directory names = some (directory ++ names) := by
  induction names generalizing directory with
  | nil => simp
  | cons name names ih =>
    obtain ⟨hname, hnames⟩ := List.forall_mem_cons.mp h
    rw [resolve_cons, enter_of_plain directory hname, Option.bind_some, ih _ hnames]
    simp

/-- A property that `enter` has for the name that it adds -/
theorem forall_mem_enter {p : DirName → Prop} {directory directory' : List DirName}
    {name : DirName} (hd : ∀ c ∈ directory, p c) (hname : Plain name → p name)
    (h : enter directory name = some directory') : ∀ c ∈ directory', p c := by
  unfold enter at h
  split at h
  · cases h
    exact hd
  · split at h
    · split at h
      · cases h
      · cases h
        intro c hc
        exact hd c (List.dropLast_subset directory hc)
    · cases h
      have hp : Plain name := by simp_all [Plain]
      intro c hc
      rcases List.mem_append.mp hc with hc | hc
      · exact hd c hc
      · rw [List.mem_singleton.mp hc]
        exact hname hp

theorem forall_mem_resolve {p : DirName → Prop} {directory directory' names : List DirName}
    (hd : ∀ c ∈ directory, p c) (hnames : ∀ c ∈ names, Plain c → p c)
    (h : resolve directory names = some directory') : ∀ c ∈ directory', p c := by
  induction names generalizing directory with
  | nil =>
    cases h
    exact hd
  | cons name names ih =>
    obtain ⟨hname, hnames⟩ := List.forall_mem_cons.mp hnames
    rw [resolve_cons] at h
    obtain ⟨entered, he, h⟩ := Option.bind_eq_some_iff.mp h
    exact ih (forall_mem_enter hd hname he) hnames h

theorem plain_of_resolve {names directory : List DirName} (h : resolve [] names = some directory) :
    ∀ c ∈ directory, Plain c :=
  forall_mem_resolve (by simp) (fun _ _ hc => hc) h

/-- Resolving again what has been resolved changes nothing. -/
theorem resolve_resolve_append (left right : List DirName) :
    (resolve [] left).bind (fun resolved => resolve [] (resolved ++ right)) =
      resolve [] (left ++ right) := by
  rw [resolve_append]
  cases h : resolve [] left with
  | none => rfl
  | some resolved =>
    simp only [Option.bind_some, resolve_append, resolve_of_plain [] (plain_of_resolve h),
      List.nil_append]

/-! ## The names in a string -/

theorem length_skip_lt (c : Char) (cs : List Char) :
    (((c :: cs).dropWhile (· ≠ '/')).dropWhile (· = '/')).length < (c :: cs).length := by
  have hne := (List.dropWhile_sublist (· ≠ '/') (l := cs)).length_le
  have heq := (List.dropWhile_sublist (· = '/') (l := cs)).length_le
  by_cases hc : c = '/'
  · simp [hc] at heq ⊢
    omega
  · have := (List.dropWhile_sublist (· = '/') (l := cs.dropWhile (· ≠ '/'))).length_le
    simp [hc] at hne this ⊢
    omega

/-- `split_string` -/
def splitString : List Char → List DirName
  | [] => []
  | c :: cs =>
    (c :: cs).takeWhile (· ≠ '/') ::
      splitString (((c :: cs).dropWhile (· ≠ '/')).dropWhile (· = '/'))
  termination_by x => x.length
  decreasing_by exact length_skip_lt c cs

/-- `xju::format::join` with `/` -/
def join : List DirName → List Char
  | [] => []
  | [x] => x
  | x :: y :: rest => x ++ '/' :: join (y :: rest)

theorem slash_notMem_splitString (x : List Char) : ∀ name ∈ splitString x, '/' ∉ name := by
  fun_induction splitString x with
  | case1 => simp
  | case2 c cs ih =>
    intro name hname
    rcases List.mem_cons.mp hname with rfl | hname
    · intro h
      simpa using List.mem_takeWhile_imp h
    · exact ih name hname

theorem span_name {name : DirName} (h : '/' ∉ name) (rest : List Char) :
    (name ++ '/' :: rest).takeWhile (· ≠ '/') = name ∧
      (name ++ '/' :: rest).dropWhile (· ≠ '/') = '/' :: rest := by
  induction name with
  | nil => simp
  | cons c cs ih =>
    obtain ⟨hc, hcs⟩ := not_or.mp (mt List.mem_cons.mpr h)
    have hc : c ≠ '/' := Ne.symm hc
    obtain ⟨htake, hdrop⟩ := ih hcs
    simp only [List.cons_append]
    rw [List.takeWhile_cons_of_pos (by simp [hc]), List.dropWhile_cons_of_pos (by simp [hc]), htake,
      hdrop]
    exact ⟨rfl, rfl⟩

theorem splitString_append_slash {name : DirName} (h : '/' ∉ name) (rest : List Char) :
    splitString (name ++ '/' :: rest) = name :: splitString (rest.dropWhile (· = '/')) := by
  obtain ⟨htake, hdrop⟩ := span_name h rest
  obtain ⟨c, cs, hx⟩ : ∃ c cs, name ++ '/' :: rest = c :: cs := by cases name <;> simp
  rw [hx] at htake hdrop ⊢
  rw [splitString, htake, hdrop, List.dropWhile_cons_of_pos (by simp)]

theorem splitString_name {name : DirName} (h : '/' ∉ name) (hne : name ≠ []) :
    splitString name = [name] := by
  obtain ⟨c, cs, rfl⟩ := List.exists_cons_of_ne_nil hne
  have hall : ∀ x ∈ c :: cs, decide (x ≠ '/') = true := by
    intro x hx
    have hne : x ≠ '/' := ne_of_mem_of_not_mem hx h
    simp [hne]
  rw [splitString, List.takeWhile_eq_self_iff.mpr hall, List.dropWhile_eq_nil_iff.mpr hall]
  simp [splitString]

theorem splitString_join {names : List DirName} (h : ∀ name ∈ names, '/' ∉ name ∧ name ≠ []) :
    splitString (join names) = names := by
  fun_induction join names with
  | case1 => simp [splitString]
  | case2 x => exact splitString_name (h x (by simp)).1 (h x (by simp)).2
  | case3 x y rest ih =>
    obtain ⟨hx, hrest⟩ := List.forall_mem_cons.mp h
    -- the next name is not empty, so there is one slash only
    have hone : (join (y :: rest)).dropWhile (· = '/') = join (y :: rest) := by
      obtain ⟨hy, hne⟩ := hrest y (by simp)
      obtain ⟨c, cs, rfl⟩ := List.exists_cons_of_ne_nil hne
      have hc : c ≠ '/' := ne_of_mem_of_not_mem (by simp) hy
      cases rest <;> simp [join, hc]
    rw [splitString_append_slash hx.1, hone, ih hrest]

/-- `basename` -/
def basename (x : List Char) : FileName := (splitString x).getLast?.getD []

theorem basename_slash (x : List Char) : basename ('/' :: x) = basename x := by
  have hslash (rest : List Char) :
      splitString ('/' :: rest) = [] :: splitString (rest.dropWhile (· = '/')) :=
    splitString_append_slash (List.not_mem_nil) rest
  unfold basename
  rw [hslash]
  cases x with
  | nil => simp [splitString]
  | cons c cs =>
    by_cases hc : c = '/'
    · subst hc
      rw [hslash, List.dropWhile_cons_of_pos (by simp)]
    · rw [List.dropWhile_cons_of_neg (by simp [hc]), splitString, List.getLast?_cons_cons]

/-! ## The paths -/

/-- `catch(xju::Exception& e) { e.addContext(s); throw; }` -/
def addContext {α : Type} (s : String) : Except Exception α → Except Exception α
  | .ok a => .ok a
  | .error e => .error (e.addContext s)

@[simp]
theorem toOption_addContext {α : Type} (s : String) (x : Except Exception α) :
    (addContext s x).toOption = x.toOption := by
  cases x <;> rfl

@[simp]
theorem toOption_bind {α β : Type} (x : Except Exception α) (f : α → Except Exception β) :
    (x >>= f).toOption = x.toOption.bind fun a => (f a).toOption := by
  cases x <;> rfl

/-- The loop of `normalise`, `i` names after the first -/
def normaliseFrom (i : Nat) (result : List DirName) :
    List DirName → Except Exception (List DirName)
  | [] => .ok result
  | x :: xs =>
    if x = dot ∨ x = [] then normaliseFrom (i + 1) result xs
    else if x = dotDot then
      if result = [] then .error ⟨"too many '..'s at component " ++ toString (i + 1), []⟩
      else normaliseFrom (i + 1) result.dropLast xs
    else normaliseFrom (i + 1) (result ++ [x]) xs

def normalise (x : List DirName) : Except Exception (List DirName) :=
  addContext ("normalise path " ++ String.ofList (join x)) (normaliseFrom 0 [] x)

theorem toOption_normaliseFrom (i : Nat) (result x : List DirName) :
    (normaliseFrom i result x).toOption = resolve result x := by
  induction x generalizing i result with
  | nil => rfl
  | cons x xs ih =>
    rw [normaliseFrom, resolve_cons, enter]
    split
    · exact ih (i + 1) result
    · split
      · split
        · rfl
        · exact ih (i + 1) result.dropLast
      · exact ih (i + 1) (result ++ [x])

@[simp]
theorem toOption_normalise (x : List DirName) : (normalise x).toOption = resolve [] x := by
  rw [normalise, toOption_addContext, toOption_normaliseFrom]

theorem resolve_of_normalise {x r : List DirName} (h : normalise x = .ok r) :
    resolve [] x = some r := by
  rw [← toOption_normalise, h]
  rfl

@[ext]
structure AbsolutePath where
  x_ : List DirName
  plain : ∀ name ∈ x_, Plain name
  deriving DecidableEq

structure RelativePath where
  x_ : List DirName
  deriving DecidableEq

def AbsolutePath.ofNormalise (x : List DirName) : Except Exception AbsolutePath :=
  match h : normalise x with
  | .ok x_ => .ok ⟨x_, plain_of_resolve (resolve_of_normalise h)⟩
  | .error e => .error e

/-- `AbsolutePath(std::vector<DirName> const&)` -/
def AbsolutePath.ofNames (x : List DirName) : Except Exception AbsolutePath :=
  addContext ("normalise absolute path /" ++ String.ofList (join x)) (ofNormalise x)

/-- `AbsolutePath(std::string const&)` -/
def AbsolutePath.ofString (x : List Char) : Except Exception AbsolutePath :=
  addContext ("validate absolute path " ++ quote (String.ofList x)) <|
    match x with
    | '/' :: rest => ofNormalise (splitString rest)
    | _ => .error ⟨quote (String.ofList x) ++ " does not start with '/'", []⟩

/-- `RelativePath(std::string)` -/
def RelativePath.ofString (x : List Char) : Except Exception RelativePath :=
  addContext ("validate relative path " ++ quote (String.ofList x)) <|
    match x with
    | '/' :: _ => .error ⟨quote (String.ofList x) ++ " starts with '/'", []⟩
    | _ => .ok ⟨splitString x⟩

/-- `operator+` -/
def AbsolutePath.add (x : AbsolutePath) (y : RelativePath) : Except Exception AbsolutePath :=
  ofNames (x.x_ ++ y.x_)

def AbsolutePath.root : AbsolutePath := ⟨[], by simp⟩

def AbsolutePath.str (x : AbsolutePath) : List Char := '/' :: join x.x_

/-- Of the root it is undefined. -/
def AbsolutePath.basename (x : AbsolutePath) : Option DirName := x.x_.getLast?

/-- Of the root it is not allowed. -/
def AbsolutePath.dirname (x : AbsolutePath) : Option AbsolutePath :=
  if x.x_ = [] then none else (ofNames x.x_.dropLast).toOption

/-- `relative_dirname` -/
def relativeDirname (x : List Char) : Except Exception RelativePath :=
  addContext
    ("get directory part of " ++ String.ofList x ++ " assuming it is a relative path") <|
    match x with
    | '/' :: _ => .error ⟨String.ofList x ++ " starts with '/'", []⟩
    | _ => if splitString x = [] then RelativePath.ofString [] else .ok ⟨(splitString x).dropLast⟩

/-- `absolute_dirname` -/
def absoluteDirname (x : List Char) : Except Exception AbsolutePath :=
  addContext
    ("get directory part of " ++ String.ofList x ++ " assuming it is an absolute path") <|
    match x with
    | '/' :: rest =>
      if splitString rest = [] then AbsolutePath.ofString ['/']
      else AbsolutePath.ofNames (splitString rest).dropLast
    | _ => .error ⟨String.ofList x ++ " does not start with '/'", []⟩

def split (x : List Char) (workingDir : AbsolutePath) :
    Except Exception (AbsolutePath × FileName) :=
  addContext ("split " ++ String.ofList x ++ " into absolute path and filename, from working " ++
      "directory " ++ String.ofList workingDir.str) <|
    match x with
    | '/' :: _ => do return (← absoluteDirname x, basename x)
    | _ => do return (← workingDir.add (← relativeDirname x), basename x)

def splitdir (x : List Char) (workingDir : AbsolutePath) : Except Exception AbsolutePath :=
  addContext ("split " ++ String.ofList x ++ " into absolute path and dirname, from working " ++
      "directory " ++ String.ofList workingDir.str) <|
    match x with
    | '/' :: _ => do (← absoluteDirname x).add ⟨[basename x]⟩
    | _ => do (← workingDir.add (← relativeDirname x)).add ⟨[basename x]⟩

/-! ## What the functions resolve -/

def names (p : Except Exception AbsolutePath) : Option (List DirName) := p.toOption.map (·.x_)

theorem toOption_eq_of_names {p q : Except Exception AbsolutePath} (h : names p = names q) :
    p.toOption = q.toOption :=
  Option.map_injective (fun _ _ => AbsolutePath.ext) h

theorem toOption_eq_some_of_names {p : Except Exception AbsolutePath} {q : AbsolutePath}
    (h : names p = some q.x_) : p.toOption = some q :=
  toOption_eq_of_names (q := .ok q) h

@[simp]
theorem names_addContext (s : String) (p : Except Exception AbsolutePath) :
    names (addContext s p) = names p := by
  rw [names, toOption_addContext, names]

@[simp]
theorem names_bind {α : Type} (x : Except Exception α) (f : α → Except Exception AbsolutePath) :
    names (x >>= f) = x.toOption.bind fun a => names (f a) := by
  cases x <;> rfl

@[simp]
theorem names_ofNormalise (x : List DirName) :
    names (AbsolutePath.ofNormalise x) = resolve [] x := by
  rw [← toOption_normalise, AbsolutePath.ofNormalise]
  split <;> simp_all [names, Except.toOption]

@[simp]
theorem names_ofNames (x : List DirName) : names (AbsolutePath.ofNames x) = resolve [] x := by
  rw [AbsolutePath.ofNames, names_addContext, names_ofNormalise]

@[simp]
theorem names_add (x : AbsolutePath) (y : RelativePath) :
    names (x.add y) = resolve [] (x.x_ ++ y.x_) :=
  names_ofNames _

@[simp]
theorem names_ofString (x : List Char) :
    names (AbsolutePath.ofString ('/' :: x)) = resolve [] (splitString x) := by
  rw [AbsolutePath.ofString, names_addContext, names_ofNormalise]

@[simp]
theorem names_absoluteDirname (x : List Char) :
    names (absoluteDirname ('/' :: x)) = resolve [] (splitString x).dropLast := by
  rw [absoluteDirname, names_addContext]
  split
  case isTrue h => rw [names_ofString, h, splitString, List.dropLast_nil]
  case isFalse => rw [names_ofNames]

theorem toOption_relativeOfString {x : List Char} (h : ∀ rest, x = '/' :: rest → False) :
    (RelativePath.ofString x).toOption = some ⟨splitString x⟩ := by
  unfold RelativePath.ofString
  rw [toOption_addContext]
  split
  · exact (h _ rfl).elim
  · rfl

theorem toOption_relativeDirname {x : List Char} (h : ∀ rest, x = '/' :: rest → False) :
    (relativeDirname x).toOption = some ⟨(splitString x).dropLast⟩ := by
  unfold relativeDirname
  rw [toOption_addContext]
  split
  · exact (h _ rfl).elim
  · split
    case isTrue hnil =>
      rw [hnil, toOption_relativeOfString (by simp), splitString, List.dropLast_nil]
    case isFalse => rfl

/-- The path that is made of `x` without the functions for splitting -/
def construct (x : List Char) (workingDir : AbsolutePath) : Except Exception AbsolutePath :=
  match x with
  | '/' :: _ => AbsolutePath.ofString x
  | _ => do workingDir.add (← RelativePath.ofString x)

/-- The names that a constructor finds in `x` -/
def namesIn : List Char → List DirName
  | '/' :: rest => splitString rest
  | x => splitString x

/-- Where they are looked up -/
def base (x : List Char) (workingDir : AbsolutePath) : AbsolutePath :=
  match x with
  | '/' :: _ => .root
  | _ => workingDir

/-- The directory that the names in front of the last one lead to -/
def directory (x : List Char) (workingDir : AbsolutePath) : Except Exception AbsolutePath :=
  (base x workingDir).add ⟨(namesIn x).dropLast⟩

/-- The last of the names, as it is written -/
def lastName (x : List Char) : FileName := (namesIn x).getLast?.getD []

theorem basename_eq_lastName (x : List Char) : basename x = lastName x := by
  unfold lastName namesIn
  split
  · exact basename_slash _
  · rfl

theorem names_construct (x : List Char) (wd : AbsolutePath) :
    names (construct x wd) = resolve [] ((base x wd).x_ ++ namesIn x) := by
  unfold construct base namesIn
  split
  case h_1 rest => exact names_ofString rest
  case h_2 x h =>
    rw [names_bind, toOption_relativeOfString h]
    exact names_add wd _

/-- Where `split` and `splitdir` look for the last name -/
def dirnameOf (x : List Char) (workingDir : AbsolutePath) : Except Exception AbsolutePath :=
  match x with
  | '/' :: _ => absoluteDirname x
  | _ => do workingDir.add (← relativeDirname x)

theorem toOption_dirnameOf (x : List Char) (wd : AbsolutePath) :
    (dirnameOf x wd).toOption = (directory x wd).toOption := by
  unfold dirnameOf directory base namesIn
  split
  case h_1 rest =>
    apply toOption_eq_of_names
    rw [names_add, names_absoluteDirname]
    rfl
  case h_2 x h => rw [toOption_bind, toOption_relativeDirname h, Option.bind_some]

theorem toOption_split_bind (x : List Char) (wd : AbsolutePath) :
    (split x wd).toOption = (dirnameOf x wd >>= fun d => pure (d, basename x)).toOption := by
  unfold split dirnameOf
  rw [toOption_addContext]
  split
  · rfl
  · rw [bind_assoc]

theorem names_splitdir_bind (x : List Char) (wd : AbsolutePath) :
    names (splitdir x wd) = names (dirnameOf x wd >>= fun d => d.add ⟨[basename x]⟩) := by
  unfold splitdir dirnameOf
  rw [names_addContext]
  split
  · rfl
  · rw [bind_assoc]

theorem toOption_split (x : List Char) (wd : AbsolutePath) :
    (split x wd).toOption = (directory x wd).toOption.map (·, lastName x) := by
  rw [toOption_split_bind, toOption_bind, toOption_dirnameOf, basename_eq_lastName]
  cases (directory x wd).toOption <;> rfl

theorem names_splitdir (x : List Char) (wd : AbsolutePath) :
    names (splitdir x wd) = (names (directory x wd)).bind fun d => resolve [] (d ++ [lastName x]) := by
  rw [names_splitdir_bind, names_bind, toOption_dirnameOf, basename_eq_lastName]
  simp only [names_add]
  cases h : (directory x wd).toOption <;> simp [names, h]

/-- What is in front of the last name and that name are all there is. -/
theorem resolve_dropLast_append (start : List DirName) (x : List Char) :
    resolve [] (start ++ (namesIn x).dropLast ++ [lastName x]) =
      resolve [] (start ++ namesIn x) := by
  unfold lastName
  rcases List.eq_nil_or_concat (namesIn x) with h | ⟨front, last, h⟩
  · have hstay (directory : List DirName) : resolve directory [[]] = some directory := by
      simp [resolve_cons, enter]
    simp [h, resolve_append, hstay]
  · simp [h]

theorem splitdir_eq_construct (x : List Char) (wd : AbsolutePath) :
    (splitdir x wd).toOption = (construct x wd).toOption := by
  apply toOption_eq_of_names
  rw [names_splitdir, names_construct, directory, names_add, resolve_resolve_append,
    resolve_dropLast_append]

/-! ## What `split` has to do with the path -/

/-- The directory of a path and its last name. The root has none. -/
def AbsolutePath.parts (p : AbsolutePath) : Option (AbsolutePath × FileName) := do
  return (← p.dirname, ← p.basename)

/-- `split` has the parts of the path, and none if there is no path. -/
def SplitAgrees (x : List Char) (wd : AbsolutePath) : Prop :=
  match (construct x wd).toOption with
  | some p => ∃ parts, p.parts = some parts ∧ (split x wd).toOption = some parts
  | none => (split x wd).toOption = none

theorem plain_of_parts {p d : AbsolutePath} {f : FileName} (h : p.parts = some (d, f)) :
    Plain f := by
  simp only [AbsolutePath.parts, Option.bind_eq_bind, Option.bind_eq_some_iff, Option.pure_def,
    Option.some_inj, Prod.mk.injEq] at h
  obtain ⟨_, -, _, hf, -, rfl⟩ := h
  exact p.plain _ (List.mem_of_getLast? hf)

theorem parts_append {p d : AbsolutePath} {f : FileName} (h : p.x_ = d.x_ ++ [f]) :
    p.parts = some (d, f) := by
  have hd : (AbsolutePath.ofNames d.x_).toOption = some d := by
    apply toOption_eq_some_of_names
    rw [names_ofNames, resolve_of_plain [] d.plain, List.nil_append]
  simp [AbsolutePath.parts, AbsolutePath.dirname, AbsolutePath.basename, h, hd]

theorem names_construct_directory (x : List Char) (wd : AbsolutePath) :
    names (construct x wd) = (names (directory x wd)).bind (enter · (lastName x)) := by
  rw [names_construct, ← resolve_dropLast_append, resolve_append, directory, names_add]
  simp [resolve_cons]

theorem splitAgrees_iff (x : List Char) (wd : AbsolutePath) :
    SplitAgrees x wd ↔ Plain (lastName x) ∨ (directory x wd).toOption = none := by
  have hnames := names_construct_directory x wd
  unfold SplitAgrees
  rw [toOption_split]
  unfold names at hnames
  cases hd : (directory x wd).toOption with
  | none =>
    rw [hd] at hnames
    have hnone : (construct x wd).toOption = none := by simpa using hnames
    simp [hnone]
  | some d =>
    rw [hd] at hnames
    simp only [Option.map_some, Option.bind_some] at hnames
    simp only [Option.map_some, reduceCtorEq, or_false]
    constructor
    · intro h
      split at h
      · obtain ⟨_, hparts, hsplit⟩ := h
        cases hsplit
        exact plain_of_parts hparts
      · cases h
    · intro hplain
      rw [enter_of_plain _ hplain, Option.map_eq_some_iff] at hnames
      obtain ⟨p, hp, hx⟩ := hnames
      rw [hp]
      exact ⟨_, parts_append hx, rfl⟩

/-! ## Reading back -/

theorem toOption_eq_some {α : Type} {x : Except Exception α} {a : α} :
    x.toOption = some a ↔ x = .ok a := by
  cases x <;> simp [Except.toOption]

theorem slash_notMem_of_ofString {x : List Char} {p : AbsolutePath}
    (h : AbsolutePath.ofString x = .ok p) : ∀ name ∈ p.x_, '/' ∉ name := by
  have hslash : ∃ rest, x = '/' :: rest := by
    by_contra hno
    have herror : (AbsolutePath.ofString x).toOption = none := by
      unfold AbsolutePath.ofString
      rw [toOption_addContext]
      split
      · exact (hno ⟨_, rfl⟩).elim
      · rfl
    rw [h] at herror
    cases herror
  obtain ⟨rest, rfl⟩ := hslash
  have hnames := names_ofString rest
  rw [h] at hnames
  exact forall_mem_resolve (by simp) (fun c hc _ => slash_notMem_splitString _ c hc) hnames.symm

/-- A path is read back if no name in it has a slash; what is read has none. -/
theorem ofString_str_iff (p : AbsolutePath) :
    AbsolutePath.ofString p.str = .ok p ↔ ∀ name ∈ p.x_, '/' ∉ name := by
  constructor
  · exact slash_notMem_of_ofString
  · intro h
    rw [← toOption_eq_some]
    apply toOption_eq_some_of_names
    rw [AbsolutePath.str, names_ofString, splitString_join, resolve_of_plain [] p.plain,
      List.nil_append]
    exact fun name hn => ⟨h name hn, (p.plain name hn).2.1⟩

/-- The paths and the functions that split a string: `splitdir` gives the path itself; `split`
gives the directory and the last name as it is written, which are the parts of the path unless
that name stands for another directory. -/
theorem paths_agree :
    (∀ x wd, (splitdir x wd).toOption = (construct x wd).toOption) ∧
    (∀ x wd, (split x wd).toOption = (directory x wd).toOption.map (·, lastName x)) ∧
    (∀ x wd, SplitAgrees x wd ↔ Plain (lastName x) ∨ (directory x wd).toOption = none) ∧
    (∀ p, AbsolutePath.ofString p.str = .ok p ↔ ∀ name ∈ p.x_, '/' ∉ name) ∧
    (∀ x p, AbsolutePath.ofString x = .ok p → AbsolutePath.ofString p.str = .ok p) ∧
    ∀ left right, (normalise left >>= fun l => normalise (l ++ right)).toOption =
      (normalise (left ++ right)).toOption := by
  refine ⟨splitdir_eq_construct, toOption_split, splitAgrees_iff, ofString_str_iff, ?_, ?_⟩
  · intro x p h
    exact (ofString_str_iff p).mpr (slash_notMem_of_ofString h)
  · intro left right
    simp only [toOption_bind, toOption_normalise]
    exact resolve_resolve_append left right

/-- There is no path `/..`, and what is split is the root and a file of that name. -/
theorem not_paths_agree :
    ¬ SplitAgrees ['/', '.', '.'] .root ∧
      ¬ ∀ p : AbsolutePath, AbsolutePath.ofString p.str = .ok p := by
  have hdotDot : splitString ['.', '.'] = [dotDot] := splitString_name (by decide) (by decide)
  constructor
  · rw [splitAgrees_iff]
    have hlast : lastName ['/', '.', '.'] = dotDot := by simp [lastName, namesIn, hdotDot]
    have hdir : names (directory ['/', '.', '.'] .root) = some [] := by
      simp [directory, base, namesIn, hdotDot, AbsolutePath.root]
    rw [hlast]
    intro h
    rcases h with h | h
    · exact h.2.2 rfl
    · simp [names, h] at hdir
  · intro h
    have hslash := (ofString_str_iff ⟨[['a', '/', 'b']], by decide⟩).mp (h _)
    exact absurd hslash (by decide)

end Urnest.Xju.Path
