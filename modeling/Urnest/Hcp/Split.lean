import Mathlib.Data.List.DropRight
import Urnest.Hcp.Cpp

/-!
# Splitting a file

hcp-split writes a header and an implementation from the syntax tree of one file. The
functions here are those of hcp-split.cc, with what they write to the two streams, `h` and
`c`; where an `xju::assert_` of the source fails, the process aborts, and so the result is an
`Assertion`.
-/

namespace Urnest.Hcp

variable {τ : Type}

/-! ## Items -/

namespace Item

def items : Item τ → IRs τ
  | leaf _ _ => []
  | node _ first rest => first :: rest

variable [DecidableEq τ]

/-- `isA<T>()` -/
def isA (type : τ) : Item τ → Bool
  | leaf _ _ => false
  | node t _ _ => t = type

mutual

/-- The item itself, if it is a `T`, or those in it. -/
def outermost (type : τ) : Item τ → IRs τ
  | leaf _ _ => []
  | node t first rest =>
    if t = type then [node t first rest] else first.outermost type ++ outermostOf type rest

def outermostOf (type : τ) : List (Item τ) → IRs τ
  | [] => []
  | x :: xs => x.outermost type ++ outermostOf type xs

end

end Item

variable [DecidableEq τ]

/-- `findChildrenOfType<T>(parent)`: does not search children that are a `T`. -/
def findChildrenOfType (type : τ) (parent : Item τ) : IRs τ := Item.outermostOf type parent.items

/-- `std::find_if(isA_<T>)`: what is before the first `T`, it, and what is behind. -/
def findIf (type : τ) : IRs τ → Option (IRs τ × Item τ × IRs τ)
  | [] => none
  | x :: xs =>
    if x.isA type then some ([], x, xs)
    else (findIf type xs).map fun (before, found, after) => (x :: before, found, after)

namespace Split

open Cpp

/-- Which assertion failed. -/
inductive Assertion where
  | mappedOffset (mapped begin_ : Nat)
  | noFunctionImpl
  | noFunctionName
  | notOnlyChild (found : Nat)
  | notKeywordStatic
  | noNamespaceMembers
  deriving DecidableEq

abbrev Result := Except Assertion

/-! ## Streams -/

structure OStream where
  s : List Char
  outputOffset : Nat
  /-- outputOffset->sourceOffset, the last one first -/
  sourceOffsetMap : List (Nat × Nat)
  deriving DecidableEq

namespace OStream

/-- A stream, and what has been written to it before anything is copied. -/
def opened (s : List Char) : OStream := ⟨s, s.length, []⟩

/-- `copy` of a string, and `operator<<` -/
def write (o : OStream) (x : List Char) : OStream :=
  { o with s := o.s ++ x, outputOffset := o.outputOffset + x.length }

def mappedOffset (o : OStream) : Nat :=
  match o.sourceOffsetMap with
  | [] => o.outputOffset
  | (output, source) :: _ => o.outputOffset - output + source

/-- `sourceOffsetMap_.insert`, which leaves an offset that is there as it is. -/
def insert (o : OStream) (source : Nat) : OStream :=
  match o.sourceOffsetMap with
  | [] => { o with sourceOffsetMap := [(o.outputOffset, source)] }
  | (output, source') :: rest =>
    if output = o.outputOffset then o
    else { o with sourceOffsetMap := (o.outputOffset, source) :: (output, source') :: rest }

variable (text : List Char)

/-- `copy` of a range -/
def copy (o : OStream) (begin_ end_ : Nat) : Result OStream :=
  let o := if o.mappedOffset ≠ begin_ then o.insert begin_ else o
  if o.mappedOffset = begin_ then .ok (o.write (slice text begin_ end_))
  else .error (.mappedOffset o.mappedOffset begin_)

mutual

/-- An item in `copyExcluding` -/
def copyItemExcluding (types : List ItemType) (o : OStream) : Item ItemType → Result OStream
  | .leaf b e => o.copy text b e
  | .node type first rest =>
    if type ∈ types then .ok o
    else do
      let o ← copyItemExcluding types o first
      copyExcluding types o rest

def copyExcluding (types : List ItemType) (o : OStream) : List (Item ItemType) → Result OStream
  | [] => .ok o
  | x :: xs => do
    let o ← copyItemExcluding types o x
    copyExcluding types o xs

end

end OStream

/-- The header and the implementation. -/
structure Output where
  h : OStream
  c : OStream
  deriving DecidableEq

mutual

def findStartOfTrailingWhitespace : Item ItemType → Nat
  | .leaf _ e => e
  | .node type first rest =>
    if type = .WhiteSpace then first.begin
    else startOfLast rest (findStartOfTrailingWhitespace first)

/-- That of the last item, if there are any. -/
def startOfLast : List (Item ItemType) → Nat → Nat
  | [], start => start
  | x :: xs, _ => startOfLast xs (findStartOfTrailingWhitespace x)

end

section Generator

variable (text : List Char)

/-- `xju::strip` -/
def strip (x : List Char) : List Char := (x.dropWhile isspace).rdropWhile isspace

/-- `className_`: that of the item without new lines, and white space at the end -/
def getClassName (x : Item ItemType) : List Char :=
  match findIf .ClassName x.items with
  | none => []
  | some (_, name, _) => ((reconstruct text name).filter (· ≠ '\n')).rdropWhile isspace

/-- The names of the classes from the outermost on, with `::` between them. -/
def joinScope (scope : IRs ItemType) : List Char :=
  "::".toList.intercalate (scope.map (getClassName text))

/-! ## Functions and variables -/

/-- `genClassMemberFunctionDef` -/
def genClassMemberFunctionDef (x : Item ItemType) (scope : IRs ItemType) (o : Output) :
    Result Output :=
  match findIf .FunctionImpl x.items with
  | none => .error .noFunctionImpl
  | some (before, impl, _) =>
    match before.getLast? with
    | none => .error .noFunctionImpl
    | some last => do
      let h ← o.h.copy text x.begin (findStartOfTrailingWhitespace last)
      let h ← (h.write [';']).copy text (findStartOfTrailingWhitespace impl) x.end_
      let k := match x.items with
        | first :: rest => if first.isA .FunctionQualifiers then rest else first :: rest
        | [] => []
      match findIf .FunctionName k with
      | none => .error .noFunctionName
      | some (front, name, back) =>
        match findIf .FunctionImpl (name :: back) with
        | none => .error .noFunctionImpl
        | some (j, l, _) => do
          let c ← o.c.copy text ((front ++ [name]).headD name).begin name.begin
          let c := c.write (joinScope text scope ++ "::".toList)
          let c ← c.copyExcluding text [.VarInitialiser, .VirtSpecifierSeq] j
          let c ← c.copy text l.begin x.end_
          return ⟨h, c.write ['\n']⟩

/-- `findOnlyChildOfType<T>` -/
def findOnlyChildOfType (type : ItemType) (parent : Item ItemType) : Result (Item ItemType) :=
  match findChildrenOfType type parent with
  | [x] => .ok x
  | xs => .error (.notOnlyChild (min 2 xs.length))

/-- What a static variable is in the header. -/
def declareStaticVar (x : Item ItemType) (h : OStream) : Result OStream :=
  match findChildrenOfType .VarInitialiser x with
  | i :: _ => do
    let h ← h.copy text x.begin i.begin
    return h.write ";\n".toList
  | [] => do
    let h ← h.copy text x.begin x.end_
    return h.write ['\n']

/-- `genClassStaticVarDef` -/
def genClassStaticVarDef (x : Item ItemType) (scope : IRs ItemType) (o : Output) :
    Result Output := do
  let h ← declareStaticVar text x o.h
  let name ← findOnlyChildOfType .VarName x
  match x.items with
  | first :: _ =>
    if first.isA .KeywordStatic then do
      let c ← o.c.copy text first.end_ name.begin
      let c := c.write (joinScope text scope ++ "::".toList)
      let c ← c.copy text name.begin x.end_
      return ⟨h, c.write ['\n']⟩
    else .error .notKeywordStatic
  | [] => .error .notKeywordStatic

/-- The first `FunctionQualifiers` in `x` has the literal. -/
def hasQualifier (literal : String) (x : Item ItemType) : Bool :=
  match findChildrenOfType .FunctionQualifiers x with
  | [] => false
  | qualifiers :: _ => qualifiers.items.any fun item => reconstruct text item = literal.toList

def isInlineFunction (x : Item ItemType) : Bool := hasQualifier text "inline" x

def isFriendFunction (x : Item ItemType) : Bool := hasQualifier text "friend" x

/-- Is there a `T` in `x`? -/
def has (type : ItemType) (x : Item ItemType) : Bool := (findChildrenOfType type x).length ≠ 0

/-- A parameter of the class's type, by value or a reference to `const`. -/
def isOfClass (className : List Char) (p : Item ItemType) : Bool :=
  if !has .VarNonFp p || has .MoveQual p || has .PointerQual p || has .ElipsesQual p ||
      has .ArrayDecl p then false
  else if has .RefQual p && !has .ConstQual p then false
  else match findChildrenOfType .ScopedName p with
    | [scopedName] => strip className = strip (reconstruct text scopedName)
    | _ => false

def isFriendOperatorLessDecl (x : Item ItemType) (className : List Char) : Bool :=
  if has .TemplatePreamble x || !isFriendFunction text x then false
  else match findChildrenOfType .ReturnType x, findChildrenOfType .OperatorName x with
    | returnType :: _, operatorName :: _ =>
      strip (reconstruct text returnType) = "bool".toList &&
        reconstruct text operatorName = ['<'] &&
        ((findChildrenOfType .Param x).length = 2 &&
          ((findChildrenOfType .Param x).filter (isOfClass text className)).length = 2)
    | _, _ => false

/-- `getClassMemberVarNames`, and `getTemplateClassMemberVarNames` -/
def getMemberVarNames (x : Item ItemType) : Result (List (List Char)) :=
  (findChildrenOfType .GlobalVarDef x).mapM fun v => do
    return reconstruct text (← findOnlyChildOfType .VarName v)

/-! ## Operators -/

/-- The body of `operator<`, from the names of the members on. -/
def operatorLessBody (names : List (List Char)) : List Char :=
  "\n\x7b\n".toList ++ names.flatMap (fun v =>
    "  if (x.".toList ++ v ++ " < y.".toList ++ v ++ ") return true;\n".toList ++
    "  if (y.".toList ++ v ++ " < x.".toList ++ v ++ ") return false;\n".toList) ++
  "  return false;\n\x7d\n".toList

/-- The parameters of an operator. -/
def operatorParams (name : List Char) : List Char :=
  "(".toList ++ name ++ " const& x, ".toList ++ name ++ " const& y) noexcept".toList

/-- The other operators, and what they return. -/
def derivedOperators : List (String × String) :=
  [(">", "y<x"), ("!=", "y<x||x<y"), ("==", "!(y<x||x<y)"), ("<=", "!(x>y)"), (">=", "!(x<y)")]

/-- What a class has in the header for its `friend bool operator<`, behind the declaration. -/
def friendDecls (className : List Char) : List Char :=
  derivedOperators.flatMap fun op =>
    "friend bool operator".toList ++ op.1.toList ++ operatorParams className ++ ";\n".toList

/-- and what it has in the implementation -/
def operatorDefs (scopedName : List Char) (names : List (List Char)) : List Char :=
  "bool operator<".toList ++ operatorParams scopedName ++ operatorLessBody names ++
    derivedOperators.flatMap fun op =>
      "bool operator".toList ++ op.1.toList ++ operatorParams scopedName ++ "\n\x7b\n  return ".toList ++
        op.2.toList ++ ";\n\x7d\n".toList

/-- What a template class has instead of the declaration. -/
def templateOperatorDefs (className : List Char) (names : List (List Char)) : List Char :=
  "friend bool operator<".toList ++ operatorParams className ++ operatorLessBody names ++
    derivedOperators.flatMap fun op =>
      "friend bool operator".toList ++ op.1.toList ++ operatorParams className ++
        " \x7b\n  return ".toList ++ op.2.toList ++ ";\n\x7d\n".toList

/-! ## Classes -/

/-- An item that is the same in the header. -/
def copyToHeader (x : Item ItemType) (o : Output) : Result Output := do
  return { o with h := ← o.h.copy text x.begin x.end_ }

mutual

/-- A child of a class definition, which is the last of `scope`. -/
def genClassPart (scope : IRs ItemType) (cls : Item ItemType) :
    Item ItemType → Output → Result Output
  | .node .ClassMembers first rest, o => do
    let o ← genClassMember scope cls first o
    genClassMembers scope cls rest o
  | x, o => copyToHeader text x o

/-- `genClass`, of its children -/
def genClassParts (scope : IRs ItemType) (cls : Item ItemType) :
    List (Item ItemType) → Output → Result Output
  | [], o => .ok o
  | x :: xs, o => do
    let o ← genClassPart scope cls x o
    genClassParts scope cls xs o

def genClassMember (scope : IRs ItemType) (cls : Item ItemType) :
    Item ItemType → Output → Result Output
  | .node .FunctionDef first rest, o =>
    let m := Item.node .FunctionDef first rest
    if isInlineFunction text m || isFriendFunction text m then copyToHeader text m o
    else genClassMemberFunctionDef text m scope o
  | .node .StaticVarDef first rest, o =>
    genClassStaticVarDef text (.node .StaticVarDef first rest) scope o
  | .node .ClassDef first rest, o => do
    let m := Item.node .ClassDef first rest
    let o ← genClassPart (scope ++ [m]) m first o
    genClassParts (scope ++ [m]) m rest o
  | .node .FunctionDecl first rest, o =>
    let m := Item.node .FunctionDecl first rest
    if isFriendOperatorLessDecl text m (getClassName text cls) then do
      let names ← getMemberVarNames text cls
      let o ← copyToHeader text m o
      return ⟨o.h.write (friendDecls (getClassName text cls)),
        o.c.write (operatorDefs (joinScope text scope) names)⟩
    else copyToHeader text m o
  | m, o => copyToHeader text m o

def genClassMembers (scope : IRs ItemType) (cls : Item ItemType) :
    List (Item ItemType) → Output → Result Output
  | [], o => .ok o
  | x :: xs, o => do
    let o ← genClassMember scope cls x o
    genClassMembers scope cls xs o

end

/-- A member of a template class -/
def genTemplateClassMember (cls m : Item ItemType) (o : Output) : Result Output :=
  if m.isA .FunctionDecl && isFriendOperatorLessDecl text m (getClassName text cls) then do
    let names ← getMemberVarNames text cls
    return { o with h := o.h.write (templateOperatorDefs (getClassName text cls) names) }
  else copyToHeader text m o

end Generator

end Split

end Urnest.Hcp
