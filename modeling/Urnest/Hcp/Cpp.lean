import Urnest.Hcp.Parser

/-!
# The grammar of C++

The productions of parser.cc that `file()` is made of, in its order. Where a parser is in use
before it exists, it is referred to by a `Rule`.
-/

namespace Urnest.Hcp.Cpp

/-- The classes of ast.hh that the productions make. -/
inductive ItemType where
  | LineComment | BlockComment | Comments | WhiteSpace | S_Chars | StringLiteral
  | TargetOfHashInclude | HashInclude | HashIncludeImpl | OtherPreprocessor | Attributes
  | Whitespace | ScopedName | ConstQual | VolatileQual | MoveQual | RefQual | PointerQual
  | TypeRef | ElipsesQual | DefinedType | ArrayDecl | Using | EnumName | EnumDef
  | EnumForwardDecl | OperatorName | ClassName | KeywordStatic | KeywordExtern | KeywordFriend
  | KeywordPublic | KeywordPrivate | KeywordProtected | KeywordVirtual | KeywordExplicit
  | KeywordOverride | KeywordFinal | KeywordNoexcept | KeywordThrow | EmptyThrow | ThrowList
  | ThrowListItem | ThrowListItemTypeName | ThrowListTrailingWhite | FunctionQualifiers
  | VirtSpecifierSeq | FunctionPostQualifiers | BlockOpen | Block | InitListOpen | InitList
  | KeywordTry | KeywordCatch | FunctionImpl | TemplateEmptyPreamble | TemplatePreamble
  | FunctionName | ReturnType | FunctionDecl | FunctionDef | TemplateFunctionDef
  | BaseSpecifier | ClassForwardDecl | VarName | VarInitialiserOpen | VarInitialiser | VarNonFp
  | Param | Typedef | GlobalVarDef | StaticVarDef | ExternVarDef | AccessModifier
  | ClassMembers | TemplateClassDef | ClassDef | AnonymousNamespaceOpen | AnonymousNamespace
  | NamespaceName | NamespaceMembers | NamespaceDef | EndOfFile | File
  deriving DecidableEq

/-- The parsers that are referred to before they exist. -/
inductive Rule where
  | var_fp
  | class_def
  | namespace_def

/-- A parser, wherever it is. -/
abbrev PR := Parser Unit ItemType Rule

/-! ## Combinators -/

/-- The terms of a `ParseAnd`, or one. -/
def andTerms : PR → List PR
  | .and _ first rest => first :: rest
  | x => [x]

def orTerms : PR → List PR
  | .or _ first rest => first :: rest
  | x => [x]

/-- `operator+` -/
instance : Add PR where
  add
    | .and _ first rest, b => .and () first (rest ++ andTerms b)
    | a, b => .and () a (andTerms b)

/-- `operator|` -/
instance : OrOp PR where
  or
    | .or _ first rest, b => .or () first (rest ++ orTerms b)
    | a, b => .or () a (orTerms b)

/-- `operator!` -/
def not (x : PR) : PR := .not () x

def zeroOrMore (x : PR) : PR := .zeroOrMore () x

def optional (x : PR) : PR := .optional () x

def anon (name : String) (x : PR) : PR := .anon () name x

def named (type : ItemType) (name : String) (x : PR) : PR := .named () type name x

/-- `atLeastOne`; the name goes on with the target of `b`. -/
def atLeastOne (b : PR) : PR := anon "at least one occurrance of" (b + zeroOrMore b)

def parseAnyChar : PR := .anyChar ()

def parseOneOfChars (chars : List Char) : PR := .oneOfChars () chars

def parseAnyCharExcept (chars : List Char) : PR := .anyCharExcept () chars

def charInRange (min max : Char) : PR := .charInRange () min max

def parseLiteral (x : String) : PR := .literal () x

/-- `parseUntil` of what is to match -/
def parseUntil (match_ x : PR) : PR := .specificUntil () match_ x

/-- `parseUntil` of anything -/
def parseAnyUntil (x : PR) : PR := .anyUntil () x

def balanced (until_ : PR) (angles : Bool := false) : PR := .balanced () until_ angles

def nonEmptyListOf (x moreIndicator : PR) : PR := .nonEmptyListOf () x moreIndicator

/-- `listOf`; the name shows the targets of its parts, too. -/
def listOf (x separator terminator : PR) : PR :=
  anon "-separated list of" (terminator ||| (x + parseUntil (separator + x) terminator + terminator))

/-- `listOf` with an opener -/
def openedListOf (opener x separator terminator : PR) : PR :=
  anon "-separated list of" (opener +
    (terminator ||| (x + parseUntil (separator + x) terminator + terminator)))

/-! ## Characters, white space and strings -/

def octalDigit : PR := charInRange '0' '7'

def hexDigit : PR := charInRange '0' '9' ||| charInRange 'a' 'f' ||| charInRange 'A' 'F'

def stringEscapeSequence : PR :=
  parseLiteral (String.ofList [backslash]) + (
    parseOneOfChars (quote :: doubleQuoteChar :: '?' :: backslash :: "abfnrtvuU".toList) |||
    (octalDigit + octalDigit + octalDigit) |||
    (octalDigit + octalDigit) |||
    octalDigit |||
    (parseLiteral "x" + atLeastOne hexDigit))

def c_char : PR := parseAnyCharExcept [backslash, quote, '\n'] ||| stringEscapeSequence

def s_char : PR := parseAnyCharExcept [backslash, doubleQuoteChar, '\n'] ||| stringEscapeSequence

def whitespaceChar : PR := parseOneOfChars [' ', '\t', '\n', '\r']

def doubleSlash : PR := parseLiteral "//"

def slashStar : PR := parseLiteral "/*"

def starSlash : PR := parseLiteral "*/"

def parseHash : PR := .hash ()

def lineComment : PR :=
  named .LineComment "line comment"
    (doubleSlash + parseAnyUntil (parseOneOfChars ['\n']) + zeroOrMore whitespaceChar)

def blockComment : PR :=
  named .BlockComment "block comment"
    (slashStar + parseAnyUntil starSlash + starSlash + zeroOrMore whitespaceChar)

def comments : PR := named .Comments "comments" (atLeastOne (lineComment ||| blockComment))

/-- matches nothing or something -/
def eatWhite : PR :=
  anon "optional whitespace"
    (not (whitespaceChar ||| doubleSlash ||| slashStar) |||
      named .WhiteSpace "whitespace" (zeroOrMore (whitespaceChar ||| comments)))

def doubleQuote : PR := parseOneOfChars [doubleQuoteChar]

def doubleOpenSquare : PR := parseLiteral "[["

def lessThan : PR := parseOneOfChars ['<']

def greaterThan : PR := parseOneOfChars ['>']

def doubleColon : PR := parseLiteral "::" + not (parseOneOfChars [':'])

def s_chars : PR := named .S_Chars "string literal characters" (parseUntil s_char doubleQuote)

def stringLiteral : PR :=
  named .StringLiteral "string literal"
    (atLeastOne (doubleQuote + s_chars + doubleQuote + eatWhite))

def rawStringLiteral : PR :=
  let r := parseLiteral (String.ofList ['R', doubleQuoteChar])
  named .StringLiteral "raw string literal"
    (.rawString () ((parseLiteral "u8" + r) ||| (parseOneOfChars ['L', 'u', 'U'] + r) ||| r))

/-! ## Preprocessor -/

def hashIncludeImplMarker : PR :=
  parseLiteral "//" + zeroOrMore (parseOneOfChars [' ', '\t']) + parseLiteral "impl" +
    zeroOrMore (parseOneOfChars [' ', '\t']) + parseLiteral "\n"

def hashIncludeCommon : PR :=
  parseHash + zeroOrMore (parseOneOfChars [' ', '\t']) + parseLiteral "include" +
    zeroOrMore (parseOneOfChars [' ', '\t']) +
    ((lessThan + named .TargetOfHashInclude "target of #include" (parseAnyUntil greaterThan) +
        greaterThan) |||
      (doubleQuote + named .TargetOfHashInclude "target of #include" (parseAnyUntil doubleQuote) +
        doubleQuote)) +
    parseAnyUntil (parseLiteral "\n" ||| hashIncludeImplMarker)

def hashInclude : PR :=
  named .HashInclude "#include" (hashIncludeCommon + parseOneOfChars ['\n'] + eatWhite)

def hashIncludeImpl : PR :=
  named .HashIncludeImpl "#include with //impl marker"
    (hashIncludeCommon + hashIncludeImplMarker + eatWhite)

def hash : PR :=
  named .OtherPreprocessor "other preprocessor directive"
    (parseHash + parseAnyUntil (parseAnyCharExcept [backslash] + parseOneOfChars ['\n']) +
      parseAnyChar + eatWhite)

/-! ## Names and types -/

def attributes : PR :=
  named .Attributes "attributes"
    (parseLiteral "[[" + balanced (parseLiteral "]") + parseLiteral "]]" + eatWhite)

def whitespace : PR := named .Whitespace "some whitespace" (atLeastOne whitespaceChar)

def identifierContChar : PR :=
  charInRange 'a' 'z' ||| charInRange 'A' 'Z' ||| charInRange '0' '9' ||| parseOneOfChars ['_']

def identifier : PR := .identifier ()

def class_struct_union_literal : PR :=
  (parseLiteral "class" ||| parseLiteral "struct" ||| parseLiteral "union") +
    not identifierContChar

/-- `<` up to `>`, if there is one -/
def templateArguments : PR :=
  not (parseOneOfChars ['<']) ||| (parseOneOfChars ['<'] +
    balanced (parseOneOfChars ['>']) true + parseOneOfChars ['>'] + eatWhite)

def scope_ref : PR :=
  optional class_struct_union_literal + eatWhite + optional (doubleColon + eatWhite) +
    zeroOrMore (identifier + eatWhite + templateArguments + doubleColon + eatWhite)

def typename_keyword : PR := parseLiteral "typename" + not identifierContChar + eatWhite

def scoped_name : PR :=
  named .ScopedName "scoped name"
    (optional typename_keyword + scope_ref + identifier + eatWhite + templateArguments)

/-- `bracketed(x)` -/
def bracketedOf (x : PR) : PR := parseLiteral "(" + eatWhite + x + parseLiteral ")" + eatWhite

def typedef_keyword : PR := parseLiteral "typedef" + not identifierContChar

def const_keyword : PR :=
  named .ConstQual "const qualifier" (parseLiteral "const") + not identifierContChar

def volatile_keyword : PR :=
  named .VolatileQual "volatile qualifier" (parseLiteral "volatile") + not identifierContChar

def cv : PR :=
  anon "const/volatile qualifiers" (zeroOrMore ((const_keyword ||| volatile_keyword) + eatWhite))

def type_qual : PR :=
  anon "const/volatile/*/& type qualifier"
    ((const_keyword ||| volatile_keyword |||
      named .MoveQual "move qualifier" (parseLiteral "&&") |||
      named .RefQual "ref qualifier" (parseOneOfChars ['&']) |||
      named .PointerQual "pointer qualifier" (parseOneOfChars ['*'])) + eatWhite)

def bracketed : PR :=
  parseLiteral "(" + balanced (parseLiteral ")") + parseLiteral ")" + eatWhite

def built_in_type_name : PR :=
  atLeastOne
    ((parseLiteral "char" ||| parseLiteral "char16_t" ||| parseLiteral "char32_t" |||
      parseLiteral "wchar_t" ||| parseLiteral "short" ||| parseLiteral "int" |||
      parseLiteral "long" ||| parseLiteral "float" ||| parseLiteral "double" |||
      parseLiteral "signed" ||| parseLiteral "unsigned") + not identifierContChar + eatWhite)

def decltype_ : PR := parseLiteral "decltype" + eatWhite + bracketed

def type_name : PR := anon "type name" (built_in_type_name ||| decltype_ ||| scoped_name)

def type_ref : PR :=
  named .TypeRef "type reference"
    (cv + type_name + zeroOrMore type_qual + eatWhite +
      (not (parseLiteral ".") |||
        (named .ElipsesQual "elipses qualifier" (parseLiteral "...") + eatWhite)))

def defined_type : PR := named .DefinedType "\"defined type\"" identifier + eatWhite

def array_decl : PR :=
  named .ArrayDecl "array decl"
    (parseOneOfChars ['['] + balanced (parseOneOfChars [']']) + parseOneOfChars [']']) + eatWhite

def typedef_non_fp : PR :=
  typedef_keyword + whitespace + type_ref + defined_type +
    (not (parseLiteral "[") ||| array_decl) + parseOneOfChars [';'] + eatWhite

def using_keyword : PR := parseLiteral "using" + not identifierContChar

def using_statement : PR :=
  named .Using "using statement"
    (using_keyword + whitespace + balanced (parseOneOfChars [';']) + parseOneOfChars [';'] +
      eatWhite)

def enum_name : PR := named .EnumName "\"enum name\"" identifier

def enum_keyword : PR := parseLiteral "enum" + not identifierContChar

def scoped_enum_def : PR :=
  named .EnumDef "scoped enum definition"
    (enum_keyword + whitespace + (parseLiteral "struct" ||| parseLiteral "class") + whitespace +
      optional enum_name + eatWhite +
      ((parseLiteral ":" + eatWhite + type_name + eatWhite) ||| not (parseLiteral ":")) +
      parseLiteral "\x7b" + balanced (parseOneOfChars ['}']) + parseOneOfChars ['}'] + eatWhite +
      parseOneOfChars [';'] + eatWhite)

def enum_def : PR :=
  named .EnumDef "enum definition"
    (enum_keyword + whitespace + optional enum_name + eatWhite + parseLiteral "\x7b" +
      balanced (parseOneOfChars ['}']) + parseOneOfChars ['}'] + eatWhite +
      parseOneOfChars [';'] + eatWhite)

def enum_decl : PR :=
  named .EnumForwardDecl "enum forward-declaration"
    (enum_keyword + whitespace +
      optional ((parseLiteral "struct" ||| parseLiteral "class") + whitespace) +
      enum_name + eatWhite + parseOneOfChars [';'] + eatWhite)

def unqualifiedTypeName : PR :=
  identifier + (not (parseOneOfChars ['<']) ||| (parseOneOfChars ['<'] +
    balanced (parseOneOfChars ['>']) true + parseOneOfChars ['>']))

def operator_keyword : PR := parseLiteral "operator" + not identifierContChar + eatWhite

def operator_name : PR :=
  anon "operator name"
    (scope_ref + operator_keyword +
      named .OperatorName "operator name"
        (parseLiteral "()" ||| parseLiteral "&&" ||| parseLiteral "||" ||| parseLiteral "<<=" |||
          parseLiteral "<<" ||| parseLiteral ">>" ||| parseLiteral ">>=" ||| parseLiteral "==" |||
          parseLiteral "!=" ||| parseLiteral "<=" ||| parseLiteral ">=" ||| parseLiteral "<" |||
          parseLiteral ">" ||| parseLiteral "++" ||| parseLiteral "+=" ||| parseLiteral "--" |||
          parseLiteral "-=" ||| parseLiteral "->*" ||| parseLiteral "->" ||| parseLiteral "+" |||
          parseLiteral "-" ||| parseLiteral "|=" ||| parseLiteral "&=" ||| parseLiteral "|" |||
          parseLiteral "&" ||| parseLiteral "," ||| parseLiteral "[]" ||| parseLiteral "!" |||
          parseLiteral "^" ||| parseLiteral "^=" ||| parseLiteral "%=" ||| parseLiteral "%" |||
          parseLiteral "=" ||| parseLiteral "*" ||| parseLiteral "*=" ||| parseLiteral "~" |||
          parseLiteral "~=" ||| parseLiteral "/" ||| parseLiteral "/=" ||| parseLiteral "new" |||
          parseLiteral "delete") +
      eatWhite)

def destructor_name : PR :=
  anon "destructor name" (scope_ref + parseLiteral "~" + eatWhite + identifier)

def class_name : PR :=
  named .ClassName "class name"
    (optional typename_keyword + optional doubleColon + eatWhite + unqualifiedTypeName +
      zeroOrMore (eatWhite + doubleColon + eatWhite + unqualifiedTypeName)) + eatWhite

def conversion_operator_name : PR := scope_ref + operator_keyword + type_ref

/-! ## Keywords -/

/-- A keyword with an item of its own. -/
def keyword (type : ItemType) (name x : String) : PR :=
  named type name (parseLiteral x) + not identifierContChar + eatWhite

def keyword_static : PR := keyword .KeywordStatic "\"static\"" "static"

def keyword_extern : PR := keyword .KeywordExtern "\"extern\"" "extern"

def keyword_inline : PR := parseLiteral "inline" + not identifierContChar + eatWhite

def keyword_mutable : PR := parseLiteral "mutable" + not identifierContChar + eatWhite

def keyword_friend : PR := keyword .KeywordFriend "\"friend\"" "friend"

def keyword_public : PR := keyword .KeywordPublic "\"public\"" "public"

def keyword_private : PR := keyword .KeywordPrivate "\"private\"" "private"

def keyword_protected : PR := keyword .KeywordProtected "\"protected\"" "protected"

def keyword_virtual : PR := keyword .KeywordVirtual "\"virtual\"" "virtual"

def keyword_explicit : PR := keyword .KeywordExplicit "\"explicit\"" "explicit"

def keyword_override : PR := keyword .KeywordOverride "\"override\"" "override"

def keyword_final : PR := keyword .KeywordFinal "\"final\"" "final"

def keyword_noexcept : PR := keyword .KeywordNoexcept "\"noexcept\"" "noexcept"

def keyword_throw : PR := keyword .KeywordThrow "\"throw\"" "throw"

def keyword_try : PR := keyword .KeywordTry "\"try\"" "try"

def keyword_catch : PR := keyword .KeywordCatch "\"catch\"" "catch"

/-! ## Functions -/

def empty_throw : PR :=
  named .EmptyThrow "empty throw clause"
    (keyword_throw + eatWhite + parseLiteral "(" + eatWhite + parseLiteral ")" + eatWhite)

def throw_list : PR :=
  named .ThrowList "non-empty throw clause"
    (keyword_throw + eatWhite +
      openedListOf (parseLiteral "(")
        (named .ThrowListItem "throw clause item"
          (eatWhite + named .ThrowListItemTypeName "type name" type_name))
        (eatWhite + parseLiteral ",") (eatWhite + parseLiteral ")") +
      named .ThrowListTrailingWhite "throw clause trailing whitespace" eatWhite)

def throw_clause : PR :=
  empty_throw ||| throw_list ||| (keyword_noexcept + (not (parseLiteral "(") ||| bracketed))

def function_qualifiers : PR :=
  named .FunctionQualifiers "function qualifiers"
    (zeroOrMore ((keyword_virtual ||| keyword_explicit ||| keyword_friend ||| keyword_static |||
      keyword_inline) + eatWhite))

def virt_specifier_seq : PR :=
  named .VirtSpecifierSeq "virt-specifier-seq"
    ((keyword_override + eatWhite + keyword_final) |||
      (keyword_final + eatWhite + keyword_override) ||| keyword_override ||| keyword_final)

def function_post_qualifiers : PR :=
  named .FunctionPostQualifiers "function post-qualifiers"
    (cv + (not (keyword_throw ||| keyword_noexcept) ||| throw_clause) +
      optional virt_specifier_seq)

def block_open : PR := named .BlockOpen "block open" (parseLiteral "\x7b")

def block : PR :=
  named .Block "block" (block_open + balanced (parseOneOfChars ['}']) + parseLiteral "\x7d")

def init_list : PR :=
  named .InitList "initialiser list"
    (named .InitListOpen "init list open" (parseLiteral ":") + balanced (parseOneOfChars ['{', ';']))

def catch_block : PR := keyword_catch + bracketed + block

/-- does not eat trailing white -/
def function_impl : PR :=
  named .FunctionImpl "function implementation"
    ((keyword_try + init_list + block + eatWhite + catch_block) |||
      (keyword_try + block + eatWhite + catch_block) ||| (init_list + block) ||| block)

def template_keyword : PR := parseLiteral "template" + not identifierContChar + eatWhite

def template_empty_preamble : PR :=
  named .TemplateEmptyPreamble "template empty preamble"
    (template_keyword + parseOneOfChars ['<'] + eatWhite + parseOneOfChars ['>'] + eatWhite)

def template_preamble : PR :=
  named .TemplatePreamble "template preamble"
    (not template_empty_preamble +
      (template_keyword + parseOneOfChars ['<'] + balanced (parseOneOfChars ['>']) true +
        parseOneOfChars ['>'] + eatWhite))

/-! ## Variables -/

def var_name : PR := named .VarName "var name" identifier + eatWhite

def var_initialiser_open : PR :=
  named .VarInitialiserOpen "variable initialiser '='" (parseOneOfChars ['='])

def var_initialiser_1 : PR :=
  named .VarInitialiser "variable initialiser"
    (var_initialiser_open + balanced (parseOneOfChars [')', ';', ',']))

def var_initialiser_open_2 : PR :=
  named .VarInitialiserOpen "variable initialiser '\x7b'" (parseOneOfChars ['{'])

def var_initialiser_2 : PR :=
  named .VarInitialiser "variable initialiser"
    (var_initialiser_open_2 + balanced (parseOneOfChars ['}']) + parseOneOfChars ['}'])

def var_initialiser : PR := anon "var initialiser" (var_initialiser_1 ||| var_initialiser_2)

/-- attributes, if there are any -/
def optionalAttributes : PR := not doubleOpenSquare ||| attributes

/-- an initialiser, if there is one -/
def optionalInitialiser : PR := not (parseOneOfChars ['=', '{']) ||| var_initialiser

def var_non_fp : PR :=
  named .VarNonFp "non-function pointer var"
    (type_ref + var_name + optionalAttributes + optional array_decl + optionalInitialiser)

def var_fp_backref : PR := .reference () "function pointer var (backref)" .var_fp

def param : PR := named .Param "param" ((var_non_fp ||| var_fp_backref ||| type_ref) + eatWhite)

def params : PR :=
  anon "params"
    (parseLiteral "(" + eatWhite +
      listOf param (parseLiteral "," + eatWhite) (parseLiteral ")") + eatWhite)

def var_fp : PR :=
  anon "function pointer var"
    (type_ref +
      bracketedOf (scope_ref + cv + parseLiteral "*" + eatWhite + cv + var_name +
        optionalAttributes) +
      params + function_post_qualifiers + optionalInitialiser + eatWhite)

/-! ## Function prototypes and definitions -/

def conversion_operator_function_proto : PR :=
  function_qualifiers +
    named .FunctionName "conversion operator name" conversion_operator_name + eatWhite +
    optionalAttributes + params

def typed_function_proto : PR :=
  function_qualifiers + named .ReturnType "return type" type_ref +
    named .FunctionName "function name" (operator_name ||| scoped_name) + eatWhite +
    optionalAttributes + params

def untyped_function_proto : PR :=
  function_qualifiers +
    named .FunctionName "function name" (destructor_name ||| operator_name ||| scoped_name) +
    eatWhite + optionalAttributes + params

def function_initialiser : PR :=
  anon "function initialier" (parseLiteral "=" + balanced (parseLiteral ";" + eatWhite))

def post_result_type : PR := anon "post result type" (parseLiteral "->" + eatWhite + type_ref)

def function_proto : PR :=
  anon "function proto"
    ((conversion_operator_function_proto ||| typed_function_proto ||| untyped_function_proto) +
      function_post_qualifiers + (not (parseLiteral "->") ||| post_result_type) +
      (not (parseLiteral "=") ||| function_initialiser))

def function_decl : PR :=
  named .FunctionDecl "function declaration"
    (optional (template_empty_preamble ||| template_preamble) + optionalAttributes +
      function_proto + (eatWhite + parseOneOfChars [';']) + eatWhite)

def function_def_unnamed : PR := function_proto + function_impl + eatWhite

def function_def : PR :=
  named .FunctionDef "non-template function definition"
    (optional template_empty_preamble + optionalAttributes + function_def_unnamed)

def template_function_def : PR :=
  named .TemplateFunctionDef "template function definition"
    (atLeastOne template_preamble + optionalAttributes + function_def_unnamed)

/-! ## Classes -/

def not_class_struct_union_literal : PR := not class_struct_union_literal

def base_specifier : PR :=
  named .BaseSpecifier "base specifier"
    (optional ((keyword_public ||| keyword_private ||| keyword_protected) + eatWhite) +
      optional keyword_virtual + eatWhite +
      not (keyword_public ||| keyword_private ||| keyword_protected ||| keyword_virtual) +
      scoped_name)

def base_specifier_list : PR := nonEmptyListOf base_specifier (parseLiteral "," + eatWhite)

def class_proto : PR :=
  zeroOrMore (template_preamble ||| template_empty_preamble) + optional keyword_friend +
    class_struct_union_literal + whitespace + class_name +
    (not (parseLiteral ":") ||| (parseLiteral ":" + eatWhite + base_specifier_list))

def class_decl : PR :=
  named .ClassForwardDecl "class forward-declaration"
    (class_proto + parseOneOfChars [';'] + eatWhite)

def typedef_fp : PR :=
  anon "typedef of function pointer"
    (typedef_keyword + whitespace + type_ref +
      bracketedOf (scope_ref + cv + parseLiteral "*" + eatWhite + cv + defined_type +
        (not (parseLiteral "[") ||| array_decl)) +
      params + function_post_qualifiers + eatWhite + parseOneOfChars [';'] + eatWhite)

def typedef_statement : PR := named ItemType.Typedef "typedef statement" (typedef_fp ||| typedef_non_fp)

def var_def : PR := optional keyword_mutable + (var_non_fp ||| var_fp) + eatWhite

def global_var_def : PR :=
  named .GlobalVarDef "global variable definition"
    (optionalAttributes + var_def + parseLiteral ";" + eatWhite)

def static_var_def : PR :=
  named .StaticVarDef "static variable definition"
    (keyword_static + eatWhite + optionalAttributes + var_def + parseLiteral ";" + eatWhite)

def extern_var_def : PR :=
  named .ExternVarDef "extern variable definition"
    ( keyword_extern + eatWhite + optionalAttributes + var_def + parseLiteral ";" + eatWhite)

def access_modifier : PR :=
  named .AccessModifier "public/private/protected: marker"
    ((parseLiteral "public" ||| parseLiteral "private" ||| parseLiteral "protected") + eatWhite +
      parseOneOfChars [':'] + eatWhite)

def not_typedef_using_enum_keyword : PR :=
  not (typedef_keyword ||| using_keyword ||| enum_keyword)

/-- `x_` of `ParseClass` -/
def classBody : PR :=
  class_proto + parseOneOfChars ['{'] + eatWhite +
    named .ClassMembers "class members"
      (parseUntil
        (comments ||| access_modifier ||| .reference () "class definition" .class_def |||
          enum_decl ||| class_decl |||
          (not_class_struct_union_literal +
            (typedef_statement ||| scoped_enum_def ||| enum_def ||| using_statement |||
              (not_typedef_using_enum_keyword +
                (function_decl ||| template_function_def ||| function_def ||| static_var_def |||
                  extern_var_def ||| global_var_def)))))
        (parseOneOfChars ['}'])) +
    parseOneOfChars ['}'] + eatWhite + parseOneOfChars [';'] + eatWhite

/-- `ParseClass` -/
def class_def : PR :=
  .wrapped () "class definition"
    (named .TemplateClassDef "template class definition" (template_preamble + classBody) |||
      named .ClassDef "non-template class definition" classBody)

/-! ## Namespaces and files -/

def not_function_proto_or_template_function_proto : PR :=
  anon "not function proto or template function proto"
    (not (function_proto ||| (template_preamble + function_proto)))

def namespace_leaf : PR :=
  comments ||| hashIncludeImpl ||| hashInclude ||| hash ||| class_def ||| enum_decl |||
    class_decl |||
    (not_class_struct_union_literal +
      (typedef_statement ||| using_statement ||| scoped_enum_def ||| enum_def |||
        (not_typedef_using_enum_keyword +
          (whitespace ||| function_decl ||| template_function_def ||| function_def |||
            (not_function_proto_or_template_function_proto +
              (static_var_def ||| extern_var_def ||| global_var_def))))))

def namespace_keyword : PR := parseLiteral "namespace" + not identifierContChar

def not_namespace_keyword : PR := not namespace_keyword

def anonymous_namespace : PR :=
  named .AnonymousNamespace "anonymous namespace"
    (namespace_keyword + eatWhite +
      named .AnonymousNamespaceOpen "anon namespace open" (parseOneOfChars ['{']) + eatWhite +
      parseUntil namespace_leaf (parseOneOfChars ['}']) + parseOneOfChars ['}'] + eatWhite)

/-- `ParseNamespace` -/
def namespace_def : PR :=
  named .NamespaceDef "namespace"
    (namespace_keyword + whitespace + named .NamespaceName "namespace name" identifier +
      eatWhite + parseOneOfChars ['{'] + eatWhite +
      named .NamespaceMembers "namespace members"
        (parseUntil
          ((.reference () "namespace" .namespace_def ||| anonymous_namespace |||
            (not_namespace_keyword + namespace_leaf)) + eatWhite)
          (parseOneOfChars ['}'])) +
      parseOneOfChars ['}'] + eatWhite)

def endOfFile : PR := .endOfFile () .EndOfFile

def file : PR :=
  named .File "file"
    (optional comments + eatWhite +
      parseUntil (namespace_def ||| anonymous_namespace ||| (not_namespace_keyword + namespace_leaf))
        endOfFile +
      endOfFile)

/-- The grammar; the items are plain ones, and their constructors throw nothing. -/
def grammar : Grammar Unit ItemType Rule where
  parserOf
    | .var_fp => var_fp
    | .class_def => class_def
    | .namespace_def => namespace_def
  c_char := c_char
  stringLiteral := stringLiteral
  rawStringLiteral := rawStringLiteral
  comments := comments
  construct _ _ _ := none

end Urnest.Hcp.Cpp
