import Urnest.Http.QuotedString

/-!
# The header of a chunk

The size of a chunk in hexadecimal digits, and its extensions, up to the end of the line.
`parseHeader` is what copyChunk.hcp has of the parsers of chunkSizeParser.hcp and
chunkExtParser.hcp: they read to the end of a line just where it has an answer
(`parsers_read_chunkHeader`).
-/

namespace Urnest.Http

open Lib Lib.Asking Hcp Hcp.Parsing Hcp.Cpp

/-! ## The parsers -/

def crlf : List Char := ['\r', '\n']

/-- `chunkSizeParser` -/
def chunkSizeParser : PR := .named () .chunkSize "HTTP chunk size" (atLeastOne hexDigit)

/-- `chunkExtParser` -/
def chunkExtParser : PR :=
  .named () .chunkExt "HTTP Chunk Extension"
    (.and () (parseLiteral [';'])
      [.named () .chunkExtName "HTTP Chunk Extension Name" tokenParser, parseLiteral ['='],
        .named () .chunkExtValue "HTTP Chunk Extension Value"
          (.or () tokenParser [quotedStringParser])])

/-- What `copyChunk` parses a line with -/
def chunkHeaderParser : PR :=
  .and () chunkSizeParser
    [.specificUntil () chunkExtParser (parseLiteral crlf), parseLiteral crlf]

/-! ## What they read -/

def isToken (c : Char) : Bool :=
  decide (c ∈ tokenChars) || (decide ('0' ≤ c ∧ c ≤ '9') ||
    (decide ('a' ≤ c ∧ c ≤ 'z') || (decide ('A' ≤ c ∧ c ≤ 'Z') || false)))

/-- `Chunk::Extension`: a name and a value, and whether it was quoted -/
structure Extension where
  name : List Char
  value : List Char
  quoted : Bool
  deriving DecidableEq, Repr

/-- A value, and what comes behind it -/
def parseValue (x : List Char) : Option ((List Char × Bool) × List Char) :=
  match x with
  | [] => none
  | c :: y =>
    if isToken c then some ((c :: y.takeWhile isToken, false), y.dropWhile isToken)
    else if c = doubleQuoteChar then do
      let rest ← afterQuoted y
      let value ← decodeQuotedStringContent (y.take (y.length - (rest.length + 1)))
      return ((value, true), rest)
    else none

/-- An extension, and what comes behind it -/
def parseExt (x : List Char) : Option (Extension × List Char) :=
  match x with
  | ';' :: c :: y =>
    if isToken c then
      match y.dropWhile isToken with
      | '=' :: z => do
        let (value, rest) ← parseValue z
        return (⟨c :: y.takeWhile isToken, value.1, value.2⟩, rest)
      | _ => none
    else none
  | _ => none

/-- The extensions up to the end of the line, and what comes there; the first argument is no
less than there are. -/
def parseExts : Nat → List Char → Option (List Extension × List Char)
  | 0, _ => none
  | n + 1, x =>
    if crlf <+: x then some ([], x)
    else do
      let (ext, y) ← parseExt x
      let (exts, rest) ← parseExts n y
      return (ext :: exts, rest)

structure Header where
  size : List Char
  extensions : List Extension
  deriving DecidableEq, Repr

/-- `parseString` of a line -/
def parseHeader (l : List Char) : Option Header :=
  match l with
  | [] => none
  | c :: x =>
    if isHex c then do
      let (extensions, rest) ← parseExts (x.length + 1) (x.dropWhile isHex)
      if rest = crlf then return ⟨c :: x.takeWhile isHex, extensions⟩ else none
    else none

/-! ## That they read it -/

variable {text x y : List Char} {i j : Nat}

theorem oneChar_hexDigit : OneChar hexDigit isHex := by
  have h := oneChar_or (.cons (oneChar_charInRange '0' '9') (.cons (oneChar_charInRange 'a' 'f')
    (.cons (oneChar_charInRange 'A' 'F') .nil)))
  have hcls : (fun c => [fun c => decide ('0' ≤ c ∧ c ≤ '9'), fun c => decide ('a' ≤ c ∧ c ≤ 'f'),
      fun c => decide ('A' ≤ c ∧ c ≤ 'F')].any fun cls => cls c) = isHex := by
    funext c
    simp [isHex, Bool.or_assoc]
  rwa [hcls] at h

theorem oneChar_token :
    OneChar (.or () (parseOneOfChars tokenChars)
      [digit, charInRange 'a' 'z', charInRange 'A' 'Z']) isToken :=
  oneChar_or (.cons (oneChar_oneOfChars tokenChars) (.cons (oneChar_charInRange '0' '9')
    (.cons (oneChar_charInRange 'a' 'z') (.cons (oneChar_charInRange 'A' 'Z') .nil))))

theorem takes_tokenParser {c : Char} (h : At text i (c :: x)) (hc : isToken c = true) :
    ∃ xs j, (parsing text).Takes tokenParser i xs j ∧ At text j (x.dropWhile isToken) :=
  takes_atLeastOne oneChar_token h hc

theorem refuses_tokenParser (h : At text i x) (hc : ∀ c ∈ x.head?, isToken c = false) :
    (parsing text).Refuses tokenParser i :=
  refuses_atLeastOne oneChar_token h hc

/-- What there is before a quoted string is closed is never refused by the decoder. -/
theorem decodes_before {rest : List Char} (h : afterQuoted x = some rest) :
    ∃ v, decodeQuotedStringContent (x.take (x.length - (rest.length + 1))) = some v := by
  obtain ⟨content, v, hcontent, rfl⟩ := afterQuoted_eq_some.mp h
  refine ⟨v, ?_⟩
  rw [List.length_append, List.length_cons, Nat.add_sub_cancel, List.take_left]
  exact hcontent.decodes

/-- A value of an extension -/
def valueParser : PR := .or () tokenParser [quotedStringParser]

theorem reads_value (h : At text i x) :
    (∀ v rest, parseValue x = some (v, rest) →
      ∃ xs j, (parsing text).Takes valueParser i xs j ∧ At text j rest) ∧
    (parseValue x = none → (parsing text).Refuses valueParser i) := by
  cases x with
  | nil =>
    exact ⟨nofun, fun _ => refuses_or (List.forall_mem_cons.mpr ⟨refuses_tokenParser h nofun,
      List.forall_mem_cons.mpr ⟨refuses_quotedString_of_ne h nofun, nofun⟩⟩)⟩
  | cons c y =>
    rw [parseValue]
    by_cases hc : isToken c = true
    · rw [if_pos hc]
      refine ⟨?_, nofun⟩
      rintro v rest ⟨⟩
      obtain ⟨xs, j, htakes, hj⟩ := takes_tokenParser h hc
      exact ⟨xs, j, takes_or_first htakes, hj⟩
    · have hrefuses := refuses_tokenParser h (by
        rintro d ⟨⟩
        exact Bool.eq_false_of_not_eq_true hc)
      rw [if_neg hc]
      by_cases hquote : c = doubleQuoteChar
      · subst hquote
        rw [if_pos rfl]
        cases hafter : afterQuoted y with
        | none =>
          exact ⟨nofun, fun _ => refuses_or (List.forall_mem_cons.mpr ⟨hrefuses,
            List.forall_mem_cons.mpr ⟨refuses_quotedString h hafter, nofun⟩⟩)⟩
        | some rest =>
          obtain ⟨v, hv⟩ := decodes_before hafter
          obtain ⟨item, j, htakes, hj⟩ := takes_quotedString h hafter
          simp only [Option.bind_eq_bind, Option.bind_some, hv]
          refine ⟨?_, nofun⟩
          rintro w rest' ⟨⟩
          exact ⟨_, j, takes_or_second hrefuses htakes, hj⟩
      · rw [if_neg hquote]
        refine ⟨nofun, fun _ => refuses_or (List.forall_mem_cons.mpr ⟨hrefuses,
          List.forall_mem_cons.mpr ⟨refuses_quotedString_of_ne h ?_, nofun⟩⟩)⟩
        rintro ⟨⟩
        exact hquote rfl

/-- Some terms succeed, and the next one fails. -/
theorem refuses_and_behind {first p : PR} {rest ps qs : List PR} {xs : IRs ItemType}
    (hterms : first :: rest = ps ++ p :: qs) (h : (parsing text).TakesAll ps i xs j)
    (hp : (parsing text).Refuses p j) : (parsing text).Refuses (.and () first rest) i := by
  obtain ⟨e, he⟩ := h.runs_refused hp qs []
  rw [← hterms] at he
  exact .of_runs he

theorem reads_ext (h : At text i x) :
    (∀ e rest, parseExt x = some (e, rest) →
      ∃ item j, (parsing text).Takes chunkExtParser i [item] j ∧ At text j rest) ∧
    (parseExt x = none → (parsing text).Refuses chunkExtParser i) := by
  have hfirst : ¬ [';'] <+: x → (parsing text).Refuses chunkExtParser i := fun hx =>
    refuses_named (refuses_and (refuses_parseLiteral h hx))
  rcases x with _ | ⟨semicolon, x⟩
  · exact ⟨nofun, fun _ => hfirst (by simp)⟩
  by_cases hsemicolon : semicolon = ';'
  · subst hsemicolon
    have hopen := takes_parseLiteral (z := [';']) h
    have hx := h.tail
    have hname : (∀ c ∈ x.head?, isToken c = false) →
        (parsing text).Refuses chunkExtParser i := fun hc =>
      refuses_named (refuses_and_second hopen (refuses_named (refuses_tokenParser hx hc)))
    rcases x with _ | ⟨c, y⟩
    · exact ⟨nofun, fun _ => hname nofun⟩
    rw [parseExt]
    by_cases hc : isToken c = true
    · rw [if_pos hc]
      obtain ⟨xs, j, htoken, hj⟩ := takes_tokenParser hx hc
      have htwo : (parsing text).TakesAll [parseLiteral [';'],
          .named () .chunkExtName "HTTP Chunk Extension Name" tokenParser] i _ j :=
        .cons hopen (takes_named (fun _ _ => rfl) htoken).all
      have hequals : ¬ ['='] <+: y.dropWhile isToken →
          (parsing text).Refuses chunkExtParser i := fun hz =>
        refuses_named (refuses_and_behind rfl htwo (refuses_parseLiteral hj hz))
      rcases hdrop : y.dropWhile isToken with _ | ⟨equals, z⟩
      · exact ⟨nofun, fun _ => hequals (by simp [hdrop])⟩
      · by_cases heq : equals = '='
        · subst heq
          rw [hdrop] at hj
          have hthree := htwo.append (takes_parseLiteral (z := ['=']) hj).all
          obtain ⟨hsome, hnone⟩ := reads_value hj.tail
          cases hvalue : parseValue z with
          | none =>
            simp only [hvalue, Option.bind_eq_bind, Option.bind_none]
            refine ⟨nofun, fun _ => refuses_named (refuses_and_behind rfl hthree ?_)⟩
            exact refuses_named (hnone hvalue)
          | some v =>
            obtain ⟨ys, k, htakes, hk⟩ := hsome _ _ hvalue
            simp only [hvalue, Option.bind_eq_bind, Option.bind_some]
            refine ⟨?_, nofun⟩
            rintro e rest ⟨⟩
            exact ⟨_, k, takes_named (fun _ _ => rfl) (takes_and
              (hthree.append (takes_named (fun _ _ => rfl) htakes).all)), hk⟩
        · have hnone : (match equals :: z with
              | '=' :: z => do
                let (value, rest) ← parseValue z
                return (⟨c :: y.takeWhile isToken, value.1, value.2⟩, rest)
              | _ => none : Option (Extension × List Char)) = none := by
            split
            · next heq' => exact absurd (List.cons.inj heq').1 heq
            · rfl
          refine ⟨fun e rest hsome => ?_, fun _ => hequals ?_⟩
          · exact nomatch hnone.symm.trans hsome
          · rw [hdrop]
            exact fun hz => heq (List.cons_prefix_cons.mp hz).1.symm
    · rw [if_neg hc]
      refine ⟨nofun, fun _ => hname ?_⟩
      rintro d ⟨⟩
      exact Bool.eq_false_of_not_eq_true hc
  · have hnone : parseExt (semicolon :: x) = none := by
      rw [parseExt]
      rintro c y ⟨⟩
      exact hsemicolon rfl
    refine ⟨fun e rest hsome => (nomatch hnone.symm.trans hsome), fun _ => hfirst fun hz => ?_⟩
    exact hsemicolon (List.cons_prefix_cons.mp hz).1.symm

theorem length_dropWhile_le (cls : Char → Bool) (x : List Char) :
    (x.dropWhile cls).length ≤ x.length := (List.dropWhile_suffix cls).length_le

theorem length_of_parseValue {v : List Char × Bool} {rest : List Char}
    (h : parseValue x = some (v, rest)) : rest.length ≤ x.length := by
  rcases x with _ | ⟨c, y⟩
  · cases h
  rw [parseValue] at h
  split_ifs at h with hc hquote
  · cases h
    exact (length_dropWhile_le isToken y).trans (Nat.le_succ _)
  · cases hafter : afterQuoted y with
    | none =>
      rw [hafter] at h
      cases h
    | some rest' =>
      obtain ⟨w, hw⟩ := decodes_before hafter
      simp only [hafter, Option.bind_eq_bind, Option.bind_some, hw] at h
      cases h
      obtain ⟨content, -, -, rfl⟩ := afterQuoted_eq_some.mp hafter
      rw [List.length_cons, List.length_append, List.length_cons]
      omega

theorem length_of_parseExt {e : Extension} {rest : List Char} (h : parseExt x = some (e, rest)) :
    rest.length < x.length := by
  rw [parseExt.eq_def] at h
  split at h
  · next c y =>
    split_ifs at h with hc
    split at h
    · next z hdrop =>
      have hlength := length_dropWhile_le isToken y
      rw [hdrop, List.length_cons] at hlength
      cases hvalue : parseValue z with
      | none =>
        rw [hvalue] at h
        cases h
      | some v =>
        simp only [hvalue, Option.bind_eq_bind, Option.bind_some] at h
        cases h
        have hle := length_of_parseValue hvalue
        rw [List.length_cons, List.length_cons]
        omega
    · cases h
  · cases h

/-- The turns over the extensions of a line -/
abbrev ExtTurns (text : List Char) (stop : Nat → Prop) : Nat → IRs ItemType → Nat → Prop :=
  Repeats (UntilTurn (parsing text) chunkExtParser (parseLiteral crlf)) stop

/-- They lead to the end of the line, if there is one. -/
theorem turns_exts {n : Nat} (h : At text i x) (hn : x.length < n) :
    (∀ exts rest, parseExts n x = some (exts, rest) → ∃ xs j, ExtTurns text
      (fun i => ∃ ys k, (parsing text).Takes (parseLiteral crlf) i ys k) i xs j ∧
      At text j rest ∧ crlf <+: rest) ∧
    (parseExts n x = none → ∃ xs j, ExtTurns text
      (fun i => (parsing text).Refuses (parseLiteral crlf) i ∧
        (parsing text).Refuses chunkExtParser i) i xs j) := by
  induction n generalizing i x with
  | zero => exact absurd hn (Nat.not_lt_zero _)
  | succ n ih =>
    rw [parseExts]
    by_cases hcrlf : crlf <+: x
    · rw [if_pos hcrlf]
      refine ⟨?_, nofun⟩
      rintro exts rest ⟨⟩
      obtain ⟨rest, rfl⟩ := hcrlf
      exact ⟨[], i, .stop ⟨_, _, takes_parseLiteral h⟩, h, List.prefix_append ..⟩
    · rw [if_neg hcrlf]
      have hrefuses := refuses_parseLiteral h hcrlf
      obtain ⟨hsome, hnone⟩ := reads_ext h
      cases hext : parseExt x with
      | none =>
        simp only [Option.bind_eq_bind, Option.bind_none]
        exact ⟨nofun, fun _ => ⟨[], i, .stop ⟨hrefuses, hnone hext⟩⟩⟩
      | some e =>
        obtain ⟨item, j, htakes, hj⟩ := hsome _ _ hext
        have hturn : UntilTurn (parsing text) chunkExtParser (parseLiteral crlf) i [item] j :=
          ⟨hrefuses, htakes⟩
        have hshorter := length_of_parseExt hext
        obtain ⟨hmore, hend⟩ := ih hj (by omega)
        simp only [Option.bind_eq_bind, Option.bind_some]
        cases hexts : parseExts n e.2 with
        | none =>
          obtain ⟨ys, k, hturns⟩ := hend hexts
          exact ⟨nofun, fun _ => ⟨_, k, .turn hturn hturns⟩⟩
        | some rest =>
          obtain ⟨ys, k, hturns, hk, hrest⟩ := hmore _ _ hexts
          refine ⟨?_, nofun⟩
          rintro exts rest' ⟨⟩
          exact ⟨_, k, .turn hturn hturns, hk, hrest⟩

/-! ## Lines -/

variable {l : List Char}

theorem at_zero (l : List Char) : At l 0 l := ⟨Nat.zero_le _, rfl⟩

theorem At.eq_length (h : At text i []) : i = text.length :=
  Nat.le_antisymm h.le (List.drop_eq_nil_iff.mp h.drop)

theorem takes_chunkSize {c : Char} (hc : isHex c = true) :
    ∃ ys j, (parsing (c :: x)).Takes chunkSizeParser 0 [.composite .chunkSize 0 ys] j ∧
      At (c :: x) j (x.dropWhile isHex) ∧
      reconstruct (c :: x) (.composite .chunkSize 0 ys) = c :: x.takeWhile isHex := by
  obtain ⟨ys, j, htakes, hj⟩ := takes_atLeastOne oneChar_hexDigit (at_zero (c :: x)) hc
  have hnamed : (parsing (c :: x)).Takes chunkSizeParser 0 [.composite .chunkSize 0 ys] j :=
    takes_named (fun _ _ => rfl) htakes
  refine ⟨ys, j, hnamed, hj, ?_⟩
  have hsplit : c :: x = (c :: x.takeWhile isHex) ++ x.dropWhile isHex := by
    rw [List.cons_append, List.takeWhile_append_dropWhile]
  have hat : At (c :: x) (0 + (c :: x.takeWhile isHex).length) (x.dropWhile isHex) :=
    At.append (hsplit ▸ at_zero (c :: x))
  have hend : j = (c :: x.takeWhile isHex).length := (hj.eq hat).trans (Nat.zero_add _)
  rw [reconstruct, hnamed.tiles.begin_eq, hnamed.tiles.end_eq, slice, List.drop_zero, Nat.sub_zero,
    hend]
  exact (congrArg (List.take _) hsplit).trans List.take_left

theorem refuses_chunkHeader (hl : ∀ c ∈ l.head?, isHex c = false) :
    (parsing l).Refuses chunkHeaderParser 0 :=
  refuses_and (refuses_named (refuses_atLeastOne oneChar_hexDigit (at_zero l) hl))

/-- The line is read from its size to the end of the extensions. -/
theorem takes_chunkHeader_of_exts {c : Char} {exts : List Extension} {rest : List Char}
    (hc : isHex c = true)
    (hexts : parseExts (x.length + 1) (x.dropWhile isHex) = some (exts, crlf ++ rest)) :
    ∃ ys xs j, (parsing (c :: x)).Takes chunkHeaderParser 0 (.composite .chunkSize 0 ys :: xs) j ∧
      At (c :: x) j rest ∧
      reconstruct (c :: x) (.composite .chunkSize 0 ys) = c :: x.takeWhile isHex := by
  obtain ⟨ys, j, hsize, hj, hdigits⟩ := takes_chunkSize (x := x) hc
  have hle := length_dropWhile_le isHex x
  obtain ⟨xs, k, hturns, hk, -⟩ := (turns_exts hj (by omega)).1 _ _ hexts
  exact ⟨ys, _, _, takes_and (.cons hsize (.cons (takes_specificUntil hturns)
    (takes_parseLiteral hk).all)), hk.append, hdigits⟩

/-- The size comes first, and the line is read to its end. -/
theorem takes_chunkHeader {header : Header} (h : parseHeader l = some header) :
    ∃ ys xs, (parsing l).Takes chunkHeaderParser 0 (.composite .chunkSize 0 ys :: xs) l.length ∧
      reconstruct l (.composite .chunkSize 0 ys) = header.size := by
  rcases l with _ | ⟨c, x⟩
  · cases h
  rw [parseHeader] at h
  split_ifs at h with hc
  cases hexts : parseExts (x.length + 1) (x.dropWhile isHex) with
  | none =>
    rw [hexts] at h
    cases h
  | some e =>
    obtain ⟨exts, rest⟩ := e
    simp only [hexts, Option.bind_eq_bind, Option.bind_some] at h
    split_ifs at h with hrest
    cases h
    subst hrest
    rw [← List.append_nil crlf] at hexts
    obtain ⟨ys, xs, j, htakes, hj, hdigits⟩ := takes_chunkHeader_of_exts hc hexts
    obtain rfl := At.eq_length hj
    exact ⟨ys, xs, htakes, hdigits⟩

/-- A line that has no answer is not read to its end. -/
theorem not_takes_chunkHeader (h : parseHeader l = none) (xs : IRs ItemType) :
    ¬ (parsing l).Takes chunkHeaderParser 0 xs l.length := by
  rcases l with _ | ⟨c, x⟩
  · exact fun htakes => not_refuses_of_takes htakes (refuses_chunkHeader nofun)
  rw [parseHeader] at h
  by_cases hc : isHex c = true
  · rw [if_pos hc] at h
    obtain ⟨ys, j, hsize, hj, -⟩ := takes_chunkSize (x := x) hc
    have hle := length_dropWhile_le isHex x
    obtain ⟨hsome, hnone⟩ := turns_exts (n := x.length + 1) hj (by omega)
    cases hexts : parseExts (x.length + 1) (x.dropWhile isHex) with
    | none =>
      obtain ⟨ys, k, hturns⟩ := hnone hexts
      exact fun htakes => not_refuses_of_takes htakes
        (refuses_and_second hsize (refuses_specificUntil hturns))
    | some e =>
      obtain ⟨exts, rest⟩ := e
      simp only [hexts, Option.bind_eq_bind, Option.bind_some] at h
      split_ifs at h with hrest
      obtain ⟨-, -, -, -, rest, rfl⟩ := hsome _ _ hexts
      obtain ⟨ys, zs, k, hline, hk, -⟩ := takes_chunkHeader_of_exts hc hexts
      intro htakes
      obtain ⟨-, rfl⟩ := Takes.unique htakes hline
      -- something is left behind the end of the line
      have hnil : rest = [] := by
        rw [← hk.drop]
        exact List.drop_length
      exact hrest (by rw [hnil, List.append_nil])
  · refine fun htakes => not_refuses_of_takes htakes (refuses_chunkHeader ?_)
    rintro d ⟨⟩
    exact Bool.eq_false_of_not_eq_true hc

/-- What the parsers make of a line, and that they make nothing of any other. -/
theorem parsers_read_chunkHeader (l : List Char) :
    match parseHeader l with
    | some header => ∃ ys xs,
      (parsing l).Takes chunkHeaderParser 0 (.composite .chunkSize 0 ys :: xs) l.length ∧
        reconstruct l (.composite .chunkSize 0 ys) = header.size
    | none => ∀ xs, ¬ (parsing l).Takes chunkHeaderParser 0 xs l.length := by
  cases h : parseHeader l with
  | none => exact not_takes_chunkHeader h
  | some header => exact takes_chunkHeader h

end Urnest.Http
