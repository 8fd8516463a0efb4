import Mathlib
import Urnest.Json.Soundness

/-!
# The parser, the formatter and RFC 8259

Every JSON text is parsed. A text that is parsed is JSON if it is strict, but for one escape
that the RFC does not have (`jsonText_of_parse`). The formatter writes that escape, too, and
otherwise JSON, for elements whose strings have only such control characters in them as have
an escape (`jsonText_of_format`).
-/

namespace Urnest.Json

open Lib Hcp Hcp.Parsing Utf8 Json.Tree

/-! ## Parsing -/

theorem parse_unique {json : Utf8String} {n m : Nat} {r r' : Except ParseError Tree}
    (h : parse n json = some r) (h' : parse m json = some r') : r = r' := by
  obtain ⟨p, hp, rfl⟩ := Option.map_eq_some_iff.mp h
  obtain ⟨p', hp', rfl⟩ := Option.map_eq_some_iff.mp h'
  have hmax := eval_mono (Nat.le_max_left n m) hp
  rw [eval_mono (Nat.le_max_right n m) hp'] at hmax
  rw [Option.some.inj hmax]

theorem goes_of_parse_eq_ok {json : Utf8String} {n : Nat} {e : Tree} (h : parse n json = some (.ok e)) :
    (parsing json.value).Goes (eatWhite + elementParser) 0 json.value.length := by
  obtain ⟨r, hr, hparsed⟩ := Option.map_eq_some_iff.mp h
  cases r with
  | error e => cases hparsed
  | ok v =>
    obtain ⟨items, i⟩ := v
    rw [parsed] at hparsed
    split at hparsed
    · cases hparsed
    next hi =>
      rw [← not_not.mp hi]
      exact goes_of_parse ⟨n, hr⟩

/-- What is parsed of a strict text is what it denotes. -/
theorem jsonText_of_parse {json : Utf8String} (hstrict : strict json.value = true) {n : Nat} {e : Tree}
    (h : parse n json = some (.ok e)) :
    ∃ e', JsonText escapesWithAlert json.value e' ∧ e.plain = e'.plain := by
  obtain ⟨k, hwhite, helement⟩ := goesAll_cons (goes_and (goes_of_parse_eq_ok h))
  have houtside : Outside (json.value.drop 0) := ⟨hstrict, isText_value json⟩
  obtain ⟨w, hw, hblank, hk⟩ := leaves_eatWhite hwhite houtside
  obtain ⟨_, hx, ⟨e', out, w', rfl, he', hblank'⟩, -⟩ :=
    leaves_element _ (Nat.lt_succ_self _) (goesAll_single helement) hk
  have htext : JsonText escapesWithAlert json.value e' := by
    refine ⟨w, out, w', ?_, hblank, he', hblank'⟩
    rw [List.drop_length, List.append_nil] at hx
    rw [← hx]
    exact hw
  obtain ⟨e'', hplain, depth, hdepth⟩ := parse_of_jsonText understood_escapesWithAlert htext
  refine ⟨e', htext, ?_⟩
  rw [Except.ok.inj (parse_unique h (hdepth depth le_rfl)), hplain]

/-! ## Elements to format -/

namespace Tree

/-- No control characters, but those that `String::formatAsUtf8` escapes -/
def CleanString (value : Utf8String) : Prop :=
  ∀ b ∈ value.value, 0x20 ≤ b ∨ b ∈ ([0x07, 0x08, 0x09, 0x0a, 0x0c, 0x0d] : List UInt8)

mutual

/-- All strings in the element are clean. -/
def Clean : Tree → Prop
  | null_ | true_ | false_ | number _ _ => True
  | string value_ _ => CleanString value_
  | array value_ _ => CleanAll value_
  | object value_ _ => CleanMembers value_

def CleanAll : List Tree → Prop
  | [] => True
  | x :: xs => x.Clean ∧ CleanAll xs

def CleanMembers : List (Utf8String × Tree) → Prop
  | [] => True
  | (key, x) :: xs => CleanString key ∧ x.Clean ∧ CleanMembers xs

end

end Tree

/-! ## Formatting -/

/-- The text may stand in front of a strict one, outside of strings. -/
def Keeps (out : List UInt8) : Prop := ∀ t, strict (out ++ t) = strict t

theorem Keeps.append {x y : List UInt8} (hx : Keeps x) (hy : Keeps y) : Keeps (x ++ y) := by
  intro t
  rw [List.append_assoc, hx, hy]

theorem keeps_of_forall {x : List UInt8} (h : ∀ b ∈ x, b ≠ 0x22 ∧ b ≠ 0x2f) : Keeps x := by
  intro t
  induction x with
  | nil => rfl
  | cons b x ih =>
    obtain ⟨⟨hquote, hslash⟩, hx⟩ := List.forall_mem_cons.mp h
    rw [List.cons_append, strict, strict_outside _ hquote, decide_eq_true hslash, Bool.true_and]
    exact ih hx

theorem keeps_bytes {x : List Char} (h : ∀ c ∈ x, c.toNat < 0x80 ∧ c ≠ '"' ∧ c ≠ '/') :
    Keeps (bytes x) := by
  refine keeps_of_forall fun b hb => ?_
  obtain ⟨c, hc, rfl⟩ := List.mem_map.mp hb
  obtain ⟨hascii, hquote, hslash⟩ := h c hc
  have hnat : (UInt8.ofNat c.toNat).toNat = c.toNat := toNat_ofNat (by omega)
  refine ⟨(token_ofNat hascii hquote).2, fun h => hslash ?_⟩
  rw [← UInt8.toNat_inj, hnat] at h
  rw [← Char.ofNat_toNat c, h]
  rfl

theorem Blank.keeps {w : List UInt8} (h : Blank w) : Keeps w := by
  have hall : ∀ c ∈ " \t\n\r".toList, c ≠ '/' := forall_mem_of_all (by decide)
  refine keeps_of_forall fun b hb => ⟨(white_token b (h _ (List.mem_map_of_mem hb))).2, ?_⟩
  rintro rfl
  exact hall _ (h _ (List.mem_map_of_mem hb)) rfl

/-- What is written for a character that is clean. -/
theorem strict_formatCharacter {c : UInt32} {bytes out : List UInt8}
    (hbytes : encodeCodePoint c = .ok bytes)
    (hclean : ∀ b ∈ bytes, 0x20 ≤ b ∨ b ∈ ([0x07, 0x08, 0x09, 0x0a, 0x0c, 0x0d] : List UInt8))
    (h : formatCharacter c = .ok out) (t : List UInt8) :
    strictFrom .string (out ++ t) = strictFrom .string t := by
  rw [formatCharacter] at h
  cases hescape : escapes.lookup c with
  | some x =>
    rw [hescape] at h
    cases h
    have hall : ∀ p ∈ escapes, p.2 ≠ 0x75 := by
      simp only [escapes, List.forall_mem_cons]
      exact ⟨by decide, by decide, by decide, by decide, by decide, by decide, by decide, by decide,
        by decide, fun _ h => by cases h⟩
    obtain ⟨l, l', heq, -⟩ := List.lookup_eq_some_iff.mp hescape
    have hx : x ≠ 0x75 := hall (c, x) (heq ▸ List.mem_append_right l (List.mem_cons_self ..))
    rw [List.cons_append, strict_backslash, List.cons_append, strictFrom, if_neg hx, Bool.true_and]
    rfl
  | none =>
    rw [hescape, hbytes] at h
    cases h
    obtain ⟨b, u, rfl⟩ := List.exists_cons_of_ne_nil (encodeCodePoint_ne_nil hbytes)
    -- a quote, a backslash or a control character would have been escaped
    have hne : ∀ a : UInt8, a < 0x80 → escapes.lookup a.toUInt32 ≠ none → b ≠ a := by
      rintro a ha hlookup rfl
      obtain ⟨rfl, -⟩ := ascii_of_encode hbytes ha
      exact hlookup hescape
    have hmin : 0x20 ≤ b := by
      rcases hclean b (List.mem_cons_self ..) with hmin | hmem
      · exact hmin
      · simp only [List.mem_cons, List.not_mem_nil, or_false] at hmem
        rcases hmem with hb | hb | hb | hb | hb | hb <;>
          exact absurd hb (hne _ (by decide) (by decide))
    have hquote := hne 0x22 (by decide) (by decide)
    have hbackslash := hne 0x5c (by decide) (by decide)
    exact strict_bytes (plain_bytes_of_encode hbytes
      (plainCharacter_of_encode hbytes ⟨hmin, hquote, hbackslash⟩)) t

theorem strict_formatCharacters {value : List UInt8} {size : Nat} (hcharacters : Characters value size)
    (hclean : ∀ b ∈ value, 0x20 ≤ b ∨ b ∈ ([0x07, 0x08, 0x09, 0x0a, 0x0c, 0x0d] : List UInt8))
    {out : List UInt8} (h : formatCharacters value = .ok out) (t : List UInt8) :
    strictFrom .string (out ++ t) = strictFrom .string t := by
  induction hcharacters generalizing out with
  | nil =>
    rw [formatCharacters, if_pos rfl] at h
    cases h
    rfl
  | @cons c bytes rest size hbytes _ ih =>
    have hne : bytes ++ rest ≠ [] := by simp [encodeCodePoint_ne_nil hbytes]
    rw [formatCharacters, if_neg hne] at h
    split at h
    · cases h
    next c' rest' hread =>
      rw [decodeCodePoint_encode hbytes rest] at hread
      cases hread
      obtain ⟨first, hfirst, h⟩ := bind_eq_ok.mp h
      obtain ⟨others, hothers, h⟩ := bind_eq_ok.mp h
      cases h
      rw [List.append_assoc, strict_formatCharacter hbytes
        (fun b hb => hclean b (List.mem_append_left _ hb)) hfirst]
      exact ih (fun b hb => hclean b (List.mem_append_right _ hb)) hothers

theorem keeps_firstLine {first : Utf8String} (h : Blank first.value) (step : Utf8String) :
    Keeps (firstLine first step) := (blank_firstLine h step).keeps

theorem keeps_formatString {value first step : Utf8String} (hclean : CleanString value)
    (hfirst : Blank first.value) {out : List UInt8} (h : formatString value first step = .ok out) :
    Keeps out := by
  rw [formatString] at h
  obtain ⟨cs, hcs, h⟩ := bind_eq_ok.mp h
  cases h
  intro t
  have hquote : Tree.bytes ['"'] = [0x22] := rfl
  rw [hquote]
  simp only [List.append_assoc, List.cons_append, List.nil_append]
  rw [keeps_firstLine hfirst step, strict, strictFrom, if_pos rfl,
    strict_formatCharacters value.characters hclean hcs, strictFrom, if_pos rfl]
  rfl

theorem keeps_punctuation {c : Char} (h : c ∈ "[]\x7b\x7d,:".toList) : Keeps (bytes [c]) := by
  have hall : ∀ c ∈ "[]\x7b\x7d,:".toList, c.toNat < 0x80 ∧ c ≠ '"' ∧ c ≠ '/' :=
    forall_mem_of_all (by decide)
  exact keeps_bytes (List.forall_mem_cons.mpr ⟨hall c h, fun _ h => nomatch h⟩)

theorem keeps_number (l : Literal) : Keeps (bytes l.text) := by
  refine keeps_bytes fun c hc => ⟨text_ascii l c hc, ?_⟩
  have hothers : ∀ c ∈ "-+.eE".toList, c ≠ '"' ∧ c ≠ '/' := forall_mem_of_all (by decide)
  rcases mem_text l c hc with hdigit | hmem
  · refine ⟨?_, ?_⟩ <;>
    · rintro rfl
      revert hdigit
      decide
  · exact hothers c hmem

mutual

/-- What a clean element is formatted as may stand in front of a strict text. -/
theorem keeps_formatAsUtf8 : ∀ (e : Tree), e.Valid → e.Clean → ∀ {first other step : Utf8String},
    Blank first.value → Blank other.value → Blank step.value → ∀ {out : List UInt8},
      e.formatAsUtf8 first other step = .ok out → Keeps out
  | .null_, _, _, first, _, step, hfirst, _, _, out, h => by
    rw [formatAsUtf8] at h
    cases h
    exact (keeps_firstLine hfirst step).append (keeps_bytes (forall_mem_of_all (by decide)))
  | .true_, _, _, first, _, step, hfirst, _, _, out, h => by
    rw [formatAsUtf8] at h
    cases h
    exact (keeps_firstLine hfirst step).append (keeps_bytes (forall_mem_of_all (by decide)))
  | .false_, _, _, first, _, step, hfirst, _, _, out, h => by
    rw [formatAsUtf8] at h
    cases h
    exact (keeps_firstLine hfirst step).append (keeps_bytes (forall_mem_of_all (by decide)))
  | .string value_ _, _, hclean, _, _, _, hfirst, _, _, out, h => by
    rw [formatAsUtf8] at h
    rw [Clean] at hclean
    exact keeps_formatString hclean hfirst h
  | .number value_ _, hvalid, _, first, _, step, hfirst, _, _, out, h => by
    rw [Valid] at hvalid
    obtain ⟨l, rfl⟩ := hvalid
    rw [formatAsUtf8] at h
    cases h
    exact (keeps_firstLine hfirst step).append (keeps_number l)
  | .array [] _, _, _, first, _, step, hfirst, _, _, out, h => by
    rw [formatAsUtf8] at h
    cases h
    exact ((keeps_firstLine hfirst step).append (keeps_punctuation (by decide))).append
      (keeps_punctuation (by decide))
  | .array (x :: xs) _, hvalid, hclean, first, other, step, hfirst, hother, hstep, out, h => by
    rw [Valid, ValidAll] at hvalid
    rw [Clean, CleanAll] at hclean
    rw [formatAsUtf8] at h
    obtain ⟨element, helement, h⟩ := bind_eq_ok.mp h
    obtain ⟨others, hothers, h⟩ := bind_eq_ok.mp h
    cases h
    have hdeeper := blank_deeper hother hstep
    have hx := keeps_formatAsUtf8 x hvalid.1 hclean.1 hdeeper hdeeper hstep helement
    have hxs := keeps_formatElements xs hvalid.2 hclean.2 hother hstep hothers
    have hsep := (blank_separator step).keeps
    exact (((keeps_firstLine hfirst step).append (keeps_punctuation (by decide))).append
      ((((hsep.append hx).append hxs).append hsep).append hother.keeps)).append
        (keeps_punctuation (by decide))
  | .object [] _, _, _, first, _, step, hfirst, _, _, out, h => by
    rw [formatAsUtf8] at h
    cases h
    exact ((keeps_firstLine hfirst step).append (keeps_punctuation (by decide))).append
      (keeps_punctuation (by decide))
  | .object ((key, x) :: xs) _, hvalid, hclean, first, other, step, hfirst, hother, hstep, out, h => by
    rw [Valid, ValidMembers] at hvalid
    rw [Clean, CleanMembers] at hclean
    rw [formatAsUtf8] at h
    obtain ⟨name, hname, h⟩ := bind_eq_ok.mp h
    obtain ⟨value, hvalue, h⟩ := bind_eq_ok.mp h
    obtain ⟨others, hothers, h⟩ := bind_eq_ok.mp h
    cases h
    have hdeeper := blank_deeper hother hstep
    have hkey := keeps_formatString hclean.1 blank_nil hname
    have hx := keeps_formatAsUtf8 x hvalid.2.1 hclean.2.1 blank_space hdeeper hstep hvalue
    have hxs := keeps_formatMembers xs hvalid.2.2 hclean.2.2 hother hstep hothers
    have hsep := (blank_separator step).keeps
    have hmember := ((((hsep.append hdeeper.keeps).append hkey).append
      (keeps_punctuation (c := ':') (by decide))).append hx).append hxs
    exact (((keeps_firstLine hfirst step).append (keeps_punctuation (by decide))).append
      ((hmember.append hsep).append hother.keeps)).append (keeps_punctuation (by decide))

theorem keeps_formatElements : ∀ (es : List Tree), ValidAll es → CleanAll es →
    ∀ {other step : Utf8String}, Blank other.value → Blank step.value → ∀ {out : List UInt8},
      formatElements es other step = .ok out → Keeps out
  | [], _, _, _, _, _, _, out, h => by
    rw [formatElements] at h
    cases h
    exact blank_nil.keeps
  | x :: xs, hvalid, hclean, other, step, hother, hstep, out, h => by
    rw [ValidAll] at hvalid
    rw [CleanAll] at hclean
    rw [formatElements] at h
    obtain ⟨element, helement, h⟩ := bind_eq_ok.mp h
    obtain ⟨others, hothers, h⟩ := bind_eq_ok.mp h
    cases h
    have hdeeper := blank_deeper hother hstep
    have hx := keeps_formatAsUtf8 x hvalid.1 hclean.1 hdeeper hdeeper hstep helement
    have hxs := keeps_formatElements xs hvalid.2 hclean.2 hother hstep hothers
    exact (((keeps_punctuation (by decide)).append (blank_separator step).keeps).append hx).append hxs

theorem keeps_formatMembers : ∀ (ms : List (Utf8String × Tree)), ValidMembers ms → CleanMembers ms →
    ∀ {other step : Utf8String}, Blank other.value → Blank step.value → ∀ {out : List UInt8},
      formatMembers ms other step = .ok out → Keeps out
  | [], _, _, _, _, _, _, out, h => by
    rw [formatMembers] at h
    cases h
    exact blank_nil.keeps
  | (key, x) :: xs, hvalid, hclean, other, step, hother, hstep, out, h => by
    rw [ValidMembers] at hvalid
    rw [CleanMembers] at hclean
    rw [formatMembers] at h
    obtain ⟨name, hname, h⟩ := bind_eq_ok.mp h
    obtain ⟨value, hvalue, h⟩ := bind_eq_ok.mp h
    obtain ⟨others, hothers, h⟩ := bind_eq_ok.mp h
    cases h
    have hdeeper := blank_deeper hother hstep
    have hkey := keeps_formatString hclean.1 blank_nil hname
    have hx := keeps_formatAsUtf8 x hvalid.1 hclean.2.1 blank_space hdeeper hstep hvalue
    have hxs := keeps_formatMembers xs hvalid.2 hclean.2.2 hother hstep hothers
    exact ((((((keeps_punctuation (by decide)).append (blank_separator step).keeps).append
      hdeeper.keeps).append hkey).append (keeps_punctuation (by decide))).append hx).append hxs

end

/-- A clean element is formatted as a text that denotes it. -/
theorem jsonText_of_format {e : Tree} (he : e.Valid) (hclean : e.Clean) {indent : Utf8String}
    (hindent : Blank indent.value) : ∃ json e', format e indent = .ok json ∧
      JsonText escapesWithAlert json.value e' ∧ e'.plain = e.plain := by
  have hempty : Blank Utf8String.empty.value := blank_nil
  obtain ⟨out, hformat, hreads⟩ := reads_tree e he .empty hempty hindent
  have hkeeps := keeps_formatAsUtf8 e he hclean hempty hempty hindent hformat
  have hline : firstLine .empty indent = [] := by
    rw [firstLine]
    split_ifs <;> rfl
  rw [hline, List.nil_append] at hformat hkeeps
  obtain ⟨n, hcharacters⟩ := hreads.isText
  obtain ⟨json, hmake, hvalue⟩ := Utf8String.make_of_characters hcharacters
  have hstrict : strict json.value = true := by
    rw [hvalue, ← List.append_nil out, hkeeps]
    rfl
  have hjson : json.value = [] ++ (out ++ []) := by rw [hvalue, List.nil_append, List.append_nil]
  obtain ⟨e', hplain, depth, hparse⟩ := parse_of_reads hjson blank_nil blank_nil hreads
  obtain ⟨e'', htext, hplain'⟩ := jsonText_of_parse hstrict (hparse depth le_rfl)
  exact ⟨json, e'', by rw [format, hformat]; exact hmake, htext, hplain'.symm.trans hplain⟩

/-! ## `"\a"` -/

/-- The string of one alert, as it is formatted. -/
def alertText : List UInt8 := [0x22, 0x5c, 0x61, 0x22]

theorem not_charsText_alert {t rest : List UInt8} (h : [0x5c, 0x61, 0x22] = t ++ 0x22 :: rest)
    {value : List UInt8} : ¬ CharsText standardEscapes t value := by
  intro hchars
  cases hchars with
  | nil => cases h
  | cons hchar _ =>
    cases hchar with
    | @unescaped c bytes hbytes _ _ hbackslash =>
      obtain ⟨b, u, rfl⟩ := List.exists_cons_of_ne_nil (encodeCodePoint_ne_nil hbytes)
      obtain ⟨rfl, -⟩ := List.cons.inj h
      exact hbackslash (ascii_of_encode hbytes (by decide)).1
    | @escape x b hx =>
      obtain rfl : 0x61 = x := (List.cons.inj (List.cons.inj h).2).1
      have hnone : standardEscapes.lookup 0x61 = none := by decide
      rw [hnone] at hx
      cases hx
    | unicode _ _ => exact absurd (List.cons.inj (List.cons.inj h).2).1 (by decide)
    | pair _ _ _ _ _ => exact absurd (List.cons.inj (List.cons.inj h).2).1 (by decide)

theorem not_jsonText_alert (e : Tree) : ¬ JsonText standardEscapes alertText e := by
  rintro ⟨w, out, w', htext, hw, hvalue, -⟩
  cases w with
  | cons b w =>
    obtain ⟨rfl, -⟩ := List.cons.inj htext
    exact (white_token 0x22 (hw _ (List.mem_cons_self ..))).2 rfl
  | nil =>
    cases hvalue with
    | null => cases htext
    | true => cases htext
    | false => cases htext
    | number l =>
      obtain ⟨c, cs, hc, -⟩ := text_starts l
      have htoken := text_token l (UInt8.ofNat c.toNat) (by rw [hc]; exact List.mem_cons_self ..)
      rw [hc] at htext
      exact htoken.2 (List.cons.inj htext).1.symm
    | string h =>
      obtain ⟨t, rfl, hchars⟩ := h
      have htail : [0x5c, 0x61, 0x22] = (t ++ [0x22]) ++ w' := (List.cons.inj htext).2
      rw [List.append_assoc] at htail
      exact not_charsText_alert htail hchars
    | array => cases htext
    | object => cases htext

def alert : Utf8String := .ofCharacters (.single (show encodeCodePoint 0x07 = .ok [0x07] from rfl))

theorem jsonText_alert : JsonText escapesWithAlert alertText (.string alert none) := by
  refine ⟨[], alertText, [], rfl, blank_nil, .string ⟨[0x5c, 0x61], rfl, ?_⟩, blank_nil⟩
  exact .cons (.escape (x := 0x61) (b := 0x07) rfl) .nil

/-- The alert is formatted with an escape that is not in the RFC, and parsed with it. -/
theorem not_parse_iff_standard : ¬ ∀ json : Utf8String,
    (∃ depth e, parse depth json = some (.ok e)) ↔ ∃ e, JsonText standardEscapes json.value e := by
  intro h
  have htext := jsonText_alert
  obtain ⟨n, hn⟩ : IsText alertText := isText_of_ascii (by
    simp only [alertText, List.forall_mem_cons]
    exact ⟨by decide, by decide, by decide, by decide, fun _ h => nomatch h⟩)
  obtain ⟨json, -, hjson⟩ := Utf8String.make_of_characters hn
  rw [← hjson] at htext
  obtain ⟨e, -, depth, hdepth⟩ := parse_of_jsonText understood_escapesWithAlert htext
  obtain ⟨e', he'⟩ := (h json).mp ⟨depth, e, hdepth depth le_rfl⟩
  rw [hjson] at he'
  exact not_jsonText_alert e' he'

theorem understood_standardEscapes : Understood standardEscapes := by
  intro x b h
  rw [← lookup_escapesWithAlert]
  have hx : x ≠ 0x61 := by
    rintro rfl
    have hnone : standardEscapes.lookup 0x61 = none := by decide
    rw [hnone] at h
    cases h
  have halert : (x == 0x61) = false := beq_eq_false_iff_ne.mpr hx
  rw [escapesWithAlert, List.lookup, halert, h]

/-- Every text of RFC 8259 is parsed, as what it denotes, as is one with `\a` in it. What is
parsed of a strict text is such a text, and what it denotes. A clean element is formatted as
such a text, that denotes it. -/
theorem parse_and_format_jsonText :
    (∀ (json : Utf8String) (e : Tree),
      JsonText standardEscapes json.value e ∨ JsonText escapesWithAlert json.value e →
        ∃ e', e'.plain = e.plain ∧ ∃ depth, ∀ n, depth ≤ n → parse n json = some (.ok e')) ∧
    (∀ (json : Utf8String), strict json.value = true → ∀ (n : Nat) (e : Tree),
      parse n json = some (.ok e) →
        ∃ e', JsonText escapesWithAlert json.value e' ∧ e.plain = e'.plain) ∧
    ∀ (e : Tree), e.Valid → e.Clean → ∀ indent : Utf8String,
      (∀ b ∈ indent.value, b ∈ ([0x20, 0x09, 0x0a, 0x0d] : List UInt8)) →
        ∃ json e', format e indent = .ok json ∧ JsonText escapesWithAlert json.value e' ∧
          e'.plain = e.plain := by
  refine ⟨fun json e h => ?_, fun json hstrict n e h => jsonText_of_parse hstrict h, ?_⟩
  · rcases h with h | h
    · exact parse_of_jsonText understood_standardEscapes h
    · exact parse_of_jsonText understood_escapesWithAlert h
  · exact fun e he hclean indent hindent => jsonText_of_format he hclean (blank_of_mem hindent)

theorem parse_and_format_jsonText_alert : ∃ json e', format (.string alert none) space = .ok json ∧
    JsonText escapesWithAlert json.value e' ∧ e'.plain = (Tree.string alert none).plain :=
  parse_and_format_jsonText.2.2 (.string alert none) (by simp only [Valid])
    (by rw [Clean, CleanString]; decide +kernel) space (by decide +kernel)

end Urnest.Json
