import Mathlib
import Urnest.Hcp.Progress

/-!
# Derivations

What a parser has read tells how it was read: `Derives` has a rule for each class, with the
items of its parts side by side. It forgets what the parsers looked at and did not take, so
more is derived than parsed, but all that is parsed is derived (`Derives.of_answers`). The
shape of a tree is read off by going back through the rules.
-/

namespace Urnest.Hcp

open Lib Lib.Asking

variable {ι τ ν : Type}

/-- What is read: one parser's text, that of several one after the other, or that of one any
number of times. -/
inductive Goal (ι τ ν : Type) where
  | one (p : Parser ι τ ν)
  | all (ps : List (Parser ι τ ν))
  | many (p : Parser ι τ ν)

/-- What a parser takes that makes a single item of it. -/
def Parser.Spans : Parser ι τ ν → Nat → Nat → Prop
  | .anyChar _, i, j | .oneOfChars _ _, i, j | .anyCharExcept _ _, i, j
  | .charInRange _ _ _, i, j | .hash _, i, j => j = i + 1
  | .literal _ x, i, j => j = i + x.toList.length
  | .identifier _, i, j => i < j
  | .rawString _ _, i, j => i < j
  | .anyUntil _ _, i, j | .balanced _ _ _, i, j => i ≤ j
  | _, _, _ => False

/-- The items of a composite: an empty one has an item that is empty. -/
def Item.composite (type : τ) (position : Nat) : IRs τ → Item τ
  | [] => .node type (.leaf position position) []
  | first :: rest => .node type first rest

inductive Derives (g : Grammar ι τ ν) : Goal ι τ ν → Nat → IRs τ → Nat → Prop where
  | leaf {p : Parser ι τ ν} {i j : Nat} : p.Spans i j → Derives g (.one p) i [.leaf i j] j
  | endOfFile (id : ι) (type : τ) (i : Nat) :
    Derives g (.one (.endOfFile id type)) i [.node type (.leaf i i) []] i
  | nothing (id : ι) (x : Parser ι τ ν) (i : Nat) : Derives g (.one (.optional id x)) i [] i
  | optional (id : ι) {x : Parser ι τ ν} {i j : Nat} {xs : IRs τ} :
    Derives g (.one x) i xs j → Derives g (.one (.optional id x)) i xs j
  | zeroOrMore (id : ι) {x : Parser ι τ ν} {i j : Nat} {xs : IRs τ} :
    Derives g (.many x) i xs j → Derives g (.one (.zeroOrMore id x)) i xs j
  | and (id : ι) {first : Parser ι τ ν} {rest : List (Parser ι τ ν)} {i j : Nat} {xs : IRs τ} :
    Derives g (.all (first :: rest)) i xs j → Derives g (.one (.and id first rest)) i xs j
  | or (id : ι) {p first : Parser ι τ ν} {rest : List (Parser ι τ ν)} {i j : Nat} {xs : IRs τ} :
    p ∈ first :: rest → Derives g (.one p) i xs j → Derives g (.one (.or id first rest)) i xs j
  | not (id : ι) (x : Parser ι τ ν) (i : Nat) : Derives g (.one (.not id x)) i [] i
  | specificUntil (id : ι) {match_ x : Parser ι τ ν} {i j : Nat} {xs : IRs τ} :
    Derives g (.many match_) i xs j → Derives g (.one (.specificUntil id match_ x)) i xs j
  | zeroToM (id : ι) {n m : Nat} {x : Parser ι τ ν} {i j : Nat} {xs : IRs τ} :
    n = 0 ∨ m = 0 → Derives g (.many x) i xs j → Derives g (.one (.nToM id n m x)) i xs j
  | nToM (id : ι) (n m : Nat) {x : Parser ι τ ν} {i j k : Nat} {xs ys : IRs τ} :
    Derives g (.one x) i xs j → Derives g (.many x) j ys k →
      Derives g (.one (.nToM id n m x)) i (xs ++ ys) k
  | last (id : ι) {x : Parser ι τ ν} (moreIndicator : Parser ι τ ν) {i j : Nat} {xs : IRs τ} :
    Derives g (.one x) i xs j → Derives g (.one (.nonEmptyListOf id x moreIndicator)) i xs j
  | more (id : ι) {x moreIndicator : Parser ι τ ν} {i j k : Nat} {xs ys : IRs τ} :
    Derives g (.all [x, moreIndicator]) i xs j →
      Derives g (.one (.nonEmptyListOf id x moreIndicator)) j ys k →
        Derives g (.one (.nonEmptyListOf id x moreIndicator)) i (xs ++ ys) k
  | named (id : ι) (type : τ) (name : String) {x : Parser ι τ ν} {i j : Nat} {xs : IRs τ} :
    Derives g (.one x) i xs j → Derives g (.one (.named id type name x)) i [.composite type i xs] j
  | anon (id : ι) (name : String) {x : Parser ι τ ν} {i j : Nat} {xs : IRs τ} :
    Derives g (.one x) i xs j → Derives g (.one (.anon id name x)) i xs j
  | wrapped (id : ι) (target : String) {x : Parser ι τ ν} {i j : Nat} {xs : IRs τ} :
    Derives g (.one x) i xs j → Derives g (.one (.wrapped id target x)) i xs j
  | reference (id : ι) (target : String) {name : ν} {i j : Nat} {xs : IRs τ} :
    Derives g (.one (g.parserOf name)) i xs j → Derives g (.one (.reference id target name)) i xs j
  | allNil (i : Nat) : Derives g (.all []) i [] i
  | allCons {p : Parser ι τ ν} {ps : List (Parser ι τ ν)} {i j k : Nat} {xs ys : IRs τ} :
    Derives g (.one p) i xs j → Derives g (.all ps) j ys k → Derives g (.all (p :: ps)) i (xs ++ ys) k
  | manyNil (p : Parser ι τ ν) (i : Nat) : Derives g (.many p) i [] i
  | manyCons {p : Parser ι τ ν} {i j k : Nat} {xs ys : IRs τ} :
    Derives g (.one p) i xs j → Derives g (.many p) j ys k → Derives g (.many p) i (xs ++ ys) k

namespace Derives

variable {g : Grammar ι τ ν}

theorem tiles {goal : Goal ι τ ν} {i j : Nat} {xs : IRs τ} (h : Derives g goal i xs j) :
    Tiles i xs j := by
  induction h with
  | @leaf p i j hspan =>
    refine .single ?_
    cases p <;> simp only [Parser.Spans] at hspan <;> omega
  | endOfFile id type i => exact .node (.single (Nat.le_refl i)) (.nil i)
  | nothing id x i => exact .nil i
  | optional id _ ih => exact ih
  | zeroOrMore id _ ih => exact ih
  | and id _ ih => exact ih
  | or id _ _ ih => exact ih
  | not id x i => exact .nil i
  | specificUntil id _ ih => exact ih
  | zeroToM id _ _ ih => exact ih
  | nToM id n m _ _ ih ih' => exact ih.append ih'
  | last id x _ ih => exact ih
  | more id _ _ ih ih' => exact ih.append ih'
  | @named id type name x i j xs _ ih =>
    cases xs with
    | nil =>
      cases ih
      exact .node (.single (Nat.le_refl i)) (.nil i)
    | cons first rest => exact .node ih (.nil j)
  | anon id name _ ih => exact ih
  | wrapped id target _ ih => exact ih
  | reference id target _ ih => exact ih
  | allNil i => exact .nil i
  | allCons _ _ ih ih' => exact ih.append ih'
  | manyNil p i => exact .nil i
  | manyCons _ _ ih ih' => exact ih.append ih'

theorem le {goal : Goal ι τ ν} {i j : Nat} {xs : IRs τ} (h : Derives g goal i xs j) : i ≤ j :=
  h.tiles.le

/-! ## Going back -/

section Inversion

variable {id : ι} {x p : Parser ι τ ν} {i j : Nat} {xs : IRs τ}

theorem all_nil_iff : Derives g (.all []) i xs j ↔ xs = [] ∧ j = i := by
  refine ⟨fun h => ?_, fun ⟨hxs, hj⟩ => hxs ▸ hj ▸ .allNil _⟩
  cases h
  exact ⟨rfl, rfl⟩

theorem all_cons_iff {ps : List (Parser ι τ ν)} : Derives g (.all (p :: ps)) i xs j ↔
    ∃ ys zs k, xs = ys ++ zs ∧ Derives g (.one p) i ys k ∧ Derives g (.all ps) k zs j := by
  refine ⟨fun h => ?_, fun ⟨ys, zs, k, hxs, hp, hps⟩ => hxs ▸ .allCons hp hps⟩
  cases h with
  | allCons hp hps => exact ⟨_, _, _, rfl, hp, hps⟩

theorem all_append_iff {ps qs : List (Parser ι τ ν)} : Derives g (.all (ps ++ qs)) i xs j ↔
    ∃ ys zs k, xs = ys ++ zs ∧ Derives g (.all ps) i ys k ∧ Derives g (.all qs) k zs j := by
  induction ps generalizing i xs with
  | nil =>
    simp only [List.nil_append, all_nil_iff]
    refine ⟨fun h => ⟨[], xs, i, rfl, ⟨rfl, rfl⟩, h⟩, ?_⟩
    rintro ⟨_, zs, _, rfl, ⟨rfl, rfl⟩, h⟩
    exact h
  | cons p ps ih =>
    simp only [List.cons_append, all_cons_iff]
    refine ⟨?_, ?_⟩
    · rintro ⟨ys, _, k, rfl, hp, hrest⟩
      obtain ⟨zs, ws, l, rfl, hps, hqs⟩ := ih.mp hrest
      exact ⟨ys ++ zs, ws, l, (List.append_assoc ..).symm, ⟨ys, zs, k, rfl, hp, hps⟩, hqs⟩
    · rintro ⟨_, ws, l, rfl, ⟨ys, zs, k, rfl, hp, hps⟩, hqs⟩
      exact ⟨ys, zs ++ ws, k, List.append_assoc .., hp, ih.mpr ⟨zs, ws, l, rfl, hps, hqs⟩⟩

theorem and_iff {rest : List (Parser ι τ ν)} :
    Derives g (.one (.and id p rest)) i xs j ↔ Derives g (.all (p :: rest)) i xs j := by
  refine ⟨fun h => ?_, .and id⟩
  cases h with
  | leaf hspan => cases hspan
  | and _ h => exact h

theorem or_iff {rest : List (Parser ι τ ν)} : Derives g (.one (.or id p rest)) i xs j ↔
    ∃ q ∈ p :: rest, Derives g (.one q) i xs j := by
  refine ⟨fun h => ?_, fun ⟨q, hq, h⟩ => .or id hq h⟩
  cases h with
  | leaf hspan => cases hspan
  | or _ hq h => exact ⟨_, hq, h⟩

theorem literal_iff {text : String} : Derives g (.one (.literal id text)) i xs j ↔
    xs = [.leaf i j] ∧ j = i + text.toList.length := by
  refine ⟨fun h => ?_, fun ⟨hxs, hj⟩ => hxs ▸ .leaf hj⟩
  cases h with
  | leaf hspan => exact ⟨rfl, hspan⟩

end Inversion

/-! ## What is not read -/

end Derives

/-! ## What is parsed is derived -/

/-- What the member functions and their loops return, if they succeed. -/
def Derived (g : Grammar ι τ ν) : Query ι τ ν → ParseResult ι τ ν → Prop
  | .parse p position, r | .parse_ p position, r => ∀ v, r = .ok v →
    Derives g (.one p) position v.1 v.2
  | .zeroOrMore x result, r | .specificUntil x _ result, r => ∀ v, r = .ok v →
    ∃ ys, v.1 = result.1 ++ ys ∧ Derives g (.many x) result.2 ys v.2
  | .nonEmptyListOf x moreIndicator result, r => ∀ v, r = .ok v → ∀ id,
    ∃ ys, v.1 = result.1 ++ ys ∧ Derives g (.one (.nonEmptyListOf id x moreIndicator)) result.2 ys v.2
  | .anyUntil _ start end_, r | .balanced _ _ start end_, r => ∀ v, r = .ok v →
    v.1 = [.leaf start v.2] ∧ end_ ≤ v.2

variable {g : Grammar ι τ ν} {text : List Char} {irsAtEnd : Bool}

section Calls

variable {α : Type} {post : α → Prop} {f : ParseResult ι τ ν → Member ι τ ν α}

theorem derived_parse {x : Parser ι τ ν} {position : Nat}
    (hok : ∀ v, Derives g (.one x) position v.1 v.2 → (f (.ok v)).Ends (Derived g) post)
    (herror : ∀ e, (f (.error e)).Ends (Derived g) post) :
    (parse x position >>= f).Ends (Derived g) post := by
  intro r hr
  cases r with
  | ok v => exact hok v (hr v rfl)
  | error e => exact herror e

theorem derived_parse_ {x : Parser ι τ ν} {position : Nat}
    (hok : ∀ v, Derives g (.one x) position v.1 v.2 → (f (.ok v)).Ends (Derived g) post)
    (herror : ∀ e, (f (.error e)).Ends (Derived g) post) :
    (parse_ x position >>= f).Ends (Derived g) post :=
  derived_parse hok herror

end Calls

/-- A result that is derived, if it is one. -/
def DerivedFrom (g : Grammar ι τ ν) (goal : Goal ι τ ν) (position : Nat) (before : IRs τ)
    (r : ParseResult ι τ ν) : Prop :=
  ∀ v, r = .ok v → ∃ ys, v.1 = before ++ ys ∧ Derives g goal position ys v.2

theorem derived_parseChar {p : Parser ι τ ν} {position : Nat} {unexpected : Char → Option Cause}
    (hp : p.Spans position (position + 1)) :
    ∀ v, (parseChar text position unexpected : ParseResult ι τ ν) = .ok v →
      Derives g (.one p) position v.1 v.2 := by
  intro v hv
  rw [parseChar] at hv
  split at hv
  · cases hv
  · split at hv
    · cases hv
    · cases hv
      exact .leaf hp

theorem mismatch_eq {start position : Nat} {x : List Char} {v : PV τ}
    (hv : (mismatch text start x position : ParseResult ι τ ν) = .ok v) :
    v = ([.leaf start (position + x.length)], position + x.length) := by
  induction x generalizing position with
  | nil =>
    cases hv
    rfl
  | cons wanted x ih =>
    rw [mismatch] at hv
    split at hv
    · cases hv
    · split at hv
      · rw [ih hv, List.length_cons, Nat.add_right_comm, Nat.add_assoc]
      · cases hv

theorem derived_parseIdentifier {id : ι} {position : Nat} {v : PV τ}
    (hv : (parseIdentifier text position : ParseResult ι τ ν) = .ok v) :
    Derives g (.one (.identifier id)) position v.1 v.2 := by
  rw [parseIdentifier] at hv
  split at hv
  · cases hv
  · split at hv
    · cases hv
      refine .leaf ?_
      simp only [Parser.Spans]
      omega
    · cases hv

theorem derived_parseEndOfFile {id : ι} {type : τ} {position : Nat} {v : PV τ}
    (hv : (parseEndOfFile text type position : ParseResult ι τ ν) = .ok v) :
    Derives g (.one (.endOfFile id type)) position v.1 v.2 := by
  rw [parseEndOfFile] at hv
  split at hv
  · cases hv
  · cases hv
    exact .endOfFile id type position

theorem delimeter_le_of_ok {n i j : Nat}
    (h : (delimeter text n i : Except (Exception ι τ ν) Nat) = .ok j) : i ≤ j := by
  induction n generalizing i with
  | zero =>
    rw [delimeter] at h
    split at h
    · cases h
    · split at h <;> cases h
      exact le_rfl
  | succ n ih =>
    rw [delimeter] at h
    split at h
    · cases h
    · split_ifs at h
      · cases h
        exact le_rfl
      · exact Nat.le_of_succ_le (ih h)

theorem derived_parseRawString {id : ι} {o : Parser ι τ ν} {position i : Nat} (hle : position ≤ i) :
    (parseRawString text id position i : Member ι τ ν _).Ends (Derived g) fun r =>
      ∀ v, r = .ok v → Derives g (.one (.rawString id o)) position v.1 v.2 := by
  rw [parseRawString]
  split
  · exact fun v hv => by cases hv
  · rename_i j hj
    have hij := delimeter_le_of_ok hj
    refine derived_parse_ (fun rr hrr => ?_) fun e v hv => by cases hv
    refine derived_parse_ (fun rrr hrrr => ?_) fun e v hv => by cases hv
    rintro v ⟨⟩
    refine .leaf ?_
    have hquote := (Derives.literal_iff.mp hrrr).2
    have hrr' : j ≤ rr.2 := hrr.le
    simp only [String.toList_ofList, List.cons_append, List.length_cons] at hquote
    change position < rrr.2
    omega

theorem derived_parseAnd (terms : List (Parser ι τ ν)) (result : PV τ) :
    (parseAnd irsAtEnd terms result).Ends (Derived g)
      (DerivedFrom g (.all terms) result.2 result.1) := by
  induction terms generalizing result with
  | nil =>
    rintro v ⟨⟩
    exact ⟨[], (List.append_nil _).symm, .allNil _⟩
  | cons term terms ih =>
    rw [parseAnd]
    refine derived_parse (fun br hbr => ?_) fun e v hv => by cases hv
    refine (ih _).mono fun r hr v hv => ?_
    obtain ⟨ys, hys, hrest⟩ := hr v hv
    exact ⟨br.1 ++ ys, by rw [hys, List.append_assoc], .allCons hbr hrest⟩

theorem derived_parseOr {position : Nat} (terms : List (Parser ι τ ν)) (e : Exception ι τ ν) :
    (parseOr position terms e).Ends (Derived g) fun r => ∀ v, r = .ok v →
      ∃ p ∈ terms, Derives g (.one p) position v.1 v.2 := by
  induction terms generalizing e with
  | nil => exact fun v hv => nomatch hv
  | cons term terms ih =>
    rw [parseOr]
    refine derived_parse (fun r hr => ?_) fun e' => (ih _).mono fun r hr v hv => ?_
    · rintro v ⟨⟩
      exact ⟨term, List.mem_cons_self .., hr⟩
    · obtain ⟨p, hp, h⟩ := hr v hv
      exact ⟨p, List.mem_cons_of_mem _ hp, h⟩

theorem derived_parseNToM {n : Nat} {x : Parser ι τ ν} (k count : Nat) (result : PV τ) :
    (parseNToM n x k count result).Ends (Derived g) fun r =>
      DerivedFrom g (.many x) result.2 result.1 r ∧
        ∀ v, r = .ok v → count < n → 0 < k →
          ∃ xs ys i, v.1 = result.1 ++ (xs ++ ys) ∧ Derives g (.one x) result.2 xs i ∧
            Derives g (.many x) i ys v.2 := by
  have hstop : ∀ result : PV τ, DerivedFrom g (.many x) result.2 result.1 (.ok result) := by
    rintro result v ⟨⟩
    exact ⟨[], (List.append_nil _).symm, .manyNil x _⟩
  induction k generalizing count result with
  | zero => exact And.intro (hstop result) fun _ _ _ h => absurd h (Nat.lt_irrefl 0)
  | succ k ih =>
    rw [parseNToM]
    refine derived_parse (fun r hr => (ih _ _).mono fun r' hr' => ?_) fun e => ?_
    · refine ⟨fun v hv => ?_, fun v hv _ _ => ?_⟩ <;> obtain ⟨ys, hys, hmany⟩ := hr'.1 v hv
      · exact ⟨r.1 ++ ys, by rw [hys, List.append_assoc], .manyCons hr hmany⟩
      · exact ⟨r.1, ys, r.2, by rw [hys, List.append_assoc], hr, hmany⟩
    · simp only
      split
      · rename_i hcount
        exact ⟨hstop result, fun v hv hlt => absurd hlt (Nat.not_lt_of_ge hcount)⟩
      · exact ⟨fun v hv => (by cases hv), fun v hv => (by cases hv)⟩

theorem derived_makeNamed {id : ι} {type : τ} {name : String} {x : Parser ι τ ν} {position : Nat}
    {a v : PV τ} (ha : Derives g (.one x) position a.1 a.2)
    (hv : (makeNamed g type position a : ParseResult ι τ ν) = .ok v) :
    Derives g (.one (.named id type name x)) position v.1 v.2 := by
  obtain ⟨items, end_⟩ := a
  have hnamed := Derives.named id type name ha
  rw [makeNamed] at hv
  cases items with
  | nil =>
    simp only at hv
    split at hv <;> cases hv
    exact hnamed
  | cons first rest =>
    simp only at hv
    split at hv <;> cases hv
    exact hnamed

/-- Where one turn of `balanced` gets to. -/
theorem derived_parseBalancedTurn {id : ι} {angles : Bool} {end_ : Nat} {c : Char} :
    (parseBalancedTurn g text irsAtEnd id angles end_ c).Ends (Derived g) fun r =>
      ∀ i, r = .ok i → end_ ≤ i := by
  have hcall : ∀ p : Parser ι τ ν, (parse_ p end_ >>= fun r => pure (r.map Prod.snd) :
      Member ι τ ν (Except (Exception ι τ ν) Nat)).Ends (Derived g)
        fun r => ∀ i, r = .ok i → end_ ≤ i := by
    refine fun p => derived_parse_ (fun v hv => ?_) fun e i hi => by cases hi
    rintro i ⟨⟩
    exact hv.le
  rw [parseBalancedTurn]
  split_ifs
  · exact hcall _
  · have hquoted : (parseQuoted g irsAtEnd id end_).Ends (Derived g) fun r : ParseResult ι τ ν =>
        ∀ v, r = .ok v → end_ ≤ v.2 := by
      rw [parseQuoted]
      refine derived_parse_ (fun first hfirst => ?_) fun e v hv => by cases hv
      refine derived_parse (fun c hc => ?_) fun e v hv => by cases hv
      refine derived_parse_ (fun last hlast => ?_) fun e v hv => by cases hv
      rintro v ⟨⟩
      exact hfirst.le.trans (hc.le.trans hlast.le)
    refine hquoted.bind fun r hr i hi => ?_
    cases r with
    | ok v =>
      cases hi
      exact hr v rfl
    | error e => cases hi
  · exact hcall _
  · refine derived_parse_ (fun v hv => ?_) fun e => ?_
    · rintro i ⟨⟩
      exact hv.le
    · rintro i ⟨⟩
      exact Nat.le_succ end_
  · split
    · refine derived_parse_ (fun v hv => ?_) fun e i hi => by cases hi
      rintro i ⟨⟩
      have hle : end_ + 1 ≤ v.2 := hv.le
      omega
    · rintro i ⟨⟩
      exact Nat.le_succ end_

theorem derived_parseClass (p : Parser ι τ ν) (position : Nat) :
    (parseClass g text irsAtEnd p position).Ends (Derived g) fun r =>
      ∀ v, r = .ok v → Derives g (.one p) position v.1 v.2 := by
  have hsame : ∀ (goal : Goal ι τ ν) (r : ParseResult ι τ ν), DerivedFrom g goal position [] r →
      ∀ v, r = .ok v → Derives g goal position v.1 v.2 := by
    intro goal r hr v hv
    obtain ⟨ys, hys, h⟩ := hr v hv
    rw [List.nil_append] at hys
    exact hys ▸ h
  cases p with
  | anyChar id => exact derived_parseChar rfl
  | oneOfChars id chars => exact derived_parseChar rfl
  | anyCharExcept id chars => exact derived_parseChar rfl
  | charInRange id min max => exact derived_parseChar rfl
  | literal id x =>
    intro v hv
    rw [mismatch_eq hv]
    exact .leaf rfl
  | identifier id => exact fun v hv => derived_parseIdentifier hv
  | hash id => exact derived_parseChar rfl
  | rawString id o =>
    exact derived_parse (fun r hr => derived_parseRawString hr.le) fun e v hv => nomatch hv
  | endOfFile id type => exact fun v hv => derived_parseEndOfFile hv
  | optional id x =>
    refine derived_parse (fun r hr => ?_) fun e => ?_
    · rintro v ⟨⟩
      exact .optional id hr
    · rintro v ⟨⟩
      exact .nothing id x position
  | zeroOrMore id x =>
    intro r hr v hv
    exact .zeroOrMore id (hsame _ r hr v hv)
  | and id first rest =>
    exact (derived_parseAnd (first :: rest) ([], position)).mono fun r hr v hv =>
      .and id (hsame _ r hr v hv)
  | or id first rest =>
    refine derived_parse (fun r hr => ?_) fun e => (derived_parseOr rest e).mono fun r hr v hv => ?_
    · rintro v ⟨⟩
      exact .or id (List.mem_cons_self ..) hr
    · obtain ⟨p, hp, h⟩ := hr v hv
      exact .or id (List.mem_cons_of_mem _ hp) h
  | not id x =>
    refine derived_parse (fun r hr v hv => nomatch hv) fun e => ?_
    rintro v ⟨⟩
    exact .not id x position
  | anyUntil id x =>
    intro r hr v hv
    obtain ⟨hitems, hle⟩ := hr v hv
    exact hitems ▸ .leaf hle
  | specificUntil id match_ x =>
    intro r hr v hv
    exact .specificUntil id (hsame _ r hr v hv)
  | balanced id until_ angles =>
    intro r hr v hv
    obtain ⟨hitems, hle⟩ := hr v hv
    exact hitems ▸ .leaf hle
  | nToM id n m x =>
    refine (derived_parseNToM m 0 ([], position)).mono fun r hr v hv => ?_
    by_cases hzero : n = 0 ∨ m = 0
    · exact .zeroToM id hzero (hsame _ r hr.1 v hv)
    · obtain ⟨xs, ys, i, hitems, hx, hmany⟩ := hr.2 v hv (by omega) (by omega)
      rw [List.nil_append] at hitems
      exact hitems ▸ .nToM id n m hx hmany
  | nonEmptyListOf id x moreIndicator =>
    intro r hr v hv
    obtain ⟨ys, hys, h⟩ := hr v hv id
    rw [List.nil_append] at hys
    exact hys ▸ h
  | named id type name x =>
    exact derived_parse (fun a ha v hv => derived_makeNamed ha hv) fun e v hv => nomatch hv
  | anon id name x => exact fun r hr v hv => .anon id name (hr v hv)
  | wrapped id target x => exact fun r hr v hv => .wrapped id target (hr v hv)
  | reference id target name => exact fun r hr v hv => .reference id target (hr v hv)

theorem derived_body (q : Query ι τ ν) : (body g text irsAtEnd q).Ends (Derived g) (Derived g q) := by
  cases q with
  | parse p position =>
    refine derived_parse_ (fun v hv => ?_) fun e v hv => nomatch hv
    rintro _ ⟨⟩
    exact hv
  | parse_ p position => exact derived_parseClass p position
  | zeroOrMore x result =>
    refine derived_parse (fun r hr r' hr' v hv => ?_) fun e => ?_
    · obtain ⟨ys, hys, hmany⟩ := hr' v hv
      exact ⟨r.1 ++ ys, by rw [hys, List.append_assoc], .manyCons hr hmany⟩
    · rintro v ⟨⟩
      exact ⟨[], (List.append_nil _).symm, .manyNil x _⟩
  | anyUntil x start end_ =>
    refine derived_parse_ (fun r hr => ?_) fun e => ?_
    · rintro v ⟨⟩
      exact ⟨rfl, Nat.le_refl end_⟩
    · simp only
      split
      · exact fun v hv => nomatch hv
      · intro r hr v hv
        exact ⟨(hr v hv).1, Nat.le_of_succ_le (hr v hv).2⟩
  | specificUntil match_ x result =>
    refine derived_parse_ (fun r hr => ?_) fun e => ?_
    · rintro v ⟨⟩
      exact ⟨[], (List.append_nil _).symm, .manyNil match_ _⟩
    · refine derived_parse_ (fun r hr r' hr' v hv => ?_) fun e v hv => nomatch hv
      obtain ⟨ys, hys, hmany⟩ := hr' v hv
      exact ⟨r.1 ++ ys, by rw [hys, List.append_assoc], .manyCons hr hmany⟩
  | balanced until_ angles start end_ =>
    refine derived_parse_ (fun r hr => ?_) fun e => ?_
    · rintro v ⟨⟩
      exact ⟨rfl, Nat.le_refl end_⟩
    · simp only
      split
      · exact fun v hv => nomatch hv
      · refine derived_parseBalancedTurn.bind fun r hr => ?_
        cases r with
        | error e => exact fun v hv => nomatch hv
        | ok i =>
          intro r' hr' v hv
          exact ⟨(hr' v hv).1, (hr i rfl).trans (hr' v hv).2⟩
  | nonEmptyListOf x moreIndicator result =>
    refine derived_parse (fun r hr => ?_) fun e v hv => nomatch hv
    refine derived_parse (fun more hmore r' hr' v hv id => ?_) fun e => ?_
    · obtain ⟨ys, hys, h⟩ := hr' v hv id
      refine ⟨r.1 ++ more.1 ++ ys, by simp only [hys, List.append_assoc], .more id ?_ h⟩
      have hpair := Derives.allCons hr (.allCons hmore (.allNil more.2))
      rwa [List.append_nil] at hpair
    · rintro v ⟨⟩ id
      exact ⟨r.1, rfl, .last id moreIndicator hr⟩

/-- What is parsed is derived. -/
theorem Derives.of_answers {p : Parser ι τ ν} {position : Nat} {v : PV τ}
    (h : Answers (body g text irsAtEnd) (.parse p position) (.ok v)) :
    Derives g (.one p) position v.1 v.2 :=
  h.of_ends derived_body v rfl

end Urnest.Hcp
