import Urnest.Utf8.CodePoint

/-!
# Strings in UTF-8

`Utf8String` decodes the text that it is made of, character by character, and keeps what
the encoder makes of them, with their number. Made again of what it keeps it is the same
(`validate_value`).
-/

namespace Urnest.Utf8

theorem Reads.length_lt {i rest : List UInt8} {n : Nat} (h : Reads i n rest) :
    rest.length < i.length := by
  cases h with
  | one => simp
  | two => simp only [List.length_cons]; omega
  | three => simp only [List.length_cons]; omega
  | four => simp only [List.length_cons]; omega

theorem length_lt_of_decodeCodePoint {i rest : List UInt8} {c : UInt32}
    (h : decodeCodePoint i = .ok (c, rest)) : rest.length < i.length :=
  (decodeCodePoint_eq_ok.mp h).1.length_lt

/-- The loop of `validate`: the characters encoded again, and their number -/
def validate (i : List UInt8) : Result (List UInt8 × Nat) :=
  if i = [] then .ok ([], 0)
  else match _hstep : decodeCodePoint i with
    | .error e => .error e
    | .ok (c, rest) => do
      let bytes ← encodeCodePoint c
      let (others, size) ← validate rest
      return (bytes ++ others, size + 1)
termination_by i.length
decreasing_by exact length_lt_of_decodeCodePoint _hstep

/-- `value_` -/
structure Utf8String where
  value : List UInt8
  size : Nat
  /-- it is what `validate` makes of some text -/
  validated : ∃ text, validate text = .ok (value, size)

/-- The constructor -/
def Utf8String.make (text : List UInt8) : Result Utf8String :=
  match h : validate text with
  | .ok (value, size) => .ok ⟨value, size, text, h⟩
  | .error e => .error e

/-- The characters of a text -/
inductive Characters : List UInt8 → Nat → Prop where
  | nil : Characters [] 0
  | cons {c : UInt32} {bytes rest : List UInt8} {size : Nat} : encodeCodePoint c = .ok bytes →
    Characters rest size → Characters (bytes ++ rest) (size + 1)

theorem characters_of_validate {i value : List UInt8} {size : Nat}
    (h : validate i = .ok (value, size)) : Characters value size := by
  induction hlength : i.length using Nat.strongRecOn generalizing i value size with
  | _ n ih =>
    rw [validate] at h
    split_ifs at h with hi
    · cases h
      exact .nil
    · split at h
      · cases h
      next c rest hstep =>
        cases hbytes : encodeCodePoint c with
        | error e => rw [hbytes] at h; cases h
        | ok bytes =>
          cases hrest : validate rest with
          | error e => rw [hbytes, hrest] at h; cases h
          | ok others =>
            rw [hbytes, hrest] at h
            cases h
            have hlt := length_lt_of_decodeCodePoint hstep
            exact .cons hbytes (ih rest.length (hlength ▸ hlt) hrest rfl)

theorem encodeCodePoint_ne_nil {c : UInt32} {bytes : List UInt8}
    (h : encodeCodePoint c = .ok bytes) : bytes ≠ [] := by
  rintro rfl
  have hread := length_lt_of_decodeCodePoint (decodeCodePoint_encode h [])
  simp at hread

theorem Characters.validate_eq {value : List UInt8} {size : Nat} (h : Characters value size) :
    validate value = .ok (value, size) := by
  induction h with
  | nil => rw [validate, if_pos rfl]
  | @cons c bytes rest size hbytes _ ih =>
    have hne : bytes ++ rest ≠ [] := by simp [encodeCodePoint_ne_nil hbytes]
    have hread := decodeCodePoint_encode hbytes rest
    rw [validate, if_neg hne]
    split
    next e hstep => rw [hread] at hstep; cases hstep
    next c' rest' hstep =>
      rw [hread] at hstep
      cases hstep
      rw [hbytes, ih]
      rfl

theorem Utf8String.characters (s : Utf8String) : Characters s.value s.size := by
  obtain ⟨_, _, text, h⟩ := s
  exact characters_of_validate h

theorem Characters.append {value value' : List UInt8} {size size' : Nat} (h : Characters value size)
    (h' : Characters value' size') : Characters (value ++ value') (size + size') := by
  induction h with
  | nil => rwa [List.nil_append, Nat.zero_add]
  | cons hbytes _ ih =>
    rw [List.append_assoc, Nat.add_right_comm]
    exact .cons hbytes ih

theorem Characters.single {c : UInt32} {bytes : List UInt8} (h : encodeCodePoint c = .ok bytes) :
    Characters bytes 1 := by
  have hcons := Characters.cons h .nil
  rwa [List.append_nil] at hcons

/-- A string with these characters -/
def Utf8String.ofCharacters {value : List UInt8} {size : Nat} (h : Characters value size) :
    Utf8String := ⟨value, size, value, h.validate_eq⟩

/-- `Utf8String("")` -/
def Utf8String.empty : Utf8String := .ofCharacters .nil

/-- `operator+` -/
instance : Append Utf8String where
  append x y := .ofCharacters (x.characters.append y.characters)

@[simp] theorem Utf8String.value_append (x y : Utf8String) : (x ++ y).value = x.value ++ y.value := rfl

theorem Utf8String.make_of_characters {value : List UInt8} {size : Nat} (h : Characters value size) :
    ∃ s, make value = .ok s ∧ s.value = value := by
  rw [make]
  split
  next v n hok =>
    rw [h.validate_eq] at hok
    cases hok
    exact ⟨_, rfl, rfl⟩
  next e herror =>
    rw [h.validate_eq] at herror
    cases herror

/-- A character that begins with a byte of ASCII is that byte. -/
theorem ascii_of_encode {c : UInt32} {b : UInt8} {t : List UInt8}
    (h : encodeCodePoint c = .ok (b :: t)) (hb : b < 0x80) : c = b.toUInt32 ∧ t = [] := by
  have hread := decodeCodePoint_encode h []
  rw [List.cons_append, decodeCodePoint_one hb] at hread
  obtain ⟨hc, ht⟩ := Prod.mk.inj (Except.ok.inj hread)
  exact ⟨hc.symm, List.append_eq_nil_iff.mp ht |>.1⟩

theorem Utf8String.validate_value (s : Utf8String) : validate s.value = .ok (s.value, s.size) :=
  s.characters.validate_eq

theorem Utf8String.make_value (s : Utf8String) : make s.value = .ok s := by
  rw [make]
  split
  next value size h =>
    rw [s.validate_value] at h
    cases h
    rfl
  next e h =>
    rw [s.validate_value] at h
    cases h

end Urnest.Utf8
