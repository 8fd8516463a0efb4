import Urnest.Snmp.Locality

/-!
# Indefinite length

An element may have the length `80` and two zero bytes behind its content. Of the decoders that
read such elements, the one of a variable skips the zero bytes, and so it reads the same as from
the definite form. The others do not get there: identifiers and nulls look for the wrong bytes,
a marker refuses the form, and the loop over the variables stops in front of the zero bytes.
-/

namespace Urnest.Snmp

open DecodeIterator Lib

variable {data data' : List UInt8} {i : DecodeIterator data} {j : DecodeIterator data'}

/-! ## The elements -/

/-- The elements that may have an indefinite length, and of those that are sequences the ones
behind which the decoder goes on -/
inductive Element where
  | oid
  | null
  /-- the sequence of a variable, in a request, a trap or a V1 response -/
  | var
  /-- the sequence of a variable, in a V2c response or a V3 message -/
  | snmpVar
  | vars
  | snmpVars
  | pdu

def Element.Value : Element → Type
  | oid => Oid
  | null => Snmp.Value
  | var => Oid × Snmp.Value
  | snmpVar => SnmpVar
  | vars => List (Oid × Snmp.Value)
  | snmpVars => List SnmpVar
  | pdu => PDU

def Element.decode : (x : Element) → DecodeIterator data → Result (x.Value × DecodeIterator data)
  | oid => decodeOidValue
  | null => decodeValue
  | var => decodeVar
  | snmpVar => decodeSnmpVar
  | vars => decodeVars decodeVar
  | snmpVars => decodeVars decodeSnmpVar
  | pdu => decodePDU

/-- The type bytes of a value are looked at, those of a sequence are not. -/
def Element.HasType : Element → UInt8 → Prop
  | oid, t => t = 0x06
  | null, t => t = 0x05
  | _, _ => True

/-- `length` stands for the number of bytes in `content`. -/
def DefiniteLength (length content : List UInt8) : Prop :=
  ∃ n : UInt64, n.toNat = content.length ∧
    decodeLength (start (length ++ content)) =
      .ok (some n, (start (length ++ content)).past length.length)

/-- The element with this content is read as `v` in definite form. -/
def Element.Accepts (x : Element) (t : UInt8) (content : List UInt8) (v : x.Value) : Prop :=
  x.HasType t ∧ ∃ length, DefiniteLength length content ∧
    x.decode (start (t :: length ++ content)) =
      .ok (v, (start (t :: length ++ content)).past (t :: length ++ content).length)

def indefinite (t : UInt8) (content : List UInt8) : List UInt8 := t :: 0x80 :: content ++ [0, 0]

/-- The iterator at the element, between other bytes -/
def place (before after : List UInt8) (t : UInt8) (content : List UInt8) :
    DecodeIterator (before ++ indefinite t content ++ after) :=
  (start _).past before.length

/-- Wherever the element stands in indefinite form, it is read as `v`, and the iterator is just
after the two zero bytes. -/
def Element.AcceptsIndefinite (x : Element) (t : UInt8) (content : List UInt8) (v : x.Value) :
    Prop :=
  ∀ before after, x.decode (place before after t content) =
    .ok (v, (place before after t content).past (indefinite t content).length)

/-! ## The headers -/

theorem header_definite {t : UInt8} {length content : List UInt8}
    (h : DefiniteLength length content) :
    let i := start (t :: length ++ content)
    ∃ n, decodeSequenceTypeAndLength i = .ok ((t, some n), i.past (1 + length.length)) ∧
      (i.past (1 + length.length)).rest = content := by
  obtain ⟨n, -, hlength⟩ := h
  intro i
  have hrest : i.rest = t :: (length ++ content) := rfl
  have hone : (i.past 1).rest = length ++ content := by
    rw [rest_past, hrest, List.drop_one, List.tail_cons]
  have hreads : (i.past 1).Reads (start (length ++ content)).rest := by
    rw [Reads, hone]
    exact List.prefix_rfl
  obtain ⟨m, hm, hpast, hcarried⟩ := carries_length hreads _ _ hlength
  have hle : length.length ≤ (start (length ++ content)).remaining := by simp [remaining, start]
  rw [← (past_inj hle hm).mp hpast, past_past] at hcarried
  refine ⟨n, ?_, ?_⟩
  · have hplus : i.plus 1 = .ok (i.past 1) := plus_of_le (n := 1) (by simp [i, remaining, start])
    rw [decodeSequenceTypeAndLength, deref_of_cons hrest, Run.ok_bind, hplus, Run.ok_bind, hcarried]
    rfl
  · rw [← past_past, rest_past, hone, List.drop_left]

theorem length_indefinite {t : UInt8} {bs : List UInt8} (h : i.Reads (t :: 0x80 :: bs)) :
    i.plus 1 >>= decodeLength = .ok (none, i.past 2) := by
  have hlength := (Reads.cons.mp h).2
  rw [h.plus_one, Run.ok_bind, decodeLength, hlength.head, Run.ok_bind, if_neg (by decide),
    if_pos rfl, hlength.plus_one, Run.ok_bind, past_past]
  rfl

theorem header_indefinite {t : UInt8} {bs : List UInt8} (h : i.Reads (t :: 0x80 :: bs)) :
    decodeSequenceTypeAndLength i = .ok ((t, none), i.past 2) := by
  rw [decodeSequenceTypeAndLength, h.head, Run.ok_bind, length_indefinite h]
  rfl

theorem reads_content_indefinite {t : UInt8} {content after : List UInt8}
    (h : i.rest = indefinite t content ++ after) :
    i.Reads (t :: 0x80 :: content) ∧ (i.past 2).Reads content ∧
      content.length + 4 ≤ i.remaining := by
  have hsplit : i.rest = (t :: 0x80 :: content) ++ ([0, 0] ++ after) := by
    rw [h, indefinite, List.append_assoc]
  have hreads := (reads_of_rest hsplit).1
  have hcontent : i.Reads ([t, 0x80] ++ content) := hreads
  refine ⟨hreads, (Reads.append.mp hcontent).2, ?_⟩
  rw [← length_rest, hsplit]
  simp

/-! ## Identifiers and nulls -/

theorem decodeOidValue_indefinite {t : UInt8} {bs : List UInt8} (h : i.Reads (t :: 0x80 :: bs))
    (r : Oid × DecodeIterator data) : decodeOidValue i ≠ .ok r := by
  intro hr
  obtain ⟨_, -, hr⟩ := Run.bind_eq_ok.mp hr
  rw [length_indefinite h, Run.ok_bind] at hr
  obtain ⟨first, -, hr⟩ := Run.bind_eq_ok.mp hr
  split at hr
  · cases hr
  · obtain ⟨k, -, hr⟩ := Run.bind_eq_ok.mp hr
    have hrem : k.remaining < data.length + 1 := by
      rw [remaining]
      omega
    rw [collect_indefinite (i.past 2) hrem] at hr
    cases hr

theorem decodeValue_null_indefinite {bs : List UInt8} (h : i.Reads (0x05 :: 0x80 :: bs))
    (r : Value × DecodeIterator data) : decodeValue i ≠ .ok r := by
  intro hr
  rw [decodeValue, h.head, Run.ok_bind, if_pos rfl] at hr
  obtain ⟨k, hk, -⟩ := Run.bind_eq_ok.mp hr
  rw [decodeNull, length_indefinite h, Run.ok_bind] at hk
  exact not_nullIndefinite (n := 2) hk

/-! ## The sequence of a variable -/

variable {content : List UInt8}

/-- The value of a variable is followed by the two zero bytes. -/
theorem decodeVarValue_indefinite {length : UInt64} {oid : Oid} {v : Oid × Value} {n : Nat}
    (hi : i.rest = content) (hj : j.Reads content) (hrem : content.length + 2 ≤ j.remaining)
    (hn : n ≤ i.remaining)
    (h : decodeVarValue (some length) (oid, i.past n) = .ok (v, i.past content.length)) :
    decodeVarValue none (oid, j.past n) = .ok (v, j.past (content.length + 2)) := by
  have hlen : i.remaining = content.length := by rw [← length_rest, hi]
  obtain ⟨⟨value, k⟩, hvalue, h⟩ := Run.bind_eq_ok.mp h
  obtain ⟨_, hk, h⟩ := Run.bind_eq_ok.mp h
  cases hk
  cases h
  have hend : i.past content.length = (i.past n).past (i.past n).remaining := by
    rw [past_past, remaining_past, hlen, Nat.add_sub_cancel' (hlen ▸ hn)]
  have hreads : j.Reads i.rest := hi ▸ hj
  have hcarried := carriesToEnd_value (hreads.rest_past n) value (hend ▸ hvalue)
  rw [past_past, remaining_past, hlen, Nat.add_sub_cancel' (hlen ▸ hn)] at hcarried
  have hplus : (j.past content.length).plus 2 = .ok (j.past (content.length + 2)) := by
    rw [← past_past]
    exact plus_of_le (n := 2) (by rw [remaining_past]; omega)
  rw [decodeVarValue, hcarried, Run.ok_bind]
  exact congrArg (· >>= fun i => pure ((oid, value), i)) hplus

theorem decodeVar_indefinite {t : UInt8} {length : UInt64} {v : Oid × Value}
    {i₀ : DecodeIterator data} {j₀ : DecodeIterator data'}
    (hi₀ : decodeSequenceTypeAndLength i₀ = .ok ((t, some length), i))
    (hj₀ : decodeSequenceTypeAndLength j₀ = .ok ((t, none), j))
    (hi : i.rest = content) (hj : j.Reads content) (hrem : content.length + 2 ≤ j.remaining)
    (h : decodeVar i₀ = .ok (v, i.past content.length)) :
    decodeVar j₀ = .ok (v, j.past (content.length + 2)) := by
  rw [decodeVar, hi₀, Run.ok_bind] at h
  obtain ⟨⟨oid, k⟩, hoid, h⟩ := Run.bind_eq_ok.mp h
  obtain ⟨n, hn, rfl, hoid'⟩ := carries_oid (hi ▸ hj : j.Reads i.rest) oid k hoid
  rw [decodeVar, hj₀, Run.ok_bind, hoid', Run.ok_bind]
  exact decodeVarValue_indefinite hi hj hrem hn h

/-- In a V2c response a variable is like that if it has a value; a marker has to have a length
before it. -/
theorem decodeSnmpVar_indefinite {t : UInt8} {length : UInt64} {v : SnmpVar}
    {i₀ : DecodeIterator data} {j₀ : DecodeIterator data'}
    (hi₀ : decodeSequenceTypeAndLength i₀ = .ok ((t, some length), i))
    (hj₀ : decodeSequenceTypeAndLength j₀ = .ok ((t, none), j))
    (hlength : j₀.plus 1 >>= decodeLength = .ok (none, j))
    (hi : i.rest = content) (hj : j.Reads content) (hrem : content.length + 2 ≤ j.remaining)
    (h : decodeSnmpVar i₀ = .ok (v, i.past content.length)) :
    if v.value.isRight then decodeSnmpVar j₀ = .ok (v, j.past (content.length + 2))
    else ∀ r, decodeSnmpVar j₀ ≠ .ok r := by
  rw [decodeSnmpVar, hi₀, Run.ok_bind] at h
  obtain ⟨⟨oid, k⟩, hoid, h⟩ := Run.bind_eq_ok.mp h
  have hreads : j.Reads i.rest := hi ▸ hj
  obtain ⟨n, hn, rfl, hoid'⟩ := carries_oid hreads oid k hoid
  obtain ⟨b, hb, h⟩ := Run.bind_eq_ok.mp h
  have hb' := (hreads.rest_past n).deref hb
  rw [decodeSnmpVar, hj₀, Run.ok_bind, hoid', Run.ok_bind, hb', Run.ok_bind]
  cases hm : Marker.ofType? b with
  | some m =>
    rw [hm] at h
    obtain ⟨l, -, h⟩ := Run.bind_eq_ok.mp h
    have hleft : v.value.isRight = false := by
      split at h
      · cases h
      · obtain ⟨_, -, h⟩ := Run.bind_eq_ok.mp h
        cases h
        rfl
    rw [hleft, if_neg Bool.false_ne_true]
    intro r hr
    dsimp only at hr
    rw [hlength] at hr
    cases hr
  | none =>
    rw [hm] at h
    obtain ⟨⟨w, k⟩, hw, h⟩ := Run.bind_eq_ok.mp h
    obtain ⟨rfl, rfl⟩ := Prod.mk.injEq .. ▸ Except.ok.inj h
    have hright : (⟨w.1, .inr w.2⟩ : SnmpVar).value.isRight = true := rfl
    rw [if_pos hright]
    dsimp only
    rw [decodeVarValue_indefinite hi hj hrem hn hw]
    rfl

/-! ## The loop over the variables -/

section

variable {ι : Type} {decodeItem : DecodeIterator data → Result (ι × DecodeIterator data)}

/-- The loop leaves where it sees its end. -/
theorem varsAtEnd_of_collect {length : Option UInt64} {first : DecodeIterator data} {n : Nat}
    {r : List ι × DecodeIterator data}
    (h : collect .endless (varTurn decodeItem length first) n i = .ok r) :
    varsAtEnd length first r.2 = .ok true := by
  have hleave := collect_leaves h
  obtain ⟨b, hb, hturn⟩ := Run.bind_eq_ok.mp hleave
  cases b with
  | true => exact hb
  | false =>
    obtain ⟨_, -, hitem⟩ := Run.bind_eq_ok.mp hturn
    cases hitem

/-- Two zero bytes are in front of the iterator. -/
theorem remaining_of_varsAtEnd_none {first : DecodeIterator data}
    (h : varsAtEnd none first i = .ok true) : 2 ≤ i.remaining := by
  obtain ⟨b, hb, h⟩ := Run.bind_eq_ok.mp h
  split at h
  · obtain ⟨k, hk, h⟩ := Run.bind_eq_ok.mp h
    obtain ⟨c, hc, -⟩ := Run.bind_eq_ok.mp h
    obtain ⟨bs, hrest⟩ := deref_eq_ok.mp hc
    have hat := plus_eq_ok.mp hk
    have hpos : 1 ≤ k.remaining := by
      rw [← length_rest, hrest, List.length_cons]
      omega
    rw [remaining] at hpos ⊢
    omega
  · cases h

/-- Where the variables have no length, the iterator is left in front of the zero bytes. -/
theorem decodeVars_indefinite {t : UInt8} {bs : List UInt8} {vs : List ι}
    {k : DecodeIterator data} (h : i.Reads (t :: 0x80 :: bs))
    (hvs : decodeVars decodeItem i = .ok (vs, k)) : 2 ≤ k.remaining := by
  rw [decodeVars, header_indefinite h, Run.ok_bind] at hvs
  exact remaining_of_varsAtEnd_none (varsAtEnd_of_collect hvs)

end

/-! ## The sequence of a PDU -/

/-- The three integers and the length of the variables -/
def decodeVarsHeader (i : DecodeIterator data) :
    Result (Option UInt64 × DecodeIterator data) := do
  let id ← decodeIntValue i 0x02
  let errorStatus ← decodeIntValue id.2 0x02
  let ei ← decodeIntValue errorStatus.2 0x02
  let s3 ← decodeSequenceTypeAndLength ei.2
  pure (s3.1.2, s3.2)

theorem carries_varsHeader (h : j.Reads i.rest) :
    Carries i j (decodeVarsHeader i) (decodeVarsHeader j) := by
  apply (carries_int h 0x02).bind
  intro _ n _
  have h := h.rest_past n
  apply (carries_int h 0x02).bind
  intro _ n _
  have h := h.rest_past n
  apply (carries_int h 0x02).bind
  intro _ n _
  exact (carries_sequence (h.rest_past n)).map Prod.snd

/-- After its variables the decoder of a PDU is done. -/
theorem decodePDU_end {s : (UInt8 × Option UInt64) × DecodeIterator data}
    {r : PDU × DecodeIterator data} (hs : decodeSequenceTypeAndLength i = .ok s)
    (h : decodePDU i = .ok r) :
    ∃ length first, decodeVarsHeader s.2 = .ok (length, first) ∧
      varsAtEnd length first r.2 = .ok true := by
  rw [decodePDU, hs, Run.ok_bind] at h
  obtain ⟨f, hf, h⟩ := Run.bind_eq_ok.mp h
  obtain ⟨_, -, h⟩ := Run.bind_eq_ok.mp h
  cases h
  obtain ⟨id, hid, hf⟩ := Run.bind_eq_ok.mp hf
  obtain ⟨errorStatus, herrorStatus, hf⟩ := Run.bind_eq_ok.mp hf
  obtain ⟨ei, hei, hf⟩ := Run.bind_eq_ok.mp hf
  obtain ⟨vars, hvars, hf⟩ := Run.bind_eq_ok.mp hf
  cases hf
  obtain ⟨s3, hs3, hcollect⟩ := Run.bind_eq_ok.mp hvars
  refine ⟨s3.1.2, s3.2, ?_, varsAtEnd_of_collect hcollect⟩
  rw [decodeVarsHeader, hid, Run.ok_bind, herrorStatus, Run.ok_bind, hei, Run.ok_bind, hs3]
  rfl

theorem varsAtEnd_some {length : UInt64} {first : DecodeIterator data}
    (h : varsAtEnd (some length) first i = .ok true) : first.plus (asInt length) = .ok i := by
  obtain ⟨e, he, h⟩ := Run.bind_eq_ok.mp h
  rw [he, eq_of_beq (Except.ok.inj h)]

/-- The iterator is left where the content ends, in front of the zero bytes. -/
theorem decodePDU_indefinite {s s' : UInt8 × Option UInt64} {v : PDU}
    {i₀ : DecodeIterator data} {j₀ : DecodeIterator data'} {r : PDU × DecodeIterator data'}
    (hi₀ : decodeSequenceTypeAndLength i₀ = .ok (s, i))
    (hj₀ : decodeSequenceTypeAndLength j₀ = .ok (s', j))
    (hi : i.rest = content) (hj : j.Reads content)
    (h : decodePDU i₀ = .ok (v, i.past content.length)) (hr : decodePDU j₀ = .ok r) :
    r.2 = j.past content.length := by
  have hlen : i.remaining = content.length := by rw [← length_rest, hi]
  obtain ⟨length, first, hfirst, hend⟩ := decodePDU_end hi₀ h
  obtain ⟨length', first', hfirst', hend'⟩ := decodePDU_end hj₀ hr
  obtain ⟨m, hm, rfl, hcarried⟩ := carries_varsHeader (hi ▸ hj : j.Reads i.rest) length first hfirst
  rw [hcarried] at hfirst'
  cases hfirst'
  cases length with
  | none =>
    have hzero := remaining_of_varsAtEnd_none hend
    rw [remaining_past, hlen] at hzero
    omega
  | some length =>
    have hplus := varsAtEnd_some hend
    have hplus' := varsAtEnd_some hend'
    have hforward : (i.past m).at_ ≤ (i.past content.length).at_ := by
      rw [at_past hm, at_past hlen.ge]
      omega
    obtain ⟨hn, hle, heq⟩ := plus_eq_past hplus hforward
    rw [remaining_past, hlen] at hle
    rw [past_past, past_inj hlen.ge (by omega)] at heq
    have hrem := hj.length_le
    rw [hn, plus_of_le (by rw [remaining_past]; omega), past_past, ← heq] at hplus'
    exact (Except.ok.inj hplus').symm

/-! ## All elements -/

/-- A variable with a value: its decoder skips the zero bytes. -/
def Element.SkipsZeros : (x : Element) → x.Value → Prop
  | var, _ => True
  | snmpVar, v => (SnmpVar.value v).isRight
  | _, _ => False

theorem rest_place (before after : List UInt8) (t : UInt8) (content : List UInt8) :
    (place before after t content).rest = indefinite t content ++ after := by
  rw [place, rest_past, List.append_assoc]
  exact List.drop_left

/-- Of the elements that are read in definite form, the variables that have a value, and no
others, are read in indefinite form wherever they stand. -/
theorem Element.acceptsIndefinite_iff (x : Element) (t : UInt8) (content : List UInt8)
    (v : x.Value) (h : x.Accepts t content v) :
    x.AcceptsIndefinite t content v ↔ x.SkipsZeros v := by
  obtain ⟨htype, length, hlength, hdecode⟩ := h
  obtain ⟨n, hheader, hrest⟩ := header_definite (t := t) hlength
  have hend : (start (t :: length ++ content)).past (t :: length ++ content).length =
      ((start (t :: length ++ content)).past (1 + length.length)).past content.length := by
    rw [past_past, List.length_append, List.length_cons, Nat.add_comm 1]
  rw [hend] at hdecode
  have hsize : (indefinite t content).length = 2 + (content.length + 2) := by
    simp [indefinite]
    omega
  -- where nothing is behind the element
  obtain ⟨hreads, hcontent, hrem⟩ := reads_content_indefinite (rest_place [] [] t content)
  have hheader' := header_indefinite hreads
  have halone : (place [] [] t content).remaining = 2 + (content.length + 2) := by
    rw [← length_rest, rest_place, List.append_nil, hsize]
  cases x with
  | oid => exact iff_of_false (fun h => decodeOidValue_indefinite hreads _ (h [] [])) id
  | null =>
    obtain rfl : t = 0x05 := htype
    exact iff_of_false (fun h => decodeValue_null_indefinite hreads _ (h [] [])) id
  | var =>
    refine iff_of_true (fun before after => ?_) trivial
    obtain ⟨hreads, hcontent, hrem⟩ := reads_content_indefinite (rest_place before after t content)
    rw [hsize, ← past_past]
    exact decodeVar_indefinite hheader (header_indefinite hreads) hrest hcontent
      (by rw [remaining_past]; omega) hdecode
  | snmpVar =>
    have hvalue : SkipsZeros snmpVar v ↔ (SnmpVar.value v).isRight := Iff.rfl
    rw [hvalue]
    constructor
    · intro h
      by_contra hmarker
      have hread := decodeSnmpVar_indefinite hheader hheader' (length_indefinite hreads) hrest
        hcontent (by rw [remaining_past]; omega) hdecode
      rw [if_neg hmarker] at hread
      exact hread _ (h [] [])
    · intro hright before after
      obtain ⟨hreads, hcontent, hrem⟩ :=
        reads_content_indefinite (rest_place before after t content)
      have hread := decodeSnmpVar_indefinite hheader (header_indefinite hreads)
        (length_indefinite hreads) hrest hcontent (by rw [remaining_past]; omega) hdecode
      rw [if_pos hright] at hread
      rw [hsize, ← past_past]
      exact hread
  | vars =>
    refine iff_of_false (fun h => ?_) id
    have hleft := decodeVars_indefinite hreads (h [] [])
    rw [remaining_past, hsize] at hleft
    omega
  | snmpVars =>
    refine iff_of_false (fun h => ?_) id
    have hleft := decodeVars_indefinite hreads (h [] [])
    rw [remaining_past, hsize] at hleft
    omega
  | pdu =>
    refine iff_of_false (fun h => ?_) id
    have hleft := decodePDU_indefinite hheader hheader' hrest hcontent hdecode (h [] [])
    rw [past_past, past_inj (by omega) (by omega)] at hleft
    omega

/-- `.1.3` with a null -/
theorem Element.acceptsIndefinite_null_var :
    (var.Accepts 0x30 [0x06, 0x01, 0x2b, 0x05, 0x00] (⟨[1, 3]⟩, .nullValue)) ∧
      var.AcceptsIndefinite 0x30 [0x06, 0x01, 0x2b, 0x05, 0x00] (⟨[1, 3]⟩, .nullValue) := by
  have h : var.Accepts 0x30 [0x06, 0x01, 0x2b, 0x05, 0x00] (⟨[1, 3]⟩, .nullValue) :=
    ⟨trivial, [0x05], ⟨5, rfl, rfl⟩, rfl⟩
  exact ⟨h, (acceptsIndefinite_iff var 0x30 _ _ h).mpr trivial⟩

/-- `.1.3` itself is read on to the end of the data, and there is no catching what that throws. -/
theorem Element.not_acceptsIndefinite_oid :
    decodeOidValue (start [0x06, 0x80, 0x2b, 0x00, 0x00]) = .error (.died .unexpected) ∧
      ¬ ∀ (x : Element) (t : UInt8) (content : List UInt8) (v : x.Value),
        x.Accepts t content v → x.AcceptsIndefinite t content v := by
  refine ⟨rfl, fun h => ?_⟩
  have haccepts : oid.Accepts 0x06 [0x2b] ⟨[1, 3]⟩ := ⟨rfl, [0x01], ⟨1, rfl, rfl⟩, rfl⟩
  obtain ⟨hreads, -⟩ := reads_content_indefinite (rest_place [] [] 0x06 [0x2b])
  exact decodeOidValue_indefinite hreads _ (h oid _ _ _ haccepts [] [])

end Urnest.Snmp
