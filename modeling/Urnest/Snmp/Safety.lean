import Urnest.Snmp.Dissect

/-!
# Which data the decoders survive

The accounts of the dissector are true of the decoders, element by element
(`describes_*`) and then message by message, so a decoder survives some data exactly
when the lengths declared in it fit (`Decoder.survives_iff`).

Not all data is like that. Nothing compares a declared length with what is left before
the iterator is moved by it, and the iterator asserts that it stays in front of the
end.
-/

namespace Urnest.Snmp

open DecodeIterator Lib

variable {data : List UInt8}

/-! ## Lengths -/

theorem describes_jump (n : UInt64) (i : DecodeIterator data) :
    (jump n i).Describes id (i.plus (asInt n)) := by
  refine Account.describes_require (r := i.moved (asInt n)) ?_ rfl survives_plus.mp
  intro h
  have hin := i.inData
  rw [show i.remaining = data.length - i.at_ from rfl] at h
  rw [plus_eq_ok]
  change ((min (i.at_ + asInt n).toNat data.length : Nat) : Int) = i.at_ + asInt n
  omega

/-- A run that starts by looking at a byte. -/
theorem describes_octet {α γ : Type} {i : DecodeIterator data} {x : Result α} {view : α → γ}
    {f : UInt8 × DecodeIterator data → Account γ}
    (hnil : i.deref = .error (.threw (endOfData data)) → x = .error (.threw (endOfData data)))
    (hcons : ∀ b, i.deref = .ok b → i.plus 1 = .ok (i.past 1) →
      (f (b, i.past 1)).Describes view x) :
    ((octetAt i).bind f).Describes view x := by
  cases hr : i.rest with
  | nil =>
    rw [octetAt, hr, hnil (deref_of_nil hr), Account.stop_bind]
    exact Account.describes_throws view _
  | cons b bs =>
    have hrem : 1 ≤ i.remaining := by rw [← length_rest, hr]; simp
    rw [octetAt, hr, Account.done_bind]
    exact hcons b (deref_of_cons hr) (plus_of_le hrem)

theorem describes_length (i : DecodeIterator data) :
    (lengthAt i).Describes id (decodeLength i) := by
  cases hr : i.rest with
  | nil =>
    rw [lengthAt, hr, decodeLength, deref_of_nil hr]
    exact Account.describes_throws _ _
  | cons b bs =>
    have hlen : i.remaining = bs.length + 1 := by rw [← length_rest, hr]; rfl
    have hplus : i.plus 1 = .ok (i.past 1) := plus_of_le (n := 1) (by omega)
    rw [lengthAt, hr, decodeLength, deref_of_cons hr, Run.ok_bind]
    dsimp only
    split_ifs with hshort hindefinite hlong
    · rw [hplus]
      exact Account.describes_ok rfl
    · rw [hplus]
      exact Account.describes_ok rfl
    · exact Account.describes_throws _ _
    · rw [hplus, Run.ok_bind]
      generalize (b &&& ~~~0x80).toNat = n at hlong
      have hrem : (i.past 1).remaining = bs.length := by rw [remaining_past, hlen]; rfl
      refine Account.describes_require ?_ rfl ?_
      · intro hn
        have hrest : (i.past 1).rest = bs := by rw [rest_past, hr]; rfl
        have hfold := foldl_orByte (show (bs.take n).length ≤ 8 by simp; omega)
        rw [List.length_take, Nat.min_eq_left hn] at hfold
        rw [plus_of_le (by omega), Run.ok_bind, forTo_past (by omega), Run.ok_bind, hrest, hfold,
          past_past]
        rfl
      · intro hs
        have := survives_plus.mp (Run.survives_bind.mp hs).1
        omega

theorem describes_header (i : DecodeIterator data) :
    (headerAt i).Describes id (decodeSequenceTypeAndLength i) := by
  refine describes_octet ?_ ?_
  · intro h
    rw [decodeSequenceTypeAndLength, h]
    rfl
  · intro b hb hplus
    rw [decodeSequenceTypeAndLength, hb, Run.ok_bind, hplus, Run.ok_bind]
    exact (describes_length (i.past 1)).bind fun l => Account.describes_ok rfl

/-- An element with a type and a definite length, by what is made of its content. -/
theorem describes_definite {α γ : Type} {type_ : UInt8} {i : DecodeIterator data}
    {message : String} {view : α → γ} {f : UInt64 × DecodeIterator data → Account γ}
    {g : UInt64 × DecodeIterator data → Result α} (h : ∀ l, (f l).Describes view (g l)) :
    ((definiteAt type_ i).bind f).Describes view
      (checkType i type_ >>= fun _ => definiteLength i message >>= g) := by
  rw [definiteAt, Account.bind_assoc]
  refine describes_octet ?_ ?_
  · intro hb
    rw [checkType, hb]
    rfl
  · intro b hb hplus
    rw [Account.guard_bind, checkType, hb, Run.ok_bind, Account.bind_assoc]
    by_cases hty : b = type_
    · rw [if_neg (not_not_intro hty), Run.pure_eq_ok, Run.ok_bind, Account.guard, if_pos hty,
        definiteLength, hplus, Run.ok_bind]
      rw [bind_assoc]
      refine (describes_length (i.past 1)).bind fun l => ?_
      obtain ⟨length, j⟩ := l
      cases length with
      | none =>
        simp only [id, Account.stop_bind]
        exact Account.describes_throws view _
      | some n =>
        simp only [id, Account.done_bind]
        exact h (n, j)
    · rw [if_pos hty, Account.guard, if_neg hty]
      exact Account.describes_throws view _

/-! ## Elements -/

theorem foldl_replaceByte_take {count : UInt32} {bs : List UInt8} {r : UInt64} (hcount : count.toNat ≤ 8)
    (hle : count.toNat ≤ bs.length) :
    ((bs.take count.toNat).foldl replaceByte (r, 8 * (count - 1))).1
      = setBytes r (bs.take count.toNat) := by
  have hfold := foldl_replaceByte (show (bs.take count.toNat).length ≤ 8 by simp; omega) r
  rw [List.length_take, Nat.min_eq_left hle] at hfold
  by_cases hzero : count.toNat = 0
  · rw [hzero]
    rfl
  have hshift : ∀ m ≤ 8, m ≠ 0 → 8 * (UInt32.ofNat m - 1) = UInt32.ofNat (8 * (m - 1)) := by
    decide
  have := hshift count.toNat hcount hzero
  rw [UInt32.ofNat_toNat] at this
  rw [this, hfold]

theorem describes_int (type_ : UInt8) (i : DecodeIterator data) :
    (intAt type_ i).Describes id (decodeIntValue i type_) := by
  refine describes_definite fun l => ?_
  obtain ⟨n, j⟩ := l
  dsimp only
  generalize n.toUInt32 = count
  refine .ite (fun _ => Account.describes_throws _ _) fun hcount => ?_
  rw [intContentAt]
  cases hr : j.rest with
  | nil =>
    rw [deref_of_nil hr]
    exact Account.describes_throws _ _
  | cons b bs =>
    have hrem : j.remaining = bs.length + 1 := by rw [← length_rest, hr]; rfl
    rw [deref_of_cons hr, Run.ok_bind]
    dsimp only
    refine Account.describes_require ?_ rfl ?_
    · intro hle
      have hcount8 : count.toNat ≤ 8 := by
        have := UInt32.not_lt.mp hcount
        exact UInt32.le_iff_toNat_le.mp this
      rw [plus_of_le (by omega), Run.ok_bind, ← hr, forTo_past (by omega), Run.ok_bind]
      simp only [and_half_ne_zero_iff]
      rw [foldl_replaceByte_take hcount8 (by rw [hr]; exact hle)]
      rfl
    · intro hs
      have := survives_plus.mp (Run.survives_bind.mp hs).1
      omega

theorem describes_octets (n : UInt64) (i : DecodeIterator data) :
    (octetsAt n i).Describes (fun s => (s.1.length, s.2)) (octets i n) := by
  refine (describes_jump n i).bind_of_ok fun e he => ?_
  have hat := plus_eq_ok.mp he
  have hi := i.inData
  have he' := e.inData
  by_cases hn : 0 ≤ asInt n
  · have hle : (asInt n).toNat ≤ i.remaining := by
      rw [show i.remaining = data.length - i.at_ from rfl]
      omega
    have hpast : e = i.past (asInt n).toNat := by
      apply DecodeIterator.ext
      rw [at_past hle]
      omega
    rw [Account.guard, if_pos hn, hpast, forTo_past hle]
    rw [Run.ok_bind, foldl_snoc]
    refine Account.describes_ok ?_
    rw [List.nil_append, List.length_take, length_rest, Nat.min_eq_left hle]
    rfl
  · rw [Account.guard, if_neg hn, forTo_of_lt (by omega)]
    exact Account.describes_throws _ _

theorem describes_string (type_ : UInt8) (i : DecodeIterator data) :
    (stringAt type_ i).Describes (fun s => (s.1.length, s.2)) (decodeStringValue i type_) :=
  describes_definite fun l => describes_octets l.1 l.2

theorem describes_address (i : DecodeIterator data) :
    (addressAt i).Describes Prod.snd (decodeIPv4AddressValue i) := by
  refine describes_definite fun l => ?_
  by_cases h : l.1 = 4
  · rw [if_neg (not_not_intro h), Account.guard, if_pos h]
    exact (describes_octets l.1 l.2).bind fun s => by
      exact Account.describes_ok rfl
  · rw [if_pos h, Account.guard, if_neg h]
    exact Account.describes_throws _ _

/-! ## Identifiers -/

/-- A component ends with the first byte that has no continuation bit. -/
theorem oidComponentFrom_spec (bs : List UInt8) (i : DecodeIterator data) (result : UInt32) :
    ((∀ b ∈ bs, 0x80 ≤ b) ∧ oidComponentFrom bs i result = .error (.threw (endOfData data))) ∨
    ∃ hs b ts c, bs = hs ++ b :: ts ∧ (∀ h ∈ hs, 0x80 ≤ h) ∧ b < 0x80 ∧
      oidComponentFrom bs i result = .ok (c, i.past (hs.length + 1)) := by
  induction bs generalizing i result with
  | nil => exact .inl ⟨fun b hb => absurd hb List.not_mem_nil, rfl⟩
  | cons b bs ih =>
    rw [oidComponentFrom]
    by_cases hb : b &&& 0x80 ≠ 0
    · rw [if_pos hb]
      have hhigh := (and_half_ne_zero_iff b).mp hb
      rcases ih (i.past 1) ((result ||| (b &&& ~~~0x80).toUInt32) <<< 7) with
        ⟨hall, h⟩ | ⟨hs, c, ts, v, rfl, hall, hc, h⟩
      · exact .inl ⟨List.forall_mem_cons.mpr ⟨hhigh, hall⟩, h⟩
      · refine .inr ⟨b :: hs, c, ts, v, rfl, List.forall_mem_cons.mpr ⟨hhigh, hall⟩, hc, ?_⟩
        rw [h, past_past, List.length_cons, Nat.add_comm 1]
    · rw [if_neg hb]
      have hlow : b < 0x80 := UInt8.not_le.mp fun h => hb ((and_half_ne_zero_iff b).mpr h)
      exact .inr ⟨[], b, bs, _, rfl, fun h hh => absurd hh List.not_mem_nil, hlow, rfl⟩

theorem endsComponent_of_high {bs : List UInt8} (hne : bs ≠ []) (h : ∀ b ∈ bs, 0x80 ≤ b) :
    endsComponent bs = false := by
  rw [endsComponent, List.getLast?_eq_getLast_of_ne_nil hne, Option.all_some, decide_eq_false_iff_not,
    UInt8.not_lt]
  exact h _ (List.getLast_mem hne)

theorem endsComponent_append {hs ts : List UInt8} {b : UInt8} (hb : b < 0x80) :
    endsComponent (hs ++ b :: ts) = endsComponent ts := by
  cases ts with
  | nil => simp [endsComponent, hb]
  | cons t ts => simp [endsComponent, List.getLast?_append, List.getLast?_cons]

/-- After the component that `hs` and `b` make up. -/
theorem rest_past_component {i : DecodeIterator data} {hs ts : List UInt8} {b : UInt8}
    (hrest : i.rest = hs ++ b :: ts) :
    (i.past (hs.length + 1)).rest = ts ∧ hs.length + 1 ≤ i.remaining := by
  constructor
  · rw [rest_past, hrest, List.append_cons]
    exact List.drop_left' (by simp)
  · rw [← length_rest, hrest, List.length_append, List.length_cons]
    omega

/-- With no length to end it, an identifier is read to the end of the data, and looking
for its end there is what a function declared not to throw does not survive. -/
theorem collect_indefinite (start : DecodeIterator data) {n : Nat} {i : DecodeIterator data}
    (hn : i.remaining < n) :
    collect .endless (oidTurn none start) n i
      = .error (if endsComponent i.rest = true then .died .unexpected
          else .threw (endOfData data)) := by
  induction n generalizing i with
  | zero => omega
  | succ n ih =>
    cases hr : i.rest with
    | nil =>
      refine collect_succ_error ?_
      rw [oidTurn, oidAtEnd, deref_of_nil hr]
      rfl
    | cons b bs =>
      have hnever : (b == 0 && b.toNat + 1 == 0) = false := by simp
      have hturn : oidTurn none start i
          = decodeOidComponent i >>= fun c => pure (.item c.1 c.2) := by
        rw [oidTurn, oidAtEnd, deref_of_cons hr]
        dsimp only
        rw [hnever]
        rfl
      rw [← hr]
      rcases oidComponentFrom_spec i.rest i 0 with ⟨hall, h⟩ | ⟨hs, b, ts, c, hrest, hall, hb, h⟩
      · have hends := endsComponent_of_high (by rw [hr]; exact List.cons_ne_nil _ _) hall
        rw [hends]
        refine collect_succ_error ?_
        rw [hturn, decodeOidComponent, h]
        rfl
      · obtain ⟨hnext, hle⟩ := rest_past_component hrest
        have hrem := remaining_past i (hs.length + 1)
        rw [collect_succ_item (q := i.past (hs.length + 1)) (x := c)
          (by rw [hturn, decodeOidComponent, h]; rfl), ih (by omega), hnext, hrest,
          endsComponent_append hb]
        rfl

/-- An identifier whose length takes it to `e` is read when `e` is where a component
ends, and runs out of data otherwise. -/
theorem collect_definite {n : UInt64} {start e : DecodeIterator data}
    (he : start.plus (asInt n) = .ok e) {m : Nat} {i : DecodeIterator data} (hm : i.remaining < m) :
    if i.at_ ≤ e.at_ ∧ endsComponent (i.rest.take (e.at_ - i.at_)) = true then
      ∃ cs, collect .endless (oidTurn (some n) start) m i = .ok (cs, e)
    else collect .endless (oidTurn (some n) start) m i = .error (.threw (endOfData data)) := by
  -- On the components; each takes at least one byte of what remains.
  induction m generalizing i with
  | zero => omega
  | succ m ih =>
    have hatEnd : oidAtEnd (some n) start i = .ok (i == e) := by
      rw [oidAtEnd, he]
      rfl
    by_cases hie : i = e
    · subst hie
      rw [if_pos ⟨Nat.le_refl _, by simp [endsComponent]⟩]
      exact ⟨[], collect_succ_leave (by simp [oidTurn, hatEnd])⟩
    have hne : i.at_ ≠ e.at_ := fun h => hie (DecodeIterator.ext h)
    have hturn : oidTurn (some n) start i
        = decodeOidComponent i >>= fun c => pure (.item c.1 c.2) := by
      rw [oidTurn, hatEnd, Run.ok_bind, beq_false_of_ne hie]
      rfl
    have hin := e.inData
    have hlen : i.rest.length = data.length - i.at_ := length_rest i
    rcases oidComponentFrom_spec i.rest i 0 with ⟨hall, h⟩ | ⟨hs, b, ts, c, hrest, hall, hb, h⟩
    · rw [if_neg]
      · refine collect_succ_error ?_
        rw [hturn, decodeOidComponent, h]
        rfl
      · rintro ⟨hle, hends⟩
        have hnil : i.rest.take (e.at_ - i.at_) ≠ [] := by
          rw [← List.length_pos_iff, List.length_take]
          omega
        rw [endsComponent_of_high hnil fun b hb => hall b (List.mem_of_mem_take hb)] at hends
        cases hends
    · obtain ⟨hnext, hle⟩ := rest_past_component hrest
      have hrem := remaining_past i (hs.length + 1)
      have hat := at_past hle
      have hih := ih (i := i.past (hs.length + 1)) (by omega)
      rw [hnext, hat] at hih
      rw [collect_succ_item (q := i.past (hs.length + 1)) (x := c)
        (by rw [hturn, decodeOidComponent, h]; rfl)]
      -- A component that goes past `e` never gets back to it.
      by_cases hreach : i.at_ + (hs.length + 1) ≤ e.at_
      · have htake : i.rest.take (e.at_ - i.at_)
            = hs ++ b :: ts.take (e.at_ - (i.at_ + (hs.length + 1))) := by
          rw [hrest, List.take_append, List.take_of_length_le (by omega),
            show e.at_ - i.at_ - hs.length = e.at_ - (i.at_ + (hs.length + 1)) + 1 by omega,
            List.take_succ_cons]
        rw [htake, endsComponent_append hb]
        by_cases hends : endsComponent (ts.take (e.at_ - (i.at_ + (hs.length + 1)))) = true
        · rw [if_pos ⟨hreach, hends⟩] at hih
          rw [if_pos ⟨by omega, hends⟩]
          obtain ⟨cs, hcs⟩ := hih
          exact ⟨c :: cs, by rw [hcs]; rfl⟩
        · rw [if_neg fun h => hends h.2] at hih
          rw [if_neg fun h => hends h.2, hih]
          rfl
      · rw [if_neg fun h => hreach h.1] at hih
        rw [if_neg, hih]
        · rfl
        · rintro ⟨hle', hends⟩
          have htake : i.rest.take (e.at_ - i.at_) = hs.take (e.at_ - i.at_) := by
            rw [hrest, List.take_append_of_le_length (by omega)]
          have hnil : hs.take (e.at_ - i.at_) ≠ [] := by
            rw [← List.length_pos_iff, List.length_take]
            omega
          rw [htake, endsComponent_of_high hnil fun b hb => hall b (List.mem_of_mem_take hb)] at hends
          cases hends

/-- The components, from the byte for `.1.3` on. -/
theorem describes_components (length : Option UInt64) {i : DecodeIterator data}
    (hi : 1 ≤ i.remaining) :
    (componentsAt length i).Describes Prod.snd
      (collect .endless (oidTurn length i) (data.length + 1) (i.past 1) >>= fun r =>
        (if length.isNone then r.2.plus 2 else pure r.2) >>= fun j =>
          pure ((⟨1 :: 3 :: r.1⟩ : Oid), j)) := by
  have hfuel : (i.past 1).remaining < data.length + 1 := by
    change data.length - _ < _
    omega
  cases length with
  | none =>
    rw [collect_indefinite i hfuel]
    by_cases hends : endsComponent (i.past 1).rest = true
    · rw [if_pos hends]
      refine ⟨⟨fun h => h.elim, fun h => ?_⟩, fun h => ?_⟩ <;>
      · rw [componentsAt, hends] at h
        cases h
    · rw [if_neg hends]
      have hfalse := Bool.eq_false_iff.mpr hends
      refine ⟨⟨fun _ => hfalse, fun _ => trivial⟩, fun _ b => ⟨fun h => ?_, ?_⟩⟩
      · cases h
      · rintro ⟨r, hr, -⟩
        cases hr
  | some n =>
    have hfirst : collect .endless (oidTurn (some n) i) (data.length + 1) (i.past 1)
        = i.plus (asInt n) >>= fun _ =>
            collect .endless (oidTurn (some n) i) (data.length + 1) (i.past 1) := by
      rcases hplus : i.plus (asInt n) with s | e
      · refine collect_succ_error ?_
        rw [oidTurn, oidAtEnd, hplus]
        rfl
      · rfl
    rw [hfirst, bind_assoc]
    refine (describes_jump n i).bind_of_ok fun e he => ?_
    have hcollect := collect_definite he hfuel
    rw [at_past hi] at hcollect
    simp only [id, Account.guard]
    by_cases hends : i.at_ + 1 ≤ e.at_ ∧
        endsComponent ((i.past 1).rest.take (e.at_ - (i.at_ + 1))) = true
    · rw [if_pos hends] at hcollect
      obtain ⟨cs, hcs⟩ := hcollect
      rw [if_pos hends, hcs]
      exact Account.describes_ok rfl
    · rw [if_neg hends] at hcollect
      rw [if_neg hends, hcollect]
      exact Account.describes_throws _ _

theorem describes_oid (i : DecodeIterator data) :
    (oidAt i).Describes Prod.snd (decodeOidValue i) := by
  refine describes_octet ?_ ?_
  · intro h
    rw [decodeOidValue, checkType, h]
    rfl
  · intro b hb hplus
    rw [decodeOidValue, checkType, hb, Run.ok_bind]
    by_cases hty : b = 0x06
    · rw [if_neg (not_not_intro hty), Run.pure_eq_ok, Run.ok_bind, Account.guard, if_pos hty,
        hplus, Run.ok_bind]
      refine (describes_length (i.past 1)).bind fun l => describes_octet (i := l.2) ?_ ?_
      · intro h
        rw [h]
        rfl
      · intro first hfirst hplus'
        rw [hfirst, Run.ok_bind]
        by_cases hfirst' : first = 0x2b
        · obtain ⟨bs, hrest⟩ := deref_eq_ok.mp hfirst
          have hrem : 1 ≤ l.2.remaining := by rw [← length_rest, hrest]; simp
          rw [if_neg (not_not_intro hfirst'), Account.guard, if_pos hfirst', next_of_cons hrest,
            Run.ok_bind]
          have hcomponents := describes_components l.1 hrem
          obtain ⟨_ | n, j⟩ := l
          · exact hcomponents
          · exact hcomponents
        · rw [if_pos hfirst', Account.guard, if_neg hfirst']
          exact Account.describes_throws _ _
    · rw [if_pos hty, Account.guard, if_neg hty]
      exact Account.describes_throws _ _

/-! ## Values -/

/-- With no length, a null is read to the end of the data. -/
theorem nullIndefinite_eq (bs : List UInt8) (j : DecodeIterator data) :
    nullIndefinite bs j = .error (.threw (endOfData data)) := by
  induction bs generalizing j with
  | nil => rfl
  | cons b bs ih => rw [nullIndefinite, if_pos (.inr (Nat.succ_ne_zero _)), ih]

theorem describes_null {i : DecodeIterator data} {b : UInt8} (hb : i.deref = .ok b) :
    (nullAt i).Describes id (decodeNull i) := by
  rw [nullAt, headerAt, Account.bind_assoc]
  refine describes_octet ?_ ?_
  · intro h
    rw [hb] at h
    cases h
  · intro b hb hplus
    rw [decodeNull, hplus, Run.ok_bind, Account.bind_assoc]
    refine (describes_length (i.past 1)).bind_of_ok fun l hl => ?_
    rw [Account.done_bind]
    obtain ⟨_ | n, j⟩ := l
    · have hrem : 2 ≤ i.remaining := by
        obtain ⟨c, hc, -⟩ := Run.bind_eq_ok.mp hl
        obtain ⟨bs, hrest⟩ := deref_eq_ok.mp hc
        have hlen := length_rest (i.past 1)
        rw [hrest, remaining_past, List.length_cons] at hlen
        omega
      dsimp only [id]
      rw [show i.plus 2 = _ from plus_of_le hrem, Run.ok_bind, nullIndefinite_eq]
      exact Account.describes_throws _ _
    · exact describes_jump n j

theorem describes_uint32 (type_ : UInt8) (name : String) (i : DecodeIterator data) :
    (uint32At type_ i).Describes Prod.snd (decodeUInt32Value i type_ name) :=
  (describes_int type_ i).bind fun _ =>
    .ite (fun _ => Account.describes_throws _ _) fun _ => Account.describes_ok rfl

theorem describes_value (i : DecodeIterator data) :
    (valueAt i).Describes Prod.snd (decodeValue i) := by
  refine describes_octet ?_ ?_
  · intro h
    rw [decodeValue, h]
    rfl
  · intro b hb _
    rw [decodeValue, hb, Run.ok_bind]
    have hint : ∀ (type_ : UInt8) (value : UInt64 → Value),
        ((intAt type_ i).bind fun v => .done v.2).Describes Prod.snd
          (decodeIntValue i type_ >>= fun v => pure (value v.1, v.2)) :=
      fun type_ value => (describes_int type_ i).bind fun v => Account.describes_ok rfl
    have hstring : ∀ (type_ : UInt8) (value : List UInt8 → Value),
        ((stringAt type_ i).bind fun v => .done v.2).Describes Prod.snd
          (decodeStringValue i type_ >>= fun v => pure (value v.1, v.2)) :=
      fun type_ value => (describes_string type_ i).bind fun v => Account.describes_ok rfl
    have huint32 : ∀ (type_ : UInt8) (name : String) (value : UInt32 → Value),
        (uint32At type_ i).Describes Prod.snd
          (decodeUInt32Value i type_ name >>= fun v => pure (value v.1, v.2)) :=
      fun type_ name value => (describes_uint32 type_ name i).map fun _ => rfl
    refine .ite (fun _ => ?null) fun _ => .ite (fun _ => ?oid) fun _ =>
      .ite (fun _ => hstring 0x04 _) fun _ => .ite (fun _ => hint 0x02 fun v => .intValue v.toInt64) fun _ =>
      .ite (fun _ => ?address) fun _ => .ite (fun _ => huint32 0x41 _ _) fun _ =>
      .ite (fun _ => huint32 0x42 _ _) fun _ => .ite (fun _ => hint 0x43 fun t => .timeTicksValue (t * 10).toInt64) fun _ =>
      .ite (fun _ => hstring 0x44 _) fun _ => .ite (fun _ => hint 0x46 _) fun _ =>
      Account.describes_throws _ _
    case null => exact (describes_null hb).map fun _ => rfl
    case oid => exact (describes_oid i).map fun _ => rfl
    case address => exact (describes_address i).map fun _ => rfl

/-! ## Variables -/

theorem describes_varValue {length : Option UInt64} (oid : Oid × DecodeIterator data) :
    (varValueAt length oid.2).Describes Prod.snd (decodeVarValue length oid) := by
  refine (describes_value oid.2).bind fun v => ?_
  cases length with
  | none =>
    refine (Account.describes_require (r := v.2.past 2) ?_ (id_eq _) ?_).map fun _ => rfl
    · intro h
      exact plus_of_le h
    · intro h
      have := survives_plus.mp h
      omega
  | some n => exact Account.describes_ok rfl

theorem describes_var (i : DecodeIterator data) :
    (varAt i).Describes Prod.snd (decodeVar i) :=
  (describes_header i).bind fun s => (describes_oid s.2).bind fun oid => describes_varValue oid

theorem describes_snmpVar (i : DecodeIterator data) :
    (snmpVarAt i).Describes Prod.snd (decodeSnmpVar i) := by
  refine (describes_header i).bind_of_ok fun s hs => (describes_oid s.2).bind fun oid => ?_
  refine describes_octet (i := oid.2) ?_ ?_
  · intro h
    rw [h]
    rfl
  · intro b hb _
    rw [hb, Run.ok_bind]
    dsimp only
    cases Marker.ofType? b with
    | none => exact (describes_varValue oid).map fun _ => rfl
    | some m =>
      -- the length that is read again is the one of the header
      have hlength : (i.plus 1 >>= decodeLength) = .ok (s.1.2, s.2) := by
        obtain ⟨t, -, h⟩ := Run.bind_eq_ok.mp hs
        obtain ⟨l, hl, hs'⟩ := Run.bind_eq_ok.mp h
        cases hs'
        exact hl
      dsimp only
      rw [hlength, Run.ok_bind]
      obtain ⟨⟨t, _ | n⟩, j⟩ := s
      · exact Account.describes_throws _ _
      · exact (describes_jump n j).map fun _ => rfl

theorem describes_varsOver (length : Option UInt64) (start i : DecodeIterator data) :
    (varsOverAt length start i).Describes id (varsAtEnd length start i) := by
  cases length with
  | some n => exact (describes_jump n start).bind fun _ => Account.describes_ok rfl
  | none =>
    refine describes_octet ?_ ?_
    · intro h
      rw [varsAtEnd, h]
      rfl
    · intro b hb hplus
      rw [varsAtEnd]
      dsimp only
      rw [hb, Run.ok_bind]
      refine .ite (fun _ => ?_) fun _ => Account.describes_ok rfl
      rw [hplus, Run.ok_bind]
      refine describes_octet ?_ ?_
      · intro h
        rw [h]
        rfl
      · intro c hc _
        rw [hc]
        exact Account.describes_ok rfl

section Vars

variable {ι : Type} {item : DecodeIterator data → Account (DecodeIterator data)}
  {decodeItem : DecodeIterator data → Result (ι × DecodeIterator data)}

theorem describes_varTurn (h : ∀ i, (item i).Describes Prod.snd (decodeItem i))
    (length : Option UInt64) (start i : DecodeIterator data) :
    (varTurnAt item length start i).Describes Account.next
      (varTurn decodeItem length start i) :=
  (describes_varsOver length start i).bind fun _ =>
    .ite (fun _ => Account.describes_ok rfl) fun _ =>
      (h i).bind fun _ => Account.describes_ok rfl

theorem survives_decodeVars (h : ∀ i, (item i).Describes Prod.snd (decodeItem i))
    (i : DecodeIterator data) :
    Run.Survives (decodeVars decodeItem i) ↔ (varsAt item i).Safe := by
  exact (describes_header i).survives_bind fun s =>
    Account.survives_collect (card data).le (describes_varTurn h s.1.2 s.2) s.2

theorem survives_decodeFields (h : ∀ i, (item i).Describes Prod.snd (decodeItem i))
    (i : DecodeIterator data) :
    Run.Survives (decodeFields decodeItem i) ↔ (fieldsAt item i).Safe := by
  refine (describes_int 0x02 i).survives_bind fun id =>
    (describes_int 0x02 id.2).survives_bind fun errorStatus =>
      (describes_int 0x02 errorStatus.2).survives_bind fun ei => ?_
  exact (Run.survives_bind_of fun _ => Run.survives_ok _).trans (survives_decodeVars h ei.2)

end Vars

/-! ## Messages -/

theorem describes_check {α β : Type} {p : Prop} [Decidable p] {e : Exception} {a : Account β}
    {view : α → β} {g : Unit → Result α} (h : p → a.Describes view (g ())) :
    (a.guard p).Describes view (check p e >>= g) := by
  rw [check, Account.guard]
  by_cases hp : p
  · rw [if_pos hp, if_pos hp]
    exact h hp
  · rw [if_neg hp, if_neg hp]
    exact Account.describes_throws _ _

theorem survives_check {α β : Type} {p : Prop} [Decidable p] {e : Exception} {a : Account β}
    {g : Unit → Result α} (h : p → (Run.Survives (g ()) ↔ a.Safe)) :
    Run.Survives (check p e >>= g) ↔ (a.guard p).Safe := by
  rw [check, Account.guard]
  by_cases hp : p
  · rw [if_pos hp, if_pos hp]
    exact h hp
  · rw [if_neg hp, if_neg hp]
    exact Iff.rfl

/-- A check at the end of a run does not matter to survival. -/
theorem survives_check_last {α : Type} (p : Prop) [Decidable p] (e : Exception)
    {g : Unit → Result α} (h : Run.Survives (g ())) : Run.Survives (check p e >>= g) := by
  rw [check]
  by_cases hp : p
  · rw [if_pos hp]
    exact h
  · rw [if_neg hp]
    trivial

theorem describes_envelope (data : List UInt8) (version : UInt64)
    (mismatch : UInt64 → DecodeIterator data → Exception) :
    (envelopeAt data version).Describes (fun e => (e.pduType, e.at_))
      (decodeEnvelope data version mismatch) :=
  (describes_header (start data)).bind fun s1 => describes_check fun _ =>
    (describes_int 0x02 s1.2).bind fun v => describes_check fun _ =>
      (describes_string 0x04 v.2).bind fun c =>
        (describes_header c.2).bind fun _ => Account.describes_ok rfl

theorem survives_checkErrorStatus {α : Type} (n : UInt64) (m : α) :
    Run.Survives (checkErrorStatus n >>= fun _ => .ok m) :=
  survives_check_last _ _ trivial

/-- A request or trap survives decoding when what follows its fields does. -/
theorem survives_request {α : Type} (data : List UInt8) (version : UInt64) (pduType : UInt8)
    {g : Envelope data → Fields data (Oid × Value) → Result α}
    (hg : ∀ e f, Run.Survives (g e f)) :
    Run.Survives (decodeRequestEnvelope data version pduType >>= fun e =>
        decodeFields decodeVar e.at_ >>= g e)
      ↔ (requestAt data version pduType).Safe := by
  rw [decodeRequestEnvelope, bind_assoc]
  refine (describes_envelope data version _).survives_bind fun e => ?_
  rw [bind_assoc]
  refine survives_check fun _ => ?_
  rw [Run.pure_eq_ok, Run.ok_bind, Run.survives_bind_of (hg e)]
  exact survives_decodeFields describes_var e.at_

theorem survives_response {α ι : Type} (data : List UInt8) (version : UInt64)
    (mismatch : UInt64 → DecodeIterator data → Exception)
    {item : DecodeIterator data → Account (DecodeIterator data)}
    {decodeItem : DecodeIterator data → Result (ι × DecodeIterator data)}
    (h : ∀ i, (item i).Describes Prod.snd (decodeItem i))
    {g : Envelope data → Fields data ι → Result α} (hg : ∀ e f, Run.Survives (g e f)) :
    Run.Survives (decodeEnvelope data version mismatch >>= fun e =>
        decodeFields decodeItem e.at_ >>= g e)
      ↔ (responseAt data version item).Safe := by
  refine (describes_envelope data version _).survives_bind fun e => ?_
  rw [Run.survives_bind_of (hg e)]
  exact survives_decodeFields h e.at_

theorem survives_v1Trap (data : List UInt8) :
    Run.Survives (decodeSnmpV1Trap data) ↔ (v1TrapAt data).Safe := by
  rw [decodeSnmpV1Trap, decodeRequestEnvelope, bind_assoc]
  refine (describes_envelope data 0 _).survives_bind fun e => ?_
  rw [bind_assoc]
  refine survives_check fun _ => ?_
  rw [Run.pure_eq_ok, Run.ok_bind]
  refine (describes_oid e.at_).survives_bind fun trapType =>
    (describes_address trapType.2).survives_bind fun origin =>
      (describes_int 0x02 origin.2).survives_bind fun generic =>
        (describes_int 0x02 generic.2).survives_bind fun specific => ?_
  rw [decodeTimeTicksValue, bind_assoc]
  refine (describes_int 0x43 specific.2).survives_bind fun sysUpTime => ?_
  exact (Run.survives_bind_of fun _ => Run.survives_ok _).trans
    (survives_decodeVars describes_var sysUpTime.2)

/-- What is made of the variables of a V2c trap cannot fail but by throwing. -/
theorem survives_trapVars (community : Community) (id : RequestId) (vars : List (Oid × Value)) :
    Run.Survives (trapVars community id vars) := by
  have hticks : ∀ v : Value, Run.Survives v.getTimeTicks := fun v => by cases v <;> trivial
  have hoid : ∀ v : Value, Run.Survives v.getOid := fun v => by cases v <;> trivial
  cases vars with
  | nil => trivial
  | cons x rest =>
    obtain ⟨oid, uptime⟩ := x
    refine survives_check_last _ _ (Run.survives_bind.mpr ⟨hticks uptime, fun sysUpTime _ => ?_⟩)
    cases rest with
    | nil => trivial
    | cons y vars =>
      obtain ⟨oid2, type_⟩ := y
      exact survives_check_last _ _ (Run.survives_bind.mpr ⟨hoid type_, fun _ _ => trivial⟩)

theorem survives_v3Message (data : List UInt8) :
    Run.Survives (decodeSnmpV3Message data) ↔ (v3MessageAt data).Safe := by
  refine (describes_header (start data)).survives_bind fun s1 => survives_check fun _ =>
    (describes_int 0x02 s1.2).survives_bind fun v => survives_check fun _ =>
      (describes_header v.2).survives_bind fun header => survives_check fun _ =>
        (describes_int 0x02 header.2).survives_bind fun id => survives_check fun _ =>
          (describes_int 0x02 id.2).survives_bind fun maxSize =>
            survives_check fun _ => survives_check fun _ =>
              (describes_string 0x04 maxSize.2).survives_bind fun flags =>
                survives_check fun _ =>
                  (describes_int 0x02 flags.2).survives_bind fun model =>
                    survives_check fun _ =>
                      (describes_string 0x04 model.2).survives_bind fun params =>
                        (describes_header params.2).survives_bind fun pdu => ?_
  refine iff_of_true ?_ trivial
  dsimp only
  split_ifs
  · exact survives_check_last _ _ (survives_check_last _ _ trivial)
  · exact survives_check_last _ _ (survives_check_last _ _ trivial)

theorem survives_v3ScopedPDU (data : List UInt8) :
    Run.Survives (decodeSnmpV3ScopedPDU data) ↔ (scopedPDUAt data).Safe := by
  refine (describes_header (start data)).survives_bind fun s1 => survives_check fun _ =>
    survives_check fun _ =>
      (describes_string 0x04 s1.2).survives_bind fun engineID =>
        (describes_string 0x04 engineID.2).survives_bind fun name => ?_
  refine (Run.survives_bind_of fun _ => Run.survives_ok _).trans ?_
  refine (describes_header name.2).survives_bind fun s2 => ?_
  exact (Run.survives_bind_of fun f => survives_checkErrorStatus f.errorStatus _).trans
    (survives_decodeFields describes_snmpVar s2.2)

theorem survives_v3UsmSecurityParameters (data : List UInt8) :
    Run.Survives (decodeSnmpV3UsmSecurityParameters data)
      ↔ (usmSecurityParametersAt data).Safe := by
  refine (describes_header (start data)).survives_bind fun s1 => survives_check fun _ =>
    survives_check fun _ =>
      (describes_string 0x04 s1.2).survives_bind fun engineID =>
        (describes_int 0x02 engineID.2).survives_bind fun boots => survives_check fun _ =>
          (describes_int 0x02 boots.2).survives_bind fun time => survives_check fun _ =>
            (describes_string 0x04 time.2).survives_bind fun userName => survives_check fun _ =>
              (describes_string 0x04 userName.2).survives_bind fun auth =>
                (describes_string 0x04 auth.2).survives_bind fun priv => ?_
  exact iff_of_true (survives_check_last _ _ trivial) trivial

/-- What can be decoded, by decoder. -/
inductive Decoder where
  | v1GetRequest
  | v1GetNextRequest
  | v1SetRequest
  | v1Response
  | v1Trap
  | v2cGetRequest
  | v2cGetNextRequest
  | v2cGetBulkRequest
  | v2cSetRequest
  | v2cResponse
  | v2cTrap
  | v3Message
  | v3ScopedPDU
  | v3UsmSecurityParameters
  deriving DecidableEq

namespace Decoder

/-- The decoder returns or throws on `data`. -/
def Survives (data : List UInt8) : Decoder → Prop
  | v1GetRequest => Run.Survives (decodeSnmpV1GetRequest data)
  | v1GetNextRequest => Run.Survives (decodeSnmpV1GetNextRequest data)
  | v1SetRequest => Run.Survives (decodeSnmpV1SetRequest data)
  | v1Response => Run.Survives (decodeSnmpV1Response data)
  | v1Trap => Run.Survives (decodeSnmpV1Trap data)
  | v2cGetRequest => Run.Survives (decodeSnmpV2cGetRequest data)
  | v2cGetNextRequest => Run.Survives (decodeSnmpV2cGetNextRequest data)
  | v2cGetBulkRequest => Run.Survives (decodeSnmpV2cGetBulkRequest data)
  | v2cSetRequest => Run.Survives (decodeSnmpV2cSetRequest data)
  | v2cResponse => Run.Survives (decodeSnmpV2cResponse data)
  | v2cTrap => Run.Survives (decodeSnmpV2cTrap data)
  | v3Message => Run.Survives (decodeSnmpV3Message data)
  | v3ScopedPDU => Run.Survives (decodeSnmpV3ScopedPDU data)
  | v3UsmSecurityParameters => Run.Survives (decodeSnmpV3UsmSecurityParameters data)

/-- The lengths declared in the data keep the decoder inside it. -/
def LengthsFit (data : List UInt8) : Decoder → Prop
  | v1GetRequest => (requestAt data 0 0xA0).Safe
  | v1GetNextRequest => (requestAt data 0 0xA1).Safe
  | v1SetRequest => (requestAt data 0 0xA3).Safe
  | v1Response => (responseAt data 0 varAt).Safe
  | v1Trap => (v1TrapAt data).Safe
  | v2cGetRequest => (requestAt data 1 0xA0).Safe
  | v2cGetNextRequest => (requestAt data 1 0xA1).Safe
  | v2cGetBulkRequest => (requestAt data 1 0xA5).Safe
  | v2cSetRequest => (requestAt data 1 0xA3).Safe
  | v2cResponse => (responseAt data 1 snmpVarAt).Safe
  | v2cTrap => (requestAt data 1 0xA7).Safe
  | v3Message => (v3MessageAt data).Safe
  | v3ScopedPDU => (scopedPDUAt data).Safe
  | v3UsmSecurityParameters => (usmSecurityParametersAt data).Safe

/-- A decoder survives exactly the data whose declared lengths keep it inside: it then
returns or throws, and no other data makes it do so. -/
theorem survives_iff (d : Decoder) (data : List UInt8) :
    d.Survives data ↔ d.LengthsFit data := by
  cases d with
  | v1GetRequest => exact survives_request data 0 0xA0 fun e f => survives_checkErrorStatus _ _
  | v1GetNextRequest => exact survives_request data 0 0xA1 fun e f => survives_checkErrorStatus _ _
  | v1SetRequest => exact survives_request data 0 0xA3 fun e f => survives_checkErrorStatus _ _
  | v1Response => exact survives_response data 0 _ describes_var fun e f => survives_checkErrorStatus _ _
  | v1Trap => exact survives_v1Trap data
  | v2cGetRequest => exact survives_request data 1 0xA0 fun e f => survives_checkErrorStatus _ _
  | v2cGetNextRequest => exact survives_request data 1 0xA1 fun e f => survives_checkErrorStatus _ _
  | v2cGetBulkRequest => exact survives_request data 1 0xA5 fun e f => trivial
  | v2cSetRequest => exact survives_request data 1 0xA3 fun e f => trivial
  | v2cResponse => exact survives_response data 1 _ describes_snmpVar fun e f => survives_checkErrorStatus _ _
  | v2cTrap =>
    exact survives_request data 1 0xA7 fun e f =>
      survives_check_last _ _ (survives_trapVars e.community f.id f.vars)
  | v3Message => exact survives_v3Message data
  | v3ScopedPDU => exact survives_v3ScopedPDU data
  | v3UsmSecurityParameters => exact survives_v3UsmSecurityParameters data

/-- A community string that declares more bytes than there are: the decoder of get
requests moves beyond the end of the data, and aborts. -/
theorem not_survives_long_community :
    decodeSnmpV1GetRequest [0x30, 0x05, 0x02, 0x01, 0x00, 0x04, 0x7f]
        = .error (.died .assertFailed) ∧
      ¬ ∀ d : Decoder, ∀ data, d.Survives data := by
  have hdies : decodeSnmpV1GetRequest [0x30, 0x05, 0x02, 0x01, 0x00, 0x04, 0x7f]
      = .error (.died .assertFailed) := by decide
  refine ⟨hdies, fun h => ?_⟩
  have hsurvives := h v1GetRequest [0x30, 0x05, 0x02, 0x01, 0x00, 0x04, 0x7f]
  rw [Survives, hdies] at hsurvives
  exact hsurvives

end Decoder

end Urnest.Snmp
