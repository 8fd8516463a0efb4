import Urnest.Snmp.Safety

/-!
# Where an element stands

A decoder that returns has looked at nothing but the bytes in front of the iterator, so with the
same bytes in front, and perhaps more behind them, it returns the same at another place
(`Carries`). A null is the exception: its length may move the iterator back. All that is said of
it, and of the values that it is one of, is what they do where they take what is left of the
data (`Carries.ToEnd`).
-/

namespace Urnest.Snmp

open DecodeIterator Lib

variable {data data' : List UInt8} {i : DecodeIterator data} {j : DecodeIterator data'}
variable {α β : Type}

namespace DecodeIterator

theorem Reads.past {bs : List UInt8} (h : j.Reads bs) (n : Nat) : (j.past n).Reads (bs.drop n) := by
  rw [Reads, rest_past]
  exact h.drop n

theorem Reads.rest_past (h : j.Reads i.rest) (n : Nat) : (j.past n).Reads (i.past n).rest := by
  rw [DecodeIterator.rest_past]
  exact h.past n

theorem Reads.deref {b : UInt8} (h : j.Reads i.rest) (hb : i.deref = .ok b) : j.deref = .ok b := by
  obtain ⟨bs, hrest⟩ := deref_eq_ok.mp hb
  rw [hrest] at h
  exact h.head

theorem Reads.remaining_le (h : j.Reads i.rest) : i.remaining ≤ j.remaining := by
  rw [← length_rest i]
  exact h.length_le

/-- A move that does not go back -/
theorem plus_eq_past {k : DecodeIterator data} {n : Int} (h : i.plus n = .ok k)
    (hle : i.at_ ≤ k.at_) : n = n.toNat ∧ n.toNat ≤ i.remaining ∧ k = i.past n.toNat := by
  have hk := plus_eq_ok.mp h
  have hin := k.inData
  have hn : n = n.toNat := by omega
  have hrem : n.toNat ≤ i.remaining := by
    rw [remaining]
    omega
  refine ⟨hn, hrem, ?_⟩
  apply ext
  rw [at_past hrem]
  omega

end DecodeIterator

/-! ## Runs at two places -/

/-- Where the run from `i` returns, it has gone on, and the one from `j` returns the same. -/
def Carries (i : DecodeIterator data) (j : DecodeIterator data')
    (x : Result (α × DecodeIterator data)) (y : Result (α × DecodeIterator data')) : Prop :=
  ∀ a i', x = .ok (a, i') → ∃ n, n ≤ i.remaining ∧ i' = i.past n ∧ y = .ok (a, j.past n)

/-- Where the run from `i` returns with nothing left, so does the one from `j`. -/
def CarriesToEnd (i : DecodeIterator data) (j : DecodeIterator data')
    (x : Result (α × DecodeIterator data)) (y : Result (α × DecodeIterator data')) : Prop :=
  ∀ a, x = .ok (a, i.past i.remaining) → y = .ok (a, j.past i.remaining)

theorem Carries.toEnd {x : Result (α × DecodeIterator data)}
    {y : Result (α × DecodeIterator data')} (h : Carries i j x y) : CarriesToEnd i j x y := by
  intro a ha
  obtain ⟨n, hn, heq, hy⟩ := h a _ ha
  rw [(past_inj (Nat.le_refl _) hn).mp heq]
  exact hy

theorem Carries.ok (a : α) : Carries i j (.ok (a, i)) (.ok (a, j)) := by
  intro a' i' h
  cases h
  exact ⟨0, Nat.zero_le _, (past_zero i).symm, by rw [past_zero]⟩

theorem Carries.of_error {s : Stop Exception Fault} {y : Result (α × DecodeIterator data')} :
    Carries i j (.error s) y := by
  intro a i' h
  cases h

/-- What is carried from further on -/
theorem Carries.of_past {x : Result (α × DecodeIterator data)}
    {y : Result (α × DecodeIterator data')} {n : Nat} (hn : n ≤ i.remaining)
    (h : Carries (i.past n) (j.past n) x y) : Carries i j x y := by
  intro a i' ha
  obtain ⟨m, hm, rfl, hy⟩ := h a i' ha
  rw [remaining_past] at hm
  exact ⟨n + m, by omega, past_past .., by rw [hy, past_past]⟩

theorem Carries.bind {x : Result (α × DecodeIterator data)}
    {y : Result (α × DecodeIterator data')}
    {f : α × DecodeIterator data → Result (β × DecodeIterator data)}
    {g : α × DecodeIterator data' → Result (β × DecodeIterator data')} (h : Carries i j x y)
    (hf : ∀ a n, n ≤ i.remaining → Carries (i.past n) (j.past n) (f (a, i.past n)) (g (a, j.past n))) :
    Carries i j (x >>= f) (y >>= g) := by
  intro b i' hb
  obtain ⟨⟨a, i₁⟩, ha, hb⟩ := Run.bind_eq_ok.mp hb
  obtain ⟨n, hn, rfl, hy⟩ := h a i₁ ha
  rw [hy]
  exact (hf a n hn).of_past hn b i' hb

/-- What is made of the value makes no difference. -/
theorem Carries.map {x : Result (α × DecodeIterator data)}
    {y : Result (α × DecodeIterator data')} (h : Carries i j x y) (f : α → β) :
    Carries i j (x >>= fun r => pure (f r.1, r.2)) (y >>= fun r => pure (f r.1, r.2)) :=
  h.bind fun a _ _ => Carries.ok (f a)

theorem Carries.deref (h : j.Reads i.rest) {f : UInt8 → Result (α × DecodeIterator data)}
    {g : UInt8 → Result (α × DecodeIterator data')} (hf : ∀ b, Carries i j (f b) (g b)) :
    Carries i j (i.deref >>= f) (j.deref >>= g) := by
  intro a i' ha
  obtain ⟨b, hb, ha⟩ := Run.bind_eq_ok.mp ha
  rw [h.deref hb, Run.ok_bind]
  exact hf b a i' ha

theorem CarriesToEnd.deref (h : j.Reads i.rest) {f : UInt8 → Result (α × DecodeIterator data)}
    {g : UInt8 → Result (α × DecodeIterator data')} (hf : ∀ b, CarriesToEnd i j (f b) (g b)) :
    CarriesToEnd i j (i.deref >>= f) (j.deref >>= g) := by
  intro a ha
  obtain ⟨b, hb, ha⟩ := Run.bind_eq_ok.mp ha
  rw [h.deref hb, Run.ok_bind]
  exact hf b a ha

/-- One byte on -/
theorem Carries.plus_one (h : j.Reads i.rest)
    {f : DecodeIterator data → Result (α × DecodeIterator data)}
    {g : DecodeIterator data' → Result (α × DecodeIterator data')}
    (hf : Carries (i.past 1) (j.past 1) (f (i.past 1)) (g (j.past 1))) :
    Carries i j (i.plus 1 >>= f) (j.plus 1 >>= g) := by
  intro a i' ha
  obtain ⟨k, hk, ha⟩ := Run.bind_eq_ok.mp ha
  obtain ⟨-, hrem, rfl⟩ := plus_eq_past hk (by have := plus_eq_ok.mp hk; omega)
  have hplus : j.plus 1 = .ok (j.past 1) := plus_of_le (n := 1) (hrem.trans h.remaining_le)
  rw [hplus]
  exact hf.of_past hrem a i' ha

theorem DecodeIterator.forTo_end {σ : Type} {e k : DecodeIterator data} {f : σ → UInt8 → σ}
    {bs : List UInt8} {s : σ} {r : σ × DecodeIterator data}
    (h : DecodeIterator.forTo e f bs k s = .ok r) : r.2 = e := by
  induction bs generalizing k s with
  | nil =>
    rw [DecodeIterator.forTo] at h
    split at h
    case isTrue heq =>
      cases h
      exact heq
    case isFalse => cases h
  | cons b bs ih =>
    rw [DecodeIterator.forTo] at h
    split at h
    case isTrue heq =>
      cases h
      exact heq
    case isFalse => exact ih h

/-- As many bytes as `n` says, if it is not negative: going back, the loop runs out of data. -/
theorem Carries.forTo {σ : Type} (h : j.Reads i.rest) (n : Int) (f : σ → UInt8 → σ) (s : σ) :
    Carries i j (i.plus n >>= fun e => DecodeIterator.forTo e f i.rest i s)
      (j.plus n >>= fun e => DecodeIterator.forTo e f j.rest j s) := by
  intro a i' ha
  obtain ⟨e, he, ha⟩ := Run.bind_eq_ok.mp ha
  by_cases hle : i.at_ ≤ e.at_
  · obtain ⟨hn, hrem, rfl⟩ := plus_eq_past he hle
    rw [forTo_past hrem] at ha
    cases ha
    have hrem' := hrem.trans h.remaining_le
    have htake : j.rest.take n.toNat = i.rest.take n.toNat := by
      obtain ⟨rest, hrest⟩ := h
      rw [← hrest, List.take_append_of_le_length (by rw [length_rest]; exact hrem)]
    refine ⟨n.toNat, hrem, rfl, ?_⟩
    rw [hn, plus_of_le hrem', Run.ok_bind]
    rw [← hn, forTo_past hrem', htake]
  · rw [forTo_of_lt (not_le.mp hle)] at ha
    cases ha

/-! ## The decoders -/

theorem carries_length (h : j.Reads i.rest) : Carries i j (decodeLength i) (decodeLength j) := by
  unfold decodeLength
  apply Carries.deref h
  intro b
  dsimp only
  split_ifs
  · exact Carries.plus_one h (Carries.ok _)
  · exact Carries.plus_one h (Carries.ok _)
  · exact Carries.of_error
  · apply Carries.plus_one h
    have hforTo := Carries.forTo (h.rest_past 1) ((b &&& ~~~0x80).toNat : Int) orByte
      (0, UInt32.ofNat (8 * ((b &&& ~~~0x80).toNat - 1)))
    have hmap := hforTo.map fun r => some r.1
    simpa only [bind_assoc] using hmap

theorem Carries.checkType (h : j.Reads i.rest) (type_ : UInt8)
    {x : Result (α × DecodeIterator data)} {y : Result (α × DecodeIterator data')}
    (hxy : Carries i j x y) :
    Carries i j (checkType i type_ >>= fun _ => x) (checkType j type_ >>= fun _ => y) := by
  unfold Snmp.checkType
  rw [bind_assoc, bind_assoc]
  apply Carries.deref h
  intro b
  split_ifs
  · exact Carries.of_error
  · exact hxy

theorem carries_definiteLength (h : j.Reads i.rest) (indefinite : String) :
    Carries i j (definiteLength i indefinite) (definiteLength j indefinite) := by
  unfold definiteLength
  apply Carries.plus_one h
  apply (carries_length (h.rest_past 1)).bind
  intro length n _
  cases length with
  | none => exact Carries.of_error
  | some length => exact Carries.ok length

theorem carries_int (h : j.Reads i.rest) (type_ : UInt8) :
    Carries i j (decodeIntValue i type_) (decodeIntValue j type_) := by
  unfold decodeIntValue
  apply Carries.checkType h
  apply (carries_definiteLength h _).bind
  intro length n _
  have hn := h.rest_past n
  dsimp only
  split_ifs
  · exact Carries.of_error
  · apply Carries.deref hn
    intro first
    have hforTo := Carries.forTo hn (length.toUInt32.toNat : Int) replaceByte
      ((if first &&& 0x80 ≠ 0 then ~~~0 else 0), 8 * (length.toUInt32 - 1))
    have hmap := hforTo.map Prod.fst
    simpa only [bind_assoc] using hmap

theorem carries_octets (h : j.Reads i.rest) (length : UInt64) :
    Carries i j (octets i length) (octets j length) := by
  have hoctets {data : List UInt8} (k : DecodeIterator data) : octets k length =
      k.plus (asInt length) >>= fun e =>
        DecodeIterator.forTo e (fun s b => s ++ [b]) k.rest k [] := by
    unfold octets
    congr 1
    funext e
    cases he : DecodeIterator.forTo e (fun s b => s ++ [b]) k.rest k ([] : List UInt8) with
    | error s => rfl
    | ok r =>
      rw [← forTo_end he]
      rfl
  rw [hoctets, hoctets]
  exact Carries.forTo h _ _ _

theorem carries_string (h : j.Reads i.rest) (type_ : UInt8) :
    Carries i j (decodeStringValue i type_) (decodeStringValue j type_) := by
  unfold decodeStringValue
  apply Carries.checkType h
  apply (carries_definiteLength h _).bind
  intro length n _
  exact carries_octets (h.rest_past n) length

theorem carries_ipv4 (h : j.Reads i.rest) :
    Carries i j (decodeIPv4AddressValue i) (decodeIPv4AddressValue j) := by
  unfold decodeIPv4AddressValue
  apply Carries.checkType h
  apply (carries_definiteLength h _).bind
  intro length n _
  dsimp only
  split_ifs
  · exact Carries.of_error
  · exact (carries_octets (h.rest_past n) length).bind fun _ _ _ => Carries.ok _

theorem carries_uint32 (h : j.Reads i.rest) (type_ : UInt8) (name : String) :
    Carries i j (decodeUInt32Value i type_ name) (decodeUInt32Value j type_ name) := by
  unfold decodeUInt32Value
  apply (carries_int h type_).bind
  intro v n _
  dsimp only
  split_ifs
  · exact Carries.of_error
  · exact Carries.ok v.toUInt32

theorem carries_componentFrom {bs : List UInt8} (h : i.rest = bs) (rest : List UInt8)
    (result : UInt32) :
    Carries i j (oidComponentFrom bs i result) (oidComponentFrom (bs ++ rest) j result) := by
  induction bs generalizing i j result with
  | nil => exact Carries.of_error
  | cons b bs ih =>
    have hrem : i.remaining = bs.length + 1 := by rw [← length_rest, h, List.length_cons]
    rw [List.cons_append, oidComponentFrom, oidComponentFrom]
    split_ifs
    · have hnext := ih (i := i.past 1) (j := j.past 1) (by rw [rest_past, h]; rfl)
        ((result ||| (b &&& ~~~0x80).toUInt32) <<< 7)
      exact hnext.of_past (by omega)
    · intro c i' hc
      cases hc
      exact ⟨1, by omega, rfl, rfl⟩

theorem carries_component (h : j.Reads i.rest) :
    Carries i j (decodeOidComponent i) (decodeOidComponent j) := by
  obtain ⟨rest, hrest⟩ := h
  unfold decodeOidComponent
  rw [← hrest]
  exact carries_componentFrom rfl rest 0

/-- A component is not empty. -/
theorem component_ne {c : UInt32} {n : Nat} (hc : decodeOidComponent i = .ok (c, i.past n))
    (hn : n ≤ i.remaining) : n ≠ 0 := by
  rcases oidComponentFrom_spec i.rest i 0 with ⟨-, herror⟩ | ⟨hs, b, ts, c', hsplit, -, -, hok⟩
  · rw [decodeOidComponent, herror] at hc
    cases hc
  · rw [decodeOidComponent, hok] at hc
    have hle : hs.length + 1 ≤ i.remaining := (rest_past_component hsplit).2
    have hi : i.past (hs.length + 1) = i.past n := congrArg Prod.snd (Except.ok.inj hc)
    have := (past_inj hle hn).mp hi
    omega

/-- The loop over the components of an identifier that starts at `s` and has `k` bytes, `a`
bytes on -/
theorem collect_carries {length : UInt64} {s : DecodeIterator data} {s' : DecodeIterator data'}
    {k : Nat} (hs : s'.Reads s.rest) (hk : k ≤ s.remaining)
    (he : s.plus (asInt length) = .ok (s.past k)) (he' : s'.plus (asInt length) = .ok (s'.past k))
    {a m m' : Nat} (ha : a ≤ s.remaining) (hm' : (s'.past a).remaining < m') :
    Carries (s.past a) (s'.past a) (collect .endless (oidTurn (some length) s) m (s.past a))
      (collect .endless (oidTurn (some length) s') m' (s'.past a)) := by
  have hrem := hs.remaining_le
  induction m generalizing a m' with
  | zero => exact Carries.of_error
  | succ m ih =>
    obtain ⟨m', rfl⟩ : ∃ k, m' = k + 1 := ⟨m' - 1, by omega⟩
    have hatEnd : oidAtEnd (some length) s (s.past a) = .ok (decide (a = k)) := by
      rw [oidAtEnd, he, Run.ok_bind, beq_eq_decide, decide_eq_decide.mpr (past_inj ha hk)]
      rfl
    have hatEnd' : oidAtEnd (some length) s' (s'.past a) = .ok (decide (a = k)) := by
      rw [oidAtEnd, he', Run.ok_bind, beq_eq_decide,
        decide_eq_decide.mpr (past_inj (ha.trans hrem) (hk.trans hrem))]
      rfl
    by_cases hak : a = k
    · have hleave : oidTurn (some length) s (s.past a) = .ok .leave := by
        rw [oidTurn, hatEnd, decide_eq_true hak]
        rfl
      have hleave' : oidTurn (some length) s' (s'.past a) = .ok .leave := by
        rw [oidTurn, hatEnd', decide_eq_true hak]
        rfl
      rw [collect_succ_leave hleave, collect_succ_leave hleave']
      exact Carries.ok _
    · have hturn : oidTurn (some length) s (s.past a) =
          decodeOidComponent (s.past a) >>= fun c => pure (.item c.1 c.2) := by
        rw [oidTurn, hatEnd, decide_eq_false hak]
        rfl
      have hturn' : oidTurn (some length) s' (s'.past a) =
          decodeOidComponent (s'.past a) >>= fun c => pure (.item c.1 c.2) := by
        rw [oidTurn, hatEnd', decide_eq_false hak]
        rfl
      cases hc : decodeOidComponent (s.past a) with
      | error stop =>
        rw [collect_succ_error (by rw [hturn, hc]; rfl)]
        exact Carries.of_error
      | ok c =>
        obtain ⟨n, hn, hpast, hc'⟩ := carries_component (hs.rest_past a) c.1 c.2 hc
        obtain ⟨c, i₁⟩ := c
        subst hpast
        have hne := component_ne hc hn
        rw [collect_succ_item (by rw [hturn, hc]; rfl), collect_succ_item (by rw [hturn', hc']; rfl)]
        apply Carries.of_past hn
        rw [remaining_past] at hn hm'
        rw [past_past, past_past]
        exact (ih (by omega) (by rw [remaining_past]; omega)).map fun cs => c :: cs

theorem Carries.next (h : j.Reads i.rest)
    {f : DecodeIterator data → Result (α × DecodeIterator data)}
    {g : DecodeIterator data' → Result (α × DecodeIterator data')}
    (hf : 1 ≤ i.remaining → Carries (i.past 1) (j.past 1) (f (i.past 1)) (g (j.past 1))) :
    Carries i j (i.next >>= f) (j.next >>= g) := by
  cases hrest : i.rest with
  | nil =>
    rw [next_of_nil hrest]
    exact Carries.of_error
  | cons b bs =>
    have hrem : 1 ≤ i.remaining := by
      rw [← length_rest, hrest, List.length_cons]
      omega
    obtain ⟨rest, hrest'⟩ := h
    rw [hrest, List.cons_append] at hrest'
    rw [next_of_cons hrest, next_of_cons hrest'.symm]
    exact (hf hrem).of_past hrem

/-- The components are read only if the length goes forward. -/
theorem plus_of_collect {length : UInt64} {s i : DecodeIterator data}
    {r : List UInt32 × DecodeIterator data} (hle : s.at_ ≤ i.at_)
    (h : collect .endless (oidTurn (some length) s) (data.length + 1) i = .ok r) :
    ∃ k, k ≤ s.remaining ∧ asInt length = k ∧ s.plus (asInt length) = .ok (s.past k) := by
  cases he : s.plus (asInt length) with
  | error stop =>
    rw [collect_succ_error (by rw [oidTurn, oidAtEnd, he]; rfl)] at h
    cases h
  | ok e =>
    have hrem : i.remaining < data.length + 1 := by
      rw [remaining]
      omega
    have hdefinite := collect_definite he hrem
    split at hdefinite
    case isTrue hends =>
      obtain ⟨hn, hk, hpast⟩ := plus_eq_past he (hle.trans hends.1)
      exact ⟨_, hk, hn, by rw [hpast]⟩
    case isFalse =>
      rw [hdefinite] at h
      cases h

theorem carries_oid (h : j.Reads i.rest) :
    Carries i j (decodeOidValue i) (decodeOidValue j) := by
  unfold decodeOidValue
  apply Carries.checkType h
  rw [bind_assoc, bind_assoc]
  apply Carries.plus_one h
  apply (carries_length (h.rest_past 1)).bind
  intro length n _
  have hs := (h.rest_past 1).rest_past n
  generalize (i.past 1).past n = s at hs
  generalize (j.past 1).past n = s' at hs
  apply Carries.deref hs
  intro first
  by_cases hfirst : first ≠ 0x2b
  · rw [if_pos hfirst]
    exact Carries.of_error
  rw [if_neg hfirst, if_neg hfirst]
  apply Carries.next hs
  intro hone
  have hat := at_past hone
  cases length with
  | none =>
    have hrem : (s.past 1).remaining < data.length + 1 := by
      rw [remaining]
      omega
    rw [collect_indefinite s hrem]
    exact Carries.of_error
  | some length =>
    intro oid i' hoid
    obtain ⟨r, hr, -⟩ := Run.bind_eq_ok.mp hoid
    obtain ⟨k, hk, hn, he⟩ := plus_of_collect (s := s) (by omega) hr
    have he' : s'.plus (asInt length) = .ok (s'.past k) := by
      rw [hn]
      exact plus_of_le (hk.trans hs.remaining_le)
    have hrem : (s'.past 1).remaining < data'.length + 1 := by
      rw [remaining]
      omega
    have hcollect := collect_carries hs hk he he' hone (m := data.length + 1) hrem
    exact (hcollect.map fun cs => (⟨1 :: 3 :: cs⟩ : Oid)) oid i' hoid

theorem carries_sequence (h : j.Reads i.rest) :
    Carries i j (decodeSequenceTypeAndLength i) (decodeSequenceTypeAndLength j) := by
  unfold decodeSequenceTypeAndLength
  apply Carries.deref h
  intro t
  rw [bind_assoc, bind_assoc]
  exact Carries.plus_one h ((carries_length (h.rest_past 1)).map fun l => (t, l))

theorem not_nullIndefinite {k : DecodeIterator data} {n : Nat} :
    (i.plus n >>= fun j => nullIndefinite j.rest j) ≠ .ok k := by
  intro h
  obtain ⟨j, -, hj⟩ := Run.bind_eq_ok.mp h
  rw [nullIndefinite_eq] at hj
  cases hj

theorem carriesToEnd_null (h : j.Reads i.rest) (a : α) :
    CarriesToEnd i j (decodeNull i >>= fun k => pure (a, k))
      (decodeNull j >>= fun k => pure (a, k)) := by
  have hlength : Carries i j (i.plus 1 >>= decodeLength) (j.plus 1 >>= decodeLength) :=
    Carries.plus_one h (carries_length (h.rest_past 1))
  intro b hb
  obtain ⟨k, hk, hb⟩ := Run.bind_eq_ok.mp hb
  cases hb
  obtain ⟨⟨length, i₁⟩, hi, hk⟩ := Run.bind_eq_ok.mp hk
  obtain ⟨n, hn, rfl, hj⟩ := hlength length i₁ hi
  rw [decodeNull, hj, Run.ok_bind]
  cases length with
  | none => exact (not_nullIndefinite (n := 2) hk).elim
  | some length =>
    have hat := at_past hn
    have hforward : (i.past n).at_ ≤ (i.past i.remaining).at_ := by
      rw [at_past (Nat.le_refl i.remaining)]
      omega
    obtain ⟨hlen, hle, heq⟩ := plus_eq_past hk hforward
    have hend : n + (asInt length).toNat = i.remaining := by
      rw [past_past, past_inj (Nat.le_refl _) (by rw [remaining_past] at hle; omega)] at heq
      exact heq.symm
    have hplus : (j.past n).plus (asInt length) = .ok (j.past i.remaining) := by
      rw [hlen, plus_of_le (hle.trans (h.rest_past n).remaining_le), past_past, hend]
    dsimp only
    rw [hplus]
    rfl

theorem CarriesToEnd.ite {p : Prop} [Decidable p] {x x' : Result (α × DecodeIterator data)}
    {y y' : Result (α × DecodeIterator data')} (h : CarriesToEnd i j x y)
    (h' : CarriesToEnd i j x' y') :
    CarriesToEnd i j (if p then x else x') (if p then y else y') := by
  split
  · exact h
  · exact h'

theorem carriesToEnd_value (h : j.Reads i.rest) :
    CarriesToEnd i j (decodeValue i) (decodeValue j) := by
  unfold decodeValue
  apply CarriesToEnd.deref h
  intro type_
  apply CarriesToEnd.ite (carriesToEnd_null h _)
  apply CarriesToEnd.ite ((carries_oid h).map _).toEnd
  apply CarriesToEnd.ite ((carries_string h 0x04).map _).toEnd
  apply CarriesToEnd.ite ((carries_int h 0x02).map fun v => Value.intValue v.toInt64).toEnd
  apply CarriesToEnd.ite ((carries_ipv4 h).map _).toEnd
  apply CarriesToEnd.ite ((carries_uint32 h 0x41 _).map _).toEnd
  apply CarriesToEnd.ite ((carries_uint32 h 0x42 _).map _).toEnd
  apply CarriesToEnd.ite ((carries_int h 0x43).map fun v => Value.timeTicksValue (v * 10).toInt64).toEnd
  apply CarriesToEnd.ite ((carries_string h 0x44).map _).toEnd
  apply CarriesToEnd.ite ((carries_int h 0x46).map _).toEnd
  exact Carries.of_error.toEnd

end Urnest.Snmp
