import Urnest.TypeCode.Alignment

/-!
# The round trip

What createTypeCodeOf builds is well formed, has its keys, and is equal to itself
(`createTypeCodeOf_step` says once what a call does, and each of these is an induction on
the calls inside each other). So marshalling and unmarshalling it is right just where no two
of its types are the same key of the index, which fails an assertion, and every type that a
reference leads to is aligned, which the index takes for granted.
-/

namespace Urnest.TypeCode

variable {little : Bool} {types : Declarations}

/-! ## createTypeCodeOf -/

/-- What a call for a type that is not being created does, `create` being the calls in it -/
inductive Step (types : Declarations) (create : CxxType → Nat → Option (Code × Nat))
    (t : CxxType) (i : Nat) : Code → Nat → Prop
  | leaf (l : Leaf) (hwidth : t.width types.declared = (Code.leaf l).width) :
      Step types create t i (.leaf l) (i + 1)
  | repeated (r : Repeated) {t' : CxxType} {item : Code} (bound : UInt32) {i' : Nat}
      (hwidth : t.width types.declared = none) (hsize : sizeOf t' < sizeOf t)
      (h : create t' (i + 1) = some (item, i')) :
      Step types create t i (.repeated r item bound) i'
  | aggregate (a : Aggregate) (repoId name : CString) {cases : List Case} {members : Members}
      {i' : Nat} (hwidth : t.width types.declared = none)
      (hlabels : ∀ c ∈ cases, c.label.length = 0)
      (h : createMembers create cases (i + 1) = some (members, i')) :
      Step types create t i (.aggregate a repoId name members) i'
  | union (repoId name : CString) {t' : CxxType} {descriminant : Code} {cases : List Case}
      {ms : Members} {d : Option UInt32} {width i' i'' : Nat}
      (hwidth : t.width types.declared = none) (hwidth' : t'.width types.declared = some width)
      (hlabels : ∀ c ∈ cases, c.label.length = width) (hdefault : ∀ n ∈ d, n.toNat < cases.length)
      (h : create t' (i + 1) = some (descriminant, i'))
      (h' : createMembers create cases i' = some (ms, i'')) :
      Step types create t i (.union repoId name descriminant ms d) i''

theorem createTypeCodeOf_step {n : Nat} {t : CxxType} {index : List (CxxType × Nat)}
    {i : Nat} {c : Code} {i' : Nat}
    (h : createTypeCodeOf types (n + 1) t index i = some (c, i')) :
    (∃ j, index.lookup t = some j ∧ c = .reference j ∧ i' = i + 1) ∨
      index.lookup t = none ∧
        Step types (fun t' => createTypeCodeOf types n t' ((t, i) :: index)) t i c i' := by
  rw [createTypeCodeOf] at h
  cases hlookup : index.lookup t with
  | some j =>
    simp only [hlookup, Option.some.injEq, Prod.mk.injEq] at h
    exact .inl ⟨j, rfl, h.1.symm, h.2.symm⟩
  | none =>
    refine .inr ⟨rfl, ?_⟩
    simp only [hlookup] at h
    cases t with
    | void | basic | string | any | ior =>
      simp only [Option.some.injEq, Prod.mk.injEq] at h
      obtain ⟨rfl, rfl⟩ := h
      exact .leaf _ rfl
    | vector t =>
      simp only [Option.bind_eq_bind, Option.bind_eq_some_iff, Option.some.injEq,
        Prod.mk.injEq] at h
      obtain ⟨⟨item, k⟩, hitem, rfl, rfl⟩ := h
      exact .repeated .sequence 0 rfl (by simp) hitem
    | array t size =>
      simp only [Option.bind_eq_bind, Option.bind_eq_some_iff, Option.some.injEq,
        Prod.mk.injEq] at h
      obtain ⟨⟨item, k⟩, hitem, rfl, rfl⟩ := h
      exact .repeated .array size rfl (by simp; omega) hitem
    | generated id =>
      cases hdeclared : types.declared id with
      | none => simp [hdeclared] at h
      | some declaration =>
        cases declaration with
        | enum repoId name values =>
          simp only [hdeclared, Option.some.injEq, Prod.mk.injEq] at h
          obtain ⟨rfl, rfl⟩ := h
          exact .leaf _ (by simp [CxxType.width, hdeclared, Code.width])
        | aggregate a repoId name members =>
          simp only [hdeclared, Option.bind_eq_bind, Option.bind_eq_some_iff,
            Option.some.injEq, Prod.mk.injEq] at h
          obtain ⟨⟨ms, k⟩, hms, rfl, rfl⟩ := h
          exact .aggregate a repoId name (by simp [CxxType.width, hdeclared])
            (List.forall_mem_map.mpr fun _ _ => rfl) hms
        | union repoId name t' cases d =>
          simp only [hdeclared, Option.bind_eq_bind, Option.bind_eq_some_iff,
            Option.some.injEq, Prod.mk.injEq] at h
          obtain ⟨⟨descriminant, k⟩, hd, ⟨ms, k'⟩, hms, rfl, rfl⟩ := h
          obtain ⟨width, hwidth, hlabels⟩ := types.labels hdeclared
          exact .union repoId name (by simp [CxxType.width, hdeclared]) hwidth hlabels
            (types.default hdeclared) hd hms

theorem lookup_entered {t t' : CxxType} {index : List (CxxType × Nat)} {i j : Nat}
    (h : ((t, i) :: index).lookup t' = some j) :
    (t' = t ∧ j = i) ∨ index.lookup t' = some j := by
  rw [List.lookup_cons] at h
  cases htt : t' == t with
  | true =>
    simp only [htt, Option.some.injEq] at h
    exact .inl ⟨by simpa using htt, h.symm⟩
  | false =>
    simp only [htt] at h
    exact .inr h

/-- What holds of the calls of `create` holds of the members. -/
theorem createMembers_formed {create : CxxType → Nat → Option (Code × Nat)}
    {scope : List Nat} (hcreate : ∀ t i c i', create t i = some (c, i') →
      i' = i + c.nodes.length ∧ c.Formed i scope) {width : Nat} :
    ∀ {cases : List Case} {i : Nat} {ms : Members} {i' : Nat},
      createMembers create cases i = some (ms, i') → (∀ c ∈ cases, c.label.length = width) →
        i' = i + ms.nodes.length ∧ ms.Formed width i scope ∧ ms.length = cases.length
  | [], i, ms, i', h, _ => by
    simp only [createMembers, Option.some.injEq, Prod.mk.injEq] at h
    obtain ⟨rfl, rfl⟩ := h
    exact ⟨rfl, trivial, rfl⟩
  | c :: cs, i, ms, i', h, hlabels => by
    simp only [createMembers, Option.bind_eq_bind, Option.bind_eq_some_iff, Option.some.injEq,
      Prod.mk.injEq] at h
    obtain ⟨⟨type, k⟩, htype, ⟨rest, k'⟩, hrest, rfl, rfl⟩ := h
    obtain ⟨hlabel, hlabels⟩ := List.forall_mem_cons.mp hlabels
    obtain ⟨rfl, hformed⟩ := hcreate _ _ _ _ htype
    obtain ⟨rfl, hrest, hlen⟩ := createMembers_formed hcreate hrest hlabels
    exact ⟨by simp [Members.nodes, Nat.add_assoc], ⟨hlabel, hformed, hrest⟩,
      by simp [Members.length, hlen]⟩

/-- The numbers of the calls are those of the nodes, references are to types that are being
created, and labels have their width, since no descriminant is ever a reference. -/
theorem createTypeCodeOf_formed : ∀ (n : Nat) (scope : List Nat) {t : CxxType}
    {index : List (CxxType × Nat)} {i : Nat} {c : Code} {i' : Nat},
    createTypeCodeOf types n t index i = some (c, i') →
    (∀ t' j, index.lookup t' = some j → j ∈ scope ∧ t'.width types.declared = none) →
    i' = i + c.nodes.length ∧ c.Formed i scope ∧
      ∀ w, t.width types.declared = some w → c.width = some w
  | 0, scope, t, index, i, c, i', h, _ => by simp [createTypeCodeOf] at h
  | n + 1, scope, t, index, i, c, i', h, hindex => by
    have hentered (hwidth : t.width types.declared = none) :
        ∀ t' j, ((t, i) :: index).lookup t' = some j →
          j ∈ i :: scope ∧ t'.width types.declared = none := by
      intro t' j hj
      rcases lookup_entered hj with ⟨rfl, rfl⟩ | hj
      · exact ⟨List.mem_cons_self, hwidth⟩
      · exact ⟨List.mem_cons_of_mem _ (hindex t' j hj).1, (hindex t' j hj).2⟩
    have hcreate (hwidth : t.width types.declared = none) := fun t' k c k'
        (h : createTypeCodeOf types n t' ((t, i) :: index) k = some (c, k')) =>
      createTypeCodeOf_formed n (i :: scope) h (hentered hwidth)
    rcases createTypeCodeOf_step h with ⟨j, hj, rfl, rfl⟩ | ⟨-, hstep⟩
    · refine ⟨rfl, (hindex t j hj).1, fun w hw => ?_⟩
      rw [(hindex t j hj).2] at hw
      cases hw
    · cases hstep with
      | leaf l hwidth => exact ⟨rfl, trivial, fun w hw => by rw [← hwidth, hw]⟩
      | repeated r bound hwidth hsize hitem =>
        obtain ⟨rfl, hitem, -⟩ := hcreate hwidth _ _ _ _ hitem
        exact ⟨by simp [Code.nodes]; omega, hitem, fun w hw => by simp [hwidth] at hw⟩
      | aggregate a repoId name hwidth hlabels hms =>
        obtain ⟨rfl, hmembers, -⟩ := createMembers_formed
          (fun t i c i' h => ⟨(hcreate hwidth t i c i' h).1, (hcreate hwidth t i c i' h).2.1⟩) hms
          hlabels
        exact ⟨by simp [Code.nodes]; omega, hmembers, fun w hw => by simp [hwidth] at hw⟩
      | union repoId name hwidth hwidth' hlabels hdefault hd hms =>
        obtain ⟨rfl, hd, hdwidth⟩ := hcreate hwidth _ _ _ _ hd
        obtain ⟨rfl, hms, hlen⟩ := createMembers_formed
          (fun t i c i' h => ⟨(hcreate hwidth t i c i' h).1, (hcreate hwidth t i c i' h).2.1⟩) hms
          hlabels
        exact ⟨by simp [Code.nodes]; omega,
          ⟨hd, ⟨_, hdwidth _ hwidth', hms⟩, fun n hn => by rw [hlen]; exact hdefault n hn⟩,
          fun w hw => by simp [hwidth] at hw⟩

/-- A type that is not inside a sequence of its own has a key. Those that are being created
around it are bigger, or have their keys already. -/
theorem createTypeCodeOf_key : ∀ (n : Nat) (enclosing : List (Nat × Key)) {t : CxxType}
    {index : List (CxxType × Nat)} {i : Nat} {c : Code} {i' : Nat},
    createTypeCodeOf types n t index i = some (c, i') →
    (∀ t' j, index.lookup t' = some j → sizeOf t' ≤ sizeOf t →
      ∃ k, enclosing.lookup j = some k) →
    ∃ k, c.key enclosing = some k
  | 0, enclosing, t, index, i, c, i', h, _ => by simp [createTypeCodeOf] at h
  | n + 1, enclosing, t, index, i, c, i', h, hindex => by
    rcases createTypeCodeOf_step h with ⟨j, hj, rfl, rfl⟩ | ⟨-, hstep⟩
    · exact hindex t j hj (Nat.le_refl _)
    · cases hstep with
      | leaf l => exact ⟨_, rfl⟩
      | aggregate => exact ⟨_, rfl⟩
      | union => exact ⟨_, rfl⟩
      | repeated r bound hwidth hsize hitem =>
        obtain ⟨k, hk⟩ := createTypeCodeOf_key n enclosing hitem (by
          intro t' j hj hle
          rcases lookup_entered hj with ⟨rfl, rfl⟩ | hj
          · omega
          · exact hindex t' j hj (by omega))
        exact ⟨_, by rw [Code.key, hk]; rfl⟩

theorem createMembers_keys {create : CxxType → Nat → Option (Code × Nat)}
    (enclosing : List (Nat × Key)) (hcreate : ∀ t i c i', create t i = some (c, i') →
      i' = i + c.nodes.length ∧ none ∉ c.keys enclosing i) :
    ∀ {cases : List Case} {i : Nat} {ms : Members} {i' : Nat},
      createMembers create cases i = some (ms, i') → none ∉ ms.keys enclosing i
  | [], i, ms, i', h => by
    simp only [createMembers, Option.some.injEq, Prod.mk.injEq] at h
    obtain ⟨rfl, rfl⟩ := h
    simp [Members.keys]
  | c :: cs, i, ms, i', h => by
    simp only [createMembers, Option.bind_eq_bind, Option.bind_eq_some_iff, Option.some.injEq,
      Prod.mk.injEq] at h
    obtain ⟨⟨type, k⟩, htype, ⟨rest, k'⟩, hrest, rfl, rfl⟩ := h
    obtain ⟨rfl, hkeys⟩ := hcreate _ _ _ _ htype
    have hrest := createMembers_keys enclosing hcreate hrest
    simp only [Members.keys, List.mem_append, not_or]
    exact ⟨hkeys, hrest⟩

/-- Every key can be found. -/
theorem createTypeCodeOf_keys : ∀ (n : Nat) (enclosing : List (Nat × Key)) {t : CxxType}
    {index : List (CxxType × Nat)} {i : Nat} {c : Code} {i' : Nat},
    createTypeCodeOf types n t index i = some (c, i') →
    (∀ t' j, index.lookup t' = some j →
      t'.width types.declared = none ∧ ∃ k, enclosing.lookup j = some k) →
    none ∉ c.keys enclosing i
  | 0, enclosing, t, index, i, c, i', h, _ => by simp [createTypeCodeOf] at h
  | n + 1, enclosing, t, index, i, c, i', h, hindex => by
    have hkey := createTypeCodeOf_key (n + 1) enclosing h fun t' j hj _ => (hindex t' j hj).2
    have hcreate (hwidth : t.width types.declared = none) (k : Key) := fun t' m c m'
        (h : createTypeCodeOf types n t' ((t, i) :: index) m = some (c, m')) =>
      createTypeCodeOf_keys n ((i, k) :: enclosing) h (by
        intro t' j hj
        rw [List.lookup_cons]
        rcases lookup_entered hj with ⟨rfl, rfl⟩ | hj
        · exact ⟨hwidth, k, by simp⟩
        · obtain ⟨hnone, k', hk'⟩ := hindex t' j hj
          cases hji : j == i with
          | true => exact ⟨hnone, k, rfl⟩
          | false => exact ⟨hnone, k', hk'⟩)
    have hnumber (hwidth : t.width types.declared = none) := fun t' m c m'
        (h : createTypeCodeOf types n t' ((t, i) :: index) m = some (c, m')) =>
      (createTypeCodeOf_formed n (i :: index.map Prod.snd) h (by
        intro t' j hj
        rcases lookup_entered hj with ⟨rfl, rfl⟩ | hj
        · exact ⟨List.mem_cons_self, hwidth⟩
        · obtain ⟨before, after, heq, -⟩ := List.lookup_eq_some_iff.mp hj
          exact ⟨by simp [heq], (hindex t' j hj).1⟩)).1
    rcases createTypeCodeOf_step h with ⟨j, hj, rfl, rfl⟩ | ⟨-, hstep⟩
    · simp [Code.keys]
    · cases hstep with
      | leaf l => simp [Code.keys]
      | repeated r bound hwidth hsize hitem =>
        obtain ⟨k, hk⟩ := hkey
        have := hcreate hwidth k _ _ _ _ hitem
        simp [Code.keys, hk, this]
      | aggregate a repoId name hwidth hlabels hms =>
        have := createMembers_keys ((i, .aggregate a repoId) :: enclosing)
          (fun t' m c m' h => ⟨hnumber hwidth t' m c m' h, hcreate hwidth _ t' m c m' h⟩) hms
        simp [Code.keys, this]
      | union repoId name hwidth hwidth' hlabels hdefault hd hms =>
        have hms := createMembers_keys ((i, .union repoId) :: enclosing)
          (fun t' m c m' h => ⟨hnumber hwidth t' m c m' h, hcreate hwidth _ t' m c m' h⟩) hms
        rw [hnumber hwidth _ _ _ _ hd] at hms
        simp [Code.keys, hms, hcreate hwidth _ _ _ _ _ hd]

/-- Through sequences there is no reference to get to, as these are inside bigger types. -/
theorem createTypeCodeOf_equals : ∀ (n : Nat) {t : CxxType} {index : List (CxxType × Nat)}
    {i : Nat} {c : Code} {i' : Nat},
    createTypeCodeOf types n t index i = some (c, i') →
    (∀ t' j, index.lookup t' = some j → sizeOf t < sizeOf t') →
    ∀ (m : Nat) (x? y? : Nat → Option Code), c.nodes.length ≤ m →
      equals m x? y? c c = some true
  | 0, t, index, i, c, i', h, _ => by simp [createTypeCodeOf] at h
  | n + 1, t, index, i, c, i', h, hindex => by
    intro m x? y? hm
    have hpos := nodes_pos c
    obtain ⟨m, rfl⟩ : ∃ k, m = k + 1 := ⟨m - 1, by omega⟩
    rcases createTypeCodeOf_step h with ⟨j, hj, rfl, rfl⟩ | ⟨-, hstep⟩
    · exact absurd (hindex t j hj) (Nat.lt_irrefl _)
    · cases hstep with
      | leaf l => simp [equals, Leaf.equals]
      | aggregate => simp [equals]
      | union => simp [equals]
      | repeated r bound hwidth hsize hitem =>
        simp only [Code.nodes, List.length_cons] at hm
        simp only [equals, and_self, if_true]
        refine createTypeCodeOf_equals n hitem ?_ m y? x? (by omega)
        intro t' j hj
        rcases lookup_entered hj with ⟨rfl, rfl⟩ | hj
        · exact hsize
        · exact Nat.lt_trans hsize (hindex t' j hj)

/-! ## The round trip -/

/-- Marshalled at any position of a stream, with what is in it before, and unmarshalled from
there: no assertion fails, the octets are those of the specification, exactly these are read,
and the type code read is the same, as are the types that its references lead to, and equal
both ways. -/
def RoundTrips (little : Bool) (c : Code) (out : List UInt8) : Prop :=
  ∃ octets index, c.marshal little 0 [] 0 ⟨out, []⟩ = some ⟨out ++ octets, index⟩ ∧
    octets = c.encode kindAt little 0 0 [] out.length ∧
    ∃ m, ∀ n ≥ m, ∀ rest, ∃ read ix,
      unmarshalFrom little n ⟨little, out.length, octets ++ rest⟩ =
        .returned read ⟨little, out.length + octets.length, rest⟩ ix ∧
      read = c ∧ (∀ j, ix.at? j = c.nodes[j]?) ∧
      equals n (c.nodes[·]?) ix.at? c read = some true ∧
      equals n ix.at? (c.nodes[·]?) read c = some true

/-- No two types are the same key. -/
def Distinct (c : Code) : Prop := (c.keys [] 0).Nodup

/-- What was marshalled to where types begin in the index is unmarshalled. -/
theorem unmarshalFrom_encode {c : Code} (hformed : c.Formed 0 []) {n p : Nat}
    (hn : c.nodes.length ≤ n)
    (hfits : p + (c.encode recorded little 0 0 [] p).length < 2 ^ 31) (rest : List UInt8) :
    ∃ ix, unmarshalFrom little n ⟨little, p, c.encode recorded little 0 0 [] p ++ rest⟩ =
        .returned c ⟨little, p + (c.encode recorded little 0 0 [] p).length, rest⟩ ix ∧
      ∀ j, ix.at? j = c.nodes[j]? := by
  obtain ⟨new, referred, hread, hnodes, hsound⟩ := c.readsBack (n := n) 0 p []
    ⟨[], []⟩ rest hn
    ⟨⟨List.Pairwise.nil, by simp⟩, by simp⟩ (by simp [Entered]) hformed (by simpa using hfits)
  have hat : ∀ j, (Index.mk ([] ++ new) referred).at? j = c.nodes[j]? := by
    intro j
    have := congrArg (·[j]?) hnodes
    simp only [List.getElem?_map] at this
    simp only [Index.at?, List.nil_append]
    cases hj : new[j]? with
    | none =>
      rw [hj] at this
      cases hc : c.nodes[j]? with
      | none => rfl
      | some x => simp [hc] at this
    | some e =>
      rw [hj] at this
      cases hc : c.nodes[j]? with
      | none => simp [hc] at this
      | some x => simpa [hc] using this
  refine ⟨⟨[] ++ new, referred⟩, ?_, hat⟩
  have hresolves : (Index.mk ([] ++ new) referred).resolves := by
    intro j hj
    have hlen := congrArg List.length hnodes
    have hlt := hsound.referred j hj
    simp only [List.length_map, List.nil_append] at hlen hlt
    rw [hat, List.getElem?_eq_getElem (by omega)]
    rfl
  rw [unmarshalFrom, List.length_nil] at *
  rw [hread]
  simp only [if_pos hresolves]

/-- A type code that createTypeCodeOf makes comes back from a stream just where no two of its
types are equal, so that no assertion fails when it is marshalled, and every type that there
is a reference to begins at a multiple of 4, as indirections take for granted. -/
theorem typeCode_roundTrips_iff (types : Declarations) (t : CxxType) (c : Code)
    (hcreated : Created types t c) (little : Bool) (out : List UInt8)
    (hfits : out.length + (c.encode kindAt little 0 0 [] out.length).length < 2 ^ 31) :
    RoundTrips little c out ↔ Distinct c ∧ c.Aligned 0 (out.length % 4) := by
  obtain ⟨n, i, h⟩ := hcreated
  obtain ⟨-, hformed, -⟩ := createTypeCodeOf_formed n [] h (by simp)
  have hkeys := createTypeCodeOf_keys n [] h (by simp)
  have hequals := createTypeCodeOf_equals n h (by simp)
  have hlen := c.length_encode little recorded kindAt 0 0 0 out.length [] []
  rw [← hlen] at hfits
  have haligned : c.encode recorded little 0 0 [] out.length =
      c.encode kindAt little 0 0 [] out.length ↔
        Agree c.references [] [] [] ∧ c.Aligned 0 ((0 + out.length) % 4) :=
    c.rightIff rfl (by simp [Begun]) hformed (by simpa using hfits)
  rw [Nat.zero_add] at haligned
  have hwrite (hnodup : Distinct c) : ∃ new, c.marshal little 0 [] 0 ⟨out, []⟩ =
      some (((Written.mk out []).put (c.encode recorded little 0 0 [])).add new) := by
    obtain ⟨new, hwritten, -⟩ := c.marshals 0 ⟨out, []⟩
      (show Known [] [] [] by simp [Known]) (show InScope [] [] by simp [InScope]) hformed
      hnodup hkeys
    exact ⟨new, hwritten⟩
  constructor
  · rintro ⟨octets, index, hmarshal, hoctets, -⟩
    have hadds := c.marshal_adds hmarshal
    have hnodup := hadds.2 List.nodup_nil
    rw [hadds.1, show (Written.mk out []).keys = [] from rfl, List.nil_append] at hnodup
    refine ⟨hnodup, (haligned.mp ?_).2⟩
    obtain ⟨new, hwritten⟩ := hwrite hnodup
    rw [hmarshal] at hwritten
    have := congrArg Written.out (Option.some.inj hwritten)
    rw [← hoctets]
    exact (List.append_cancel_left this).symm
  · rintro ⟨hnodup, hal⟩
    obtain ⟨new, hwritten⟩ := hwrite hnodup
    refine ⟨_, _, hwritten, haligned.mpr ⟨by simp [Agree], hal⟩, c.nodes.length,
      fun n hn rest => ?_⟩
    obtain ⟨ix, hread, hat⟩ := unmarshalFrom_encode hformed hn hfits rest
    exact ⟨c, ix, hread, rfl, hat, hequals n _ _ hn, hequals n _ _ hn⟩

/-! ## Two types -/

/-- Declarations without unions -/
def oneStruct (repoId name : CString) (members : List (CString × CxxType)) : Declarations where
  declared _ := some (.aggregate .struct repoId name members)
  labels := nofun
  default := nofun

def treeName : CString := ⟨[84, 114, 101, 101], by decide⟩

/-- The Tree of test-TypeCode.cc: a name, and a vector of trees -/
def treeTypes : Declarations :=
  oneStruct treeName treeName
    [(⟨[110, 97, 109, 101], by decide⟩, .string),
      (⟨[99, 104, 105, 108, 100, 114, 101, 110], by decide⟩, .vector (.generated 0))]

def tree : Code :=
  .aggregate .struct treeName treeName
    (.cons [] ⟨[110, 97, 109, 101], by decide⟩ (.leaf (.string 0))
      (.cons [] ⟨[99, 104, 105, 108, 100, 114, 101, 110], by decide⟩
        (.repeated .sequence (.reference 0) 0) .nil))

theorem tree_created : Created treeTypes (.generated 0) tree := ⟨4, 4, rfl⟩

/-- At the start of a stream the tree of the test comes back. -/
theorem tree_roundTrips : RoundTrips true tree [] :=
  (typeCode_roundTrips_iff treeTypes (.generated 0) tree tree_created true []
    (by decide +kernel)).mpr
    ⟨by rw [Distinct]; decide +kernel,
      by simp [tree, Code.Aligned, Members.Aligned, Code.references, Code.nodes]⟩

/-- `struct P { long x; long y; };` -/
def pairTypes : Declarations :=
  oneStruct ⟨[80], by decide⟩ ⟨[80], by decide⟩
    [(⟨[120], by decide⟩, .basic .long), (⟨[121], by decide⟩, .basic .long)]

def pair : Code :=
  .aggregate .struct ⟨[80], by decide⟩ ⟨[80], by decide⟩
    (.cons [] ⟨[120], by decide⟩ (.leaf (.basic .long))
      (.cons [] ⟨[121], by decide⟩ (.leaf (.basic .long)) .nil))

/-- The second of two members of a type fails the assertion, and behind an octet the tree's
indirection leads to the padding before it. -/
theorem pair_and_tree_fail :
    (Created pairTypes (.generated 0) pair ∧ ¬ RoundTrips true pair []) ∧
      Created treeTypes (.generated 0) tree ∧ ¬ RoundTrips true tree [0] := by
  refine ⟨⟨⟨4, 3, rfl⟩, ?_⟩, tree_created, ?_⟩
  · rintro ⟨octets, index, h, -⟩
    have hnone : pair.marshal true 0 [] 0 ⟨[], []⟩ = none := rfl
    rw [hnone] at h
    cases h
  · rintro ⟨octets, index, h, rfl, -⟩
    have hout : (tree.marshal true 0 [] 0 ⟨[0], []⟩).map Written.out =
        some ([0] ++ tree.encode kindAt true 0 0 [] 1) := congrArg (Option.map Written.out) h
    exact absurd hout (by decide +kernel)

end Urnest.TypeCode
