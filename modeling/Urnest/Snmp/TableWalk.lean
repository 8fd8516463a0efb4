import Urnest.Snmp.Table

/-!
# Walking a table

The walk over a finite MIB visits the rows of the table, in order: after `k` turns the
table holds the first `k` instances of every column (`Table.walk_rows`), because the
instances of a column come one after the other, right behind the column, in the order
that get-next follows (`Mib.next?_cursor`).

The walk stops right there when the answer behind the last row ends the table. A V2c
answer always does. A V1 agent at the end of its MIB answers "no such name", which
`validateResponse` hands on as `.1.3`, and a column that contains `.1.3` takes that for
a cell: `visitsExactly_iff` says when the walk is exact all the same.
-/

namespace Urnest.Snmp

open Lib

/-! ## Tables by column -/

namespace Table

variable {ι : Type} {t t' : Table ι}

/-- Column `c` holds the cells `g c`. -/
def Holds (t : Table ι) (g : Oid → List ι) : Prop :=
  t.data.toList = t.cols.toList.map fun c => (c, g c)

theorem new_holds (cols : SortedSet Oid) : (new cols : Table ι).Holds fun _ => [] := rfl

theorem Holds.congr {g g' : Oid → List ι} (h : t.Holds g)
    (hg : ∀ c ∈ t.cols.toList, g c = g' c) : t.Holds g' := by
  rw [Holds, h]
  exact List.map_congr_left fun c hc => by rw [hg c hc]

/-- The identifier to ask for after the cells of a column. -/
def cursor (oidOf : ι → Oid) (c : Oid) (cells : List ι) : Oid :=
  (cells.getLast?.map oidOf).getD c

@[simp] theorem cursor_nil (oidOf : ι → Oid) (c : Oid) : cursor oidOf c [] = c := rfl

@[simp] theorem cursor_append (oidOf : ι → Oid) (c : Oid) (cells : List ι) (cell : ι) :
    cursor oidOf c (cells ++ [cell]) = oidOf cell := by
  simp [cursor]

theorem lastOids_map (oidOf : ι → Oid) {g : Oid → List ι} {cs : List Oid}
    (hg : ∀ c ∈ cs, g c ≠ []) :
    lastOids oidOf (cs.map fun c => (c, g c)) = .ok (cs.map fun c => cursor oidOf c (g c)) := by
  induction cs with
  | nil => rfl
  | cons c cs ih =>
    have hlast := List.getLast?_eq_some_getLast (hg c (List.mem_cons_self ..))
    simp [lastOids, cursor, hlast, ih fun d hd => hg d (List.mem_cons_of_mem _ hd)]

/-- With as many cells in every column, `nextOids` asks for what follows each. -/
theorem Holds.nextOids_eq (oidOf : ι → Oid) {g : Oid → List ι} {n : Nat} (h : t.Holds g)
    (hcols : t.cols.toList ≠ []) (hn : ∀ c ∈ t.cols.toList, (g c).length = n) :
    t.nextOids oidOf = .ok (t.cols.toList.map fun c => cursor oidOf c (g c)) := by
  obtain ⟨c, cs, hcs⟩ := List.exists_cons_of_ne_nil hcols
  have hdata : t.data.toList = (c, g c) :: cs.map fun c => (c, g c) := by rw [h, hcs]; rfl
  rw [nextOids, hdata]
  by_cases hzero : n = 0
  · have hnil : ∀ d ∈ t.cols.toList, g d = [] := fun d hd =>
      List.eq_nil_of_length_eq_zero ((hn d hd).trans hzero)
    have hcursor : (t.cols.toList.map fun c => cursor oidOf c (g c)) = t.cols.toList := by
      conv_rhs => rw [← List.map_id t.cols.toList]
      exact List.map_congr_left fun d hd => by simp [hnil d hd]
    simp [hnil c (by simp [hcs]), hcursor]
  · have hcells : ∀ d ∈ t.cols.toList, g d ≠ [] := fun d hd hnil =>
      hzero (by rw [← hn d hd, hnil]; rfl)
    have hlast := lastOids_map oidOf hcells
    have hne : (g c).length ≠ 0 := by rwa [hn c (by simp [hcs])]
    rw [hcs, List.map_cons] at hlast
    simp [hne, hlast, hcs, assert]

/-! ### Rows -/

theorem pushCells_map {cs : List Oid} (g : Oid → List ι) (row : Oid → ι) :
    pushCells (cs.map fun c => (c, g c)) (cs.map row)
      = cs.map fun c => (c, g c ++ [row c]) := by
  induction cs with
  | nil => rfl
  | cons c cs ih => simp [pushCells, ih]

theorem add_map (leaves : Oid → ι → Bool) (t : Table ι) (row : Oid → ι) :
    t.add leaves (t.cols.toList.map row)
      = .ok (if ∃ c ∈ t.cols.toList, leaves c (row c) = true then { t with atEnd := true }
          else t.pushRow (t.cols.toList.map row)) := by
  have hany : ((t.cols.toList.zip (t.cols.toList.map row)).any fun x => leaves x.1 x.2) = true
      ↔ ∃ c ∈ t.cols.toList, leaves c (row c) = true := by
    have hzip : t.cols.toList.zip (t.cols.toList.map row)
        = t.cols.toList.map fun c => (c, row c) := by
      simpa using List.zip_map' (l := t.cols.toList) (f := id) (g := row)
    rw [hzip]
    simp
  simp only [add, assert, List.length_map, decide_true, if_true, Run.ok_bind]
  split_ifs <;> simp_all

theorem Holds.pushRow {g : Oid → List ι} (h : t.Holds g) (row : Oid → ι) :
    (t.pushRow (t.cols.toList.map row)).Holds fun c => g c ++ [row c] := by
  change pushCells t.data.toList (t.cols.toList.map row) = _
  rw [h, pushCells_map]
  rfl

theorem tall_pushCells {m : Nat} {xs : List (Oid × List ι)} {row : List ι}
    (h : ∀ x ∈ xs, m ≤ x.2.length) : ∀ x ∈ pushCells xs row, m ≤ x.2.length := by
  induction xs generalizing row with
  | nil => exact h
  | cons x xs ih =>
    cases row with
    | nil => exact h
    | cons cell row =>
      intro y hy
      rcases List.mem_cons.mp hy with rfl | hy
      · have hx := h x (List.mem_cons_self ..)
        rw [List.length_append]
        omega
      · exact ih (fun z hz => h z (List.mem_cons_of_mem _ hz)) y hy

/-- Columns do not get shorter. -/
theorem tall_add {leaves : Oid → ι → Bool} {m : Nat} {row : List ι}
    (hadd : t.add leaves row = .ok t') (h : ∀ x ∈ t.data.toList, m ≤ x.2.length) :
    ∀ x ∈ t'.data.toList, m ≤ x.2.length := by
  obtain ⟨-, -, hrow⟩ := Run.bind_eq_ok.mp hadd
  split_ifs at hrow with hleaves
  · cases hrow
    exact h
  · cases hrow
    exact tall_pushCells h

/-! ## Walks -/

/-- The walk that starts without rows ends with just the given ones, and at every
moment the columns have the same length. -/
structure VisitsExactly (turn : Nat → Table ι → Result (Table ι)) (cols : SortedSet Oid)
    (rows : Oid → List ι) : Prop where
  even : ∀ n t, walk turn (.new cols) n = .ok t → ∃ m, ∀ x ∈ t.data.toList, x.2.length = m
  ends : ∃ n t, walk turn (.new cols) n = .ok t ∧ t.atEnd = true ∧
    t.data.toList = cols.toList.map fun c => (c, rows c)

/-- The table that holds the first `k` of the given rows, and wants more. -/
structure At (cols : SortedSet Oid) (rows : Oid → List ι) (k : Nat) (t : Table ι) : Prop where
  cols_eq : t.cols = cols
  holds : t.Holds fun c => (rows c).take k
  more : t.atEnd = false

/-- A row of next cells is taken. -/
theorem At.add_next {leaves : Oid → ι → Bool} {cols : SortedSet Oid} {rows : Oid → List ι}
    {row : Oid → ι} {k : Nat} (h : t.At cols rows k)
    (hrow : ∀ c ∈ cols.toList, (rows c)[k]? = some (row c))
    (hstay : ∀ c ∈ cols.toList, leaves c (row c) = false) :
    ∃ t', t.add leaves (t.cols.toList.map row) = .ok t' ∧ t'.At cols rows (k + 1) := by
  have hno : ¬ ∃ c ∈ t.cols.toList, leaves c (row c) = true := by
    rintro ⟨c, hc, hleaves⟩
    rw [h.cols_eq] at hc
    simp [hstay c hc] at hleaves
  refine ⟨t.pushRow (t.cols.toList.map row), by rw [add_map, if_neg hno], h.cols_eq, ?_, h.more⟩
  refine (h.holds.pushRow row).congr fun c hc => ?_
  have hc' : c ∈ cols.toList := by rwa [← h.cols_eq]
  rw [List.take_add_one, hrow c hc']
  rfl

/-- A cell that leaves ends the table as it is. -/
theorem At.add_last {leaves : Oid → ι → Bool} {cols : SortedSet Oid} {rows : Oid → List ι}
    {row : Oid → ι} {k : Nat} (h : t.At cols rows k)
    (hleaves : ∃ c ∈ cols.toList, leaves c (row c) = true) :
    t.add leaves (t.cols.toList.map row) = .ok { t with atEnd := true } := by
  rw [← h.cols_eq] at hleaves
  rw [add_map, if_pos hleaves]

/-- A row of cells that all stay makes every column longer. -/
theorem At.add_extra {leaves : Oid → ι → Bool} {cols : SortedSet Oid} {rows : Oid → List ι}
    {row : Oid → ι} {N : Nat} (h : t.At cols rows N)
    (hN : ∀ c ∈ cols.toList, (rows c).length = N)
    (hstay : ∀ c ∈ cols.toList, leaves c (row c) = false) :
    ∃ t', t.add leaves (t.cols.toList.map row) = .ok t' ∧
      ∀ x ∈ t'.data.toList, N + 1 ≤ x.2.length := by
  have hno : ¬ ∃ c ∈ t.cols.toList, leaves c (row c) = true := by
    rintro ⟨c, hc, hleaves⟩
    rw [h.cols_eq] at hc
    simp [hstay c hc] at hleaves
  refine ⟨t.pushRow (t.cols.toList.map row), by rw [add_map, if_neg hno], ?_⟩
  rw [h.holds.pushRow row]
  intro x hx
  obtain ⟨c, hc, rfl⟩ := List.mem_map.mp hx
  rw [show (t.pushRow (t.cols.toList.map row)).cols = cols from h.cols_eq] at hc
  simp [hN c hc]

section Walk

variable {turn : Nat → Table ι → Result (Table ι)} {cols : SortedSet Oid}
  {rows : Oid → List ι} {N : Nat}

theorem At.data_eq {k : Nat} (h : t.At cols rows k) :
    t.data.toList = cols.toList.map fun c => (c, (rows c).take k) := by
  rw [h.holds, h.cols_eq]

theorem At.length_eq {k : Nat} (h : t.At cols rows k)
    (hN : ∀ c ∈ cols.toList, (rows c).length = N) (hk : k ≤ N) :
    ∀ x ∈ t.data.toList, x.2.length = k := by
  rw [h.data_eq]
  intro x hx
  obtain ⟨c, hc, rfl⟩ := List.mem_map.mp hx
  rw [List.length_take, hN c hc]
  omega

/-- One row a turn. -/
theorem walk_rows
    (hstep : ∀ k < N, ∀ t, t.At cols rows k → ∃ t', turn k t = .ok t' ∧ t'.At cols rows (k + 1)) :
    ∀ k ≤ N, ∃ t, walk turn (.new cols) k = .ok t ∧ t.At cols rows k := by
  intro k
  induction k with
  | zero => exact fun _ => ⟨_, rfl, rfl, by simpa using new_holds cols, rfl⟩
  | succ k ih =>
    intro hk
    obtain ⟨t, ht, hat⟩ := ih (by omega)
    obtain ⟨t', ht', hat'⟩ := hstep k (by omega) t hat
    exact ⟨t', by simp [walk, ht, hat.more, ht'], hat'⟩

/-- A turn that ends the table behind the last row makes the walk exact. -/
theorem VisitsExactly.of_last (hN : ∀ c ∈ cols.toList, (rows c).length = N)
    (hstep : ∀ k < N, ∀ t, t.At cols rows k → ∃ t', turn k t = .ok t' ∧ t'.At cols rows (k + 1))
    (hlast : ∀ t, t.At cols rows N → turn N t = .ok { t with atEnd := true }) :
    VisitsExactly turn cols rows := by
  obtain ⟨tN, htN, hatN⟩ := walk_rows hstep N le_rfl
  have hend : ∀ j, walk turn (.new cols) (N + 1 + j) = .ok { tN with atEnd := true } := by
    intro j
    induction j with
    | zero => simp [walk, htN, hatN.more, hlast tN hatN]
    | succ j ih =>
      rw [← Nat.add_assoc, walk, ih]
      rfl
  constructor
  · intro n t ht
    by_cases hn : n ≤ N
    · obtain ⟨t', ht', hat⟩ := walk_rows hstep n hn
      cases ht.symm.trans ht'
      exact ⟨n, hat.length_eq hN hn⟩
    · have hn' := hend (n - (N + 1))
      rw [Nat.add_sub_cancel' (by omega)] at hn'
      cases ht.symm.trans hn'
      exact ⟨N, hatN.length_eq hN le_rfl⟩
  · refine ⟨N + 1, _, hend 0, rfl, ?_⟩
    rw [hatN.data_eq]
    exact List.map_congr_left fun c hc => by rw [List.take_of_length_le (hN c hc).le]

/-- A turn that takes a row more than there are makes the walk inexact, since columns
do not get shorter again. -/
theorem VisitsExactly.not_of_last (hcols : cols.toList ≠ [])
    (hN : ∀ c ∈ cols.toList, (rows c).length = N)
    (hstep : ∀ k < N, ∀ t, t.At cols rows k → ∃ t', turn k t = .ok t' ∧ t'.At cols rows (k + 1))
    (htall : ∀ k t t' m, turn k t = .ok t' → (∀ x ∈ t.data.toList, m ≤ x.2.length) →
      ∀ x ∈ t'.data.toList, m ≤ x.2.length)
    (hlast : ∀ t, t.At cols rows N → ∃ t', turn N t = .ok t' ∧
      ∀ x ∈ t'.data.toList, N + 1 ≤ x.2.length) :
    ¬ VisitsExactly turn cols rows := by
  rintro ⟨-, n, t, ht, hend, hdata⟩
  -- Before row `N` the walk has not ended; beyond it the columns are too long.
  by_cases hn : n ≤ N
  · obtain ⟨t', ht', hat⟩ := walk_rows hstep n hn
    cases ht.symm.trans ht'
    cases hend.symm.trans hat.more
  · have hbeyond : ∀ j t, walk turn (.new cols) (N + 1 + j) = .ok t →
        ∀ x ∈ t.data.toList, N + 1 ≤ x.2.length := by
      intro j
      induction j with
      | zero =>
        intro t ht
        obtain ⟨tN, htN, hatN⟩ := walk_rows hstep N le_rfl
        obtain ⟨t', ht', hrow⟩ := hlast tN hatN
        have hwalk : walk turn (.new cols) (N + 1) = .ok t' := by
          simp [walk, htN, hatN.more, ht']
        cases ht.symm.trans hwalk
        exact hrow
      | succ j ih =>
        intro t ht
        rw [← Nat.add_assoc, walk, Run.bind_eq_ok] at ht
        obtain ⟨s, hs, ht⟩ := ht
        split_ifs at ht with hs'
        · cases ht
          exact ih _ hs
        · exact htall _ s t _ ht (ih s hs)
    obtain ⟨c, cs, hcs⟩ := List.exists_cons_of_ne_nil hcols
    have hmem : (c, rows c) ∈ t.data.toList := by
      rw [hdata, hcs]
      exact List.mem_cons_self ..
    have hlong := hbeyond (n - (N + 1)) t (by rwa [Nat.add_sub_cancel' (by omega)]) _ hmem
    have hc : (rows c).length = N := hN c (by simp [hcs])
    simp only at hlong
    omega

end Walk

end Table

/-! ## What get-next finds -/

namespace Mib

/-- What comes behind the column and its instances. -/
def beyond (mib : Mib) (col : Oid) : List (Oid × Value) :=
  mib.toList.filter fun x => decide (col < x.1) && !(col.contains x.1 && x.1 ≠ col)

theorem mem_beyond {mib : Mib} {col : Oid} {x : Oid × Value} :
    x ∈ mib.beyond col ↔ x ∈ mib.toList ∧ col < x.1 ∧ col.contains x.1 = false := by
  simp only [beyond, List.mem_filter, Bool.and_eq_true, decide_eq_true_eq, Bool.not_eq_true',
    Bool.and_eq_false_iff, decide_eq_false_iff_not, not_not]
  refine and_congr_right fun _ => and_congr_right fun hlt => ?_
  exact or_iff_left hlt.ne'

theorem mem_instances {mib : Mib} {col : Oid} {x : Oid × Value} :
    x ∈ mib.instances col ↔ x ∈ mib.toList ∧ col.contains x.1 = true ∧ x.1 ≠ col := by
  simp [instances]

/-- The instances of a column come one after the other, right behind the column. -/
theorem toList_split (mib : Mib) (col : Oid) :
    mib.toList = mib.toList.filter (fun x => decide (x.1 ≤ col)) ++
      (mib.instances col ++ mib.beyond col) := by
  refine OrderedBy.split_run mib col _ ?_ ?_
  · intro x _ hx
    simp only [Bool.and_eq_true, decide_eq_true_eq] at hx
    exact Oid.lt_of_contains hx.1 hx.2
  · intro x _ y _ hlt hxy hy
    simp only [Bool.and_eq_true, decide_eq_true_eq] at hy ⊢
    exact ⟨Oid.contains_of_between hy.1 hlt.le hxy.le, hlt.ne'⟩

/-- After the column and its first `k` instances comes the next one and, after the
last, what is beyond. -/
theorem next?_cursor (mib : Mib) (col : Oid) (k : Nat) :
    mib.next? (Table.cursor Prod.fst col ((mib.instances col).take k))
      = ((mib.instances col).drop k ++ mib.beyond col).head? := by
  rcases List.eq_nil_or_concat' ((mib.instances col).take k) with hnil | ⟨init, y, hinit⟩
  · have hdrop : (mib.instances col).drop k = mib.instances col := by
      conv_rhs => rw [← List.take_append_drop k (mib.instances col), hnil]
      rfl
    rw [hnil, hdrop, Table.cursor_nil]
    refine OrderedBy.next?_of_split (mib.toList_split col) ?_ ?_
    · intro x hx
      simpa using (List.mem_filter.mp hx).2
    · intro x hx
      rcases List.mem_append.mp hx with hx | hx
      · exact Oid.lt_of_contains (mem_instances.mp hx).2.1 (mem_instances.mp hx).2.2
      · exact (mem_beyond.mp hx).2.1
  · have hsplit : mib.toList = (mib.toList.filter (fun x => decide (x.1 ≤ col)) ++ init) ++
        y :: ((mib.instances col).drop k ++ mib.beyond col) := by
      conv_lhs => rw [mib.toList_split col, ← List.take_append_drop k (mib.instances col), hinit]
      simp
    rw [hinit, Table.cursor_append]
    exact OrderedBy.next?_after hsplit

/-! ## Answers -/

theorem mapM_map_some {mib : Mib} (cs : List Oid) (cursor : Oid → Oid)
    {row : Oid → Oid × Value}
    (h : ∀ c ∈ cs, mib.next? (cursor c) = some (row c)) :
    (cs.map cursor).mapM mib.next? = some (cs.map row) := by
  induction cs with
  | nil => rfl
  | cons c cs ih =>
    simp [h c (List.mem_cons_self ..), ih fun d hd => h d (List.mem_cons_of_mem _ hd)]

theorem mapM_map_none {mib : Mib} (cs : List Oid) (cursor : Oid → Oid)
    (h : ∃ c ∈ cs, mib.next? (cursor c) = none) : (cs.map cursor).mapM mib.next? = none := by
  induction cs with
  | nil => simp at h
  | cons c cs ih =>
    rw [List.map_cons, List.mapM_cons]
    cases hc : mib.next? (cursor c) with
    | none => rfl
    | some x =>
      obtain ⟨d, hd, hnone⟩ := h
      rcases List.mem_cons.mp hd with rfl | hd
      · cases hc.symm.trans hnone
      · simp [ih ⟨d, hd, hnone⟩]

/-- Where everything has a successor, those are the row. -/
theorem validateResponse_answerV1_some {mib : Mib} {request : SnmpV1GetNextRequest}
    {values : List (Oid × Value)} (h : request.oids.mapM mib.next? = some values)
    (hlength : values.length = request.oids.length) :
    request.validateResponse (mib.answerV1 request) = .ok values := by
  simp [SnmpV1GetNextRequest.validateResponse, answerV1, h, checkIsResponse, check, hlength]

/-- Where something has none, the row says "no such name" for everything. -/
theorem validateResponse_answerV1_none {mib : Mib} {request : SnmpV1GetNextRequest}
    (h : request.oids.mapM mib.next? = none) :
    request.validateResponse (mib.answerV1 request)
      = .ok (request.oids.map fun _ => noSuchNameVar) := by
  simp [SnmpV1GetNextRequest.validateResponse, answerV1, h, checkIsResponse, check,
    ErrorStatus.noError, ErrorStatus.tooBig, ErrorStatus.noSuchName]

theorem validateResponse_answerV2c (mib : Mib) (request : SnmpV2cGetNextRequest) :
    request.validateResponse (mib.answerV2c request) = .ok (request.oids.map mib.nextVar) := by
  simp [SnmpV2cGetNextRequest.validateResponse, answerV2c, checkIsResponse, check,
    throwErrorStatus]

end Mib

/-! ## The V1 walk -/

namespace SnmpV1Table

open Table

variable {mib : Mib} {community : Community} {ids : Nat → RequestId} {cols : SortedSet Oid}
  {t : SnmpV1Table} {n k N : Nat}

theorem nextOids_at (hcols : cols.toList ≠ [])
    (hN : ∀ c ∈ cols.toList, (mib.instances c).length = N) (h : t.At cols mib.instances k)
    (hk : k ≤ N) :
    t.nextOids = .ok (t.cols.toList.map fun c =>
      cursor Prod.fst c ((mib.instances c).take k)) := by
  refine h.holds.nextOids_eq Prod.fst (by rwa [h.cols_eq]) (n := k) fun c hc => ?_
  rw [h.cols_eq] at hc
  rw [List.length_take, hN c hc]
  omega

/-- A turn where every column has a successor adds them. -/
theorem turn_of_some (row : Oid → Oid × Value) (hcols : cols.toList ≠ [])
    (hN : ∀ c ∈ cols.toList, (mib.instances c).length = N) (h : t.At cols mib.instances k)
    (hk : k ≤ N)
    (hrow : ∀ c ∈ cols.toList,
      ((mib.instances c).drop k ++ mib.beyond c).head? = some (row c)) :
    turn mib community ids n t = t.add (t.cols.toList.map row) := by
  have hsome := Mib.mapM_map_some t.cols.toList
    (fun c => cursor Prod.fst c ((mib.instances c).take k)) fun c hc => by
      rw [h.cols_eq] at hc
      rw [mib.next?_cursor, hrow c hc]
  simp only [turn, nextOids_at hcols hN h hk, Run.ok_bind]
  rw [Mib.validateResponse_answerV1_some hsome (by simp), Run.ok_bind]

/-- A turn where some column has none adds a row of "no such name". -/
theorem turn_of_none (hcols : cols.toList ≠ [])
    (hN : ∀ c ∈ cols.toList, (mib.instances c).length = N) (h : t.At cols mib.instances k)
    (hk : k ≤ N)
    (hnone : ∃ c ∈ cols.toList, ((mib.instances c).drop k ++ mib.beyond c).head? = none) :
    turn mib community ids n t = t.add (t.cols.toList.map fun _ => noSuchNameVar) := by
  have hmapM : (t.cols.toList.map fun c =>
      cursor Prod.fst c ((mib.instances c).take k)).mapM mib.next? = none := by
    obtain ⟨c, hc, hhead⟩ := hnone
    exact Mib.mapM_map_none _ _ ⟨c, by rwa [h.cols_eq], by rw [mib.next?_cursor, hhead]⟩
  simp only [turn, nextOids_at hcols hN h hk, Run.ok_bind]
  rw [Mib.validateResponse_answerV1_none hmapM, Run.ok_bind, List.map_map]
  rfl

/-- Before the last row, a turn adds the next one. -/
theorem turn_next (hcols : cols.toList ≠ [])
    (hN : ∀ c ∈ cols.toList, (mib.instances c).length = N) (hk : k < N)
    (h : t.At cols mib.instances k) :
    ∃ t', turn mib community ids n t = .ok t' ∧ t'.At cols mib.instances (k + 1) := by
  have hget : ∀ c ∈ cols.toList,
      (mib.instances c)[k]? = some (((mib.instances c)[k]?).getD noSuchNameVar) := by
    intro c hc
    rw [List.getElem?_eq_getElem (by rw [hN c hc]; exact hk)]
    rfl
  rw [turn_of_some (fun c => ((mib.instances c)[k]?).getD noSuchNameVar) hcols hN h hk.le]
  · refine h.add_next hget fun c hc => ?_
    have hmem := Mib.mem_instances.mp (List.mem_of_getElem? (hget c hc))
    simp [leaves, hmem.2.1]
  · intro c hc
    rw [List.head?_append, List.head?_drop, hget c hc]
    rfl

/-- The answer behind the last row ends the table. -/
theorem turn_last (hcols : cols.toList ≠ [])
    (hN : ∀ c ∈ cols.toList, (mib.instances c).length = N) (h : t.At cols mib.instances N)
    (hend : (∃ c ∈ cols.toList, c.contains ⟨[1, 3]⟩ = false) ∨
      ∀ c ∈ cols.toList, ∃ x ∈ mib.toList, c < x.1 ∧ c.contains x.1 = false) :
    turn mib community ids n t = .ok { t with atEnd := true } := by
  have hdrop : ∀ c ∈ cols.toList, (mib.instances c).drop N = [] := fun c hc =>
    List.drop_of_length_le (hN c hc).le
  by_cases hbeyond : ∀ c ∈ cols.toList, mib.beyond c ≠ []
  · have hhead : ∀ c ∈ cols.toList,
        (mib.beyond c).head? = some ((mib.beyond c).head?.getD noSuchNameVar) := fun c hc => by
      rw [List.head?_eq_some_head (hbeyond c hc)]
      rfl
    rw [turn_of_some (fun c => (mib.beyond c).head?.getD noSuchNameVar) hcols hN h le_rfl]
    · refine h.add_last ?_
      obtain ⟨c, cs, hcs⟩ := List.exists_cons_of_ne_nil hcols
      have hc : c ∈ cols.toList := by simp [hcs]
      have hmem := Mib.mem_beyond.mp (List.mem_of_mem_head? (hhead c hc))
      exact ⟨c, hc, by simp [leaves, hmem.2.2]⟩
    · intro c hc
      rw [hdrop c hc, List.nil_append]
      exact hhead c hc
  · simp only [not_forall, not_not] at hbeyond
    obtain ⟨c, hc, hnil⟩ := hbeyond
    have hnone : ∃ c ∈ cols.toList, ((mib.instances c).drop N ++ mib.beyond c).head? = none :=
      ⟨c, hc, by rw [hdrop c hc, hnil]; rfl⟩
    rw [turn_of_none hcols hN h le_rfl hnone]
    refine h.add_last ?_
    rcases hend with ⟨d, hd, hcontains⟩ | hall
    · exact ⟨d, hd, by simp [leaves, noSuchNameVar, hcontains]⟩
    · -- something is beyond `c`, and so in `beyond c`
      obtain ⟨x, hx, hlt, hcontains⟩ := hall c hc
      have hmem := Mib.mem_beyond.mpr ⟨hx, hlt, hcontains⟩
      rw [hnil] at hmem
      cases hmem

/-- Where all columns contain `.1.3` and one of them ends the MIB, "no such name" makes
a row. -/
theorem turn_extra (hcols : cols.toList ≠ [])
    (hN : ∀ c ∈ cols.toList, (mib.instances c).length = N) (h : t.At cols mib.instances N)
    (hcontains : ∀ c ∈ cols.toList, c.contains ⟨[1, 3]⟩ = true)
    (hlast : ∃ c ∈ cols.toList, ∀ x ∈ mib.toList, c < x.1 → c.contains x.1 = true) :
    ∃ t', turn mib community ids n t = .ok t' ∧ ∀ x ∈ t'.data.toList, N + 1 ≤ x.2.length := by
  have hnone : ∃ c ∈ cols.toList, ((mib.instances c).drop N ++ mib.beyond c).head? = none := by
    obtain ⟨c, hc, hx⟩ := hlast
    have hnil : mib.beyond c = [] := List.eq_nil_iff_forall_not_mem.mpr fun x hmem => by
      obtain ⟨hx', hlt, hno⟩ := Mib.mem_beyond.mp hmem
      rw [hx x hx' hlt] at hno
      cases hno
    exact ⟨c, hc, by rw [List.drop_of_length_le (hN c hc).le, hnil]; rfl⟩
  rw [turn_of_none hcols hN h le_rfl hnone]
  exact h.add_extra hN fun c hc => by simp [leaves, noSuchNameVar, hcontains c hc]

theorem tall_turn {t' : SnmpV1Table} {m : Nat} (hturn : turn mib community ids n t = .ok t')
    (h : ∀ x ∈ t.data.toList, m ≤ x.2.length) : ∀ x ∈ t'.data.toList, m ≤ x.2.length := by
  simp only [turn, Run.bind_eq_ok] at hturn
  obtain ⟨_, -, _, -, hadd⟩ := hturn
  exact tall_add hadd h

variable (mib community ids) in
/-- With as many instances in every column, the walk is exact unless all columns
contain `.1.3` and one of them ends the MIB. -/
theorem visitsExactly_of_length (hcols : cols.toList ≠ [])
    (hN : ∀ c ∈ cols.toList, (mib.instances c).length = N) :
    VisitsExactly (turn mib community ids) cols mib.instances ↔
      (∃ c ∈ cols.toList, c.contains ⟨[1, 3]⟩ = false) ∨
        ∀ c ∈ cols.toList, ∃ x ∈ mib.toList, c < x.1 ∧ c.contains x.1 = false := by
  constructor
  · intro hexact
    by_contra hcon
    rw [not_or] at hcon
    obtain ⟨hcontains, hlast⟩ := hcon
    simp only [not_exists, not_and, not_forall, Bool.not_eq_false] at hcontains hlast
    obtain ⟨c, hc, hx⟩ := hlast
    exact VisitsExactly.not_of_last hcols hN (fun k hk t h => turn_next hcols hN hk h)
      (fun _ _ _ _ hturn => tall_turn hturn)
      (fun t h => turn_extra hcols hN h hcontains ⟨c, hc, hx⟩) hexact
  · exact fun hend => .of_last hN (fun k hk t h => turn_next hcols hN hk h)
      fun t h => turn_last hcols hN h hend

end SnmpV1Table

/-! ## The V2c walk -/

namespace SnmpV2cTable

open Table

variable {mib : Mib} {community : Community} {ids : Nat → RequestId} {cols : SortedSet Oid}
  {t : SnmpV2cTable} {n k N : Nat}

/-- The rows of a V2c table. -/
def rows (mib : Mib) (c : Oid) : List SnmpVar := (mib.instances c).map .ofPair

theorem cursor_rows (mib : Mib) (c : Oid) (k : Nat) :
    cursor SnmpVar.oid c ((rows mib c).take k) = cursor Prod.fst c ((mib.instances c).take k) := by
  rw [rows, ← List.map_take, cursor, cursor, List.getLast?_map, Option.map_map]
  rfl

/-- A turn adds the next variables, or the marker for them. -/
theorem turn_eq (hcols : cols.toList ≠ [])
    (hN : ∀ c ∈ cols.toList, (mib.instances c).length = N) (h : t.At cols (rows mib) k)
    (hk : k ≤ N) :
    turn mib community ids n t = t.add (t.cols.toList.map fun c =>
      mib.nextVar (cursor Prod.fst c ((mib.instances c).take k))) := by
  have hoids : t.nextOids = .ok (t.cols.toList.map fun c =>
      cursor Prod.fst c ((mib.instances c).take k)) := by
    simp only [← cursor_rows]
    refine h.holds.nextOids_eq SnmpVar.oid (by rwa [h.cols_eq]) (n := k) fun c hc => ?_
    rw [h.cols_eq] at hc
    rw [List.length_take, rows, List.length_map, hN c hc]
    omega
  simp only [turn, hoids, Run.ok_bind]
  rw [Mib.validateResponse_answerV2c, Run.ok_bind, List.map_map]
  rfl

theorem turn_next (hcols : cols.toList ≠ [])
    (hN : ∀ c ∈ cols.toList, (mib.instances c).length = N) (hk : k < N)
    (h : t.At cols (rows mib) k) :
    ∃ t', turn mib community ids n t = .ok t' ∧ t'.At cols (rows mib) (k + 1) := by
  have hnext : ∀ c ∈ cols.toList, ∃ x ∈ mib.instances c, (mib.instances c)[k]? = some x ∧
      mib.nextVar (cursor Prod.fst c ((mib.instances c).take k)) = .ofPair x := by
    intro c hc
    have hget := List.getElem?_eq_getElem (l := mib.instances c) (by rw [hN c hc]; exact hk)
    refine ⟨_, List.getElem_mem _, hget, ?_⟩
    rw [Mib.nextVar, mib.next?_cursor, List.head?_append, List.head?_drop, hget]
    rfl
  rw [turn_eq hcols hN h hk.le]
  refine h.add_next (fun c hc => ?_) fun c hc => ?_
  · obtain ⟨x, -, hget, hvar⟩ := hnext c hc
    rw [rows, List.getElem?_map, hget, hvar]
    rfl
  · obtain ⟨x, hmem, -, hvar⟩ := hnext c hc
    rw [hvar]
    simp [leaves, SnmpVar.ofPair, (Mib.mem_instances.mp hmem).2.1]

/-- Behind the last row is something out of the column or a marker, both of which end
the table. -/
theorem turn_last (hcols : cols.toList ≠ [])
    (hN : ∀ c ∈ cols.toList, (mib.instances c).length = N) (h : t.At cols (rows mib) N) :
    turn mib community ids n t = .ok { t with atEnd := true } := by
  rw [turn_eq hcols hN h le_rfl]
  refine h.add_last ?_
  obtain ⟨c, cs, hcs⟩ := List.exists_cons_of_ne_nil hcols
  have hc : c ∈ cols.toList := by simp [hcs]
  refine ⟨c, hc, ?_⟩
  rw [Mib.nextVar, mib.next?_cursor, List.drop_of_length_le (hN c hc).le, List.nil_append]
  cases hbeyond : (mib.beyond c).head? with
  | none => simp [leaves]
  | some x =>
    have hmem := Mib.mem_beyond.mp (List.mem_of_mem_head? hbeyond)
    simp [leaves, SnmpVar.ofPair, hmem.2.2]

variable (mib community ids) in
/-- With as many instances in every column, the walk is exact. -/
theorem visitsExactly_of_length (hcols : cols.toList ≠ [])
    (hN : ∀ c ∈ cols.toList, (mib.instances c).length = N) :
    VisitsExactly (turn mib community ids) cols (rows mib) :=
  .of_last (fun c hc => by rw [rows, List.length_map, hN c hc])
    (fun _ hk _ h => turn_next hcols hN hk h) fun _ h => turn_last hcols hN h

end SnmpV2cTable

/-! ## Both -/

/-- Columns whose suffixes agree have as many instances as each other. -/
theorem Mib.exists_length {mib : Mib} {cols : SortedSet Oid} (hcols : cols.toList ≠ [])
    (hsuffixes : ∀ c ∈ cols.toList, ∀ d ∈ cols.toList, mib.suffixes c = mib.suffixes d) :
    ∃ N, ∀ c ∈ cols.toList, (mib.instances c).length = N := by
  obtain ⟨c, cs, hcs⟩ := List.exists_cons_of_ne_nil hcols
  refine ⟨(mib.instances c).length, fun d hd => ?_⟩
  have hlength := congrArg List.length (hsuffixes d hd c (by simp [hcs]))
  simpa [suffixes] using hlength

/-- A walk over the columns of a table visits exactly their instances: with a V2c table
always and, with a V1 table, unless every column contains `.1.3` and one of them is the
end of the MIB. -/
theorem Table.visitsExactly_iff (mib : Mib) (community : Community) (ids : Nat → RequestId)
    (cols : SortedSet Oid) (hcols : cols.toList ≠ [])
    (hsuffixes : ∀ c ∈ cols.toList, ∀ d ∈ cols.toList, mib.suffixes c = mib.suffixes d) :
    (Table.VisitsExactly (SnmpV1Table.turn mib community ids) cols mib.instances ↔
        (∃ c ∈ cols.toList, c.contains ⟨[1, 3]⟩ = false) ∨
          ∀ c ∈ cols.toList, ∃ x ∈ mib.toList, c < x.1 ∧ c.contains x.1 = false) ∧
      Table.VisitsExactly (SnmpV2cTable.turn mib community ids) cols (SnmpV2cTable.rows mib) := by
  obtain ⟨N, hN⟩ := Mib.exists_length hcols hsuffixes
  exact ⟨SnmpV1Table.visitsExactly_of_length mib community ids hcols hN,
    SnmpV2cTable.visitsExactly_of_length mib community ids hcols hN⟩

/-- Two columns of two instances each. -/
theorem Table.visitsExactly_iff_two :
    let mib : Mib := .ofList [(⟨[1, 3, 5, 1, 1]⟩, .intValue 3), (⟨[1, 3, 5, 1, 4]⟩, .intValue 4),
      (⟨[1, 3, 5, 2, 1]⟩, .nullValue), (⟨[1, 3, 5, 2, 4]⟩, .intValue 5)]
    Table.VisitsExactly (SnmpV1Table.turn mib [] fun _ => 0) (.ofList [⟨[1, 3, 5, 1]⟩, ⟨[1, 3, 5, 2]⟩])
      mib.instances :=
  (Table.visitsExactly_iff _ _ _ _ (by decide +kernel) (by decide +kernel)).1.mpr
    (.inl (by decide +kernel))

/-- The whole of a MIB as one column: the first "no such name" is taken for a row. -/
theorem Table.not_visitsExactly_root :
    let mib : Mib := .ofList [(⟨[1, 3, 6, 1, 2, 1, 1, 7, 0]⟩, .intValue 72)]
    let cols : SortedSet Oid := .ofList [⟨[1, 3]⟩]
    (∀ c ∈ cols.toList, ∀ d ∈ cols.toList, mib.suffixes c = mib.suffixes d) ∧
      ¬ Table.VisitsExactly (SnmpV1Table.turn mib [] fun _ => 0) cols mib.instances := by
  refine ⟨by decide +kernel, ?_⟩
  refine (SnmpV1Table.visitsExactly_of_length (N := 1) _ _ _ (by decide +kernel)
    (by decide +kernel)).not.mpr ?_
  decide +kernel

end Urnest.Snmp
