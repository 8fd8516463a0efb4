import Mathlib

/-!
# The pinger

The three threads of a `Pinger` hold `guard_` for a turn of `run`, for the loop of
`runAlarmClock` up to its wait, and for what `runReceiver` does about a message: those are the
actions. An iterator into `requests_` is the number of the node that it points to, and one
that points to no node is not dereferenced: the action then has no result.

Each request belongs to an attempt, and so does each report that ends one. `Sound` says that
`targets_` and `requests_` are each other's inverse and that every attempt has a request or one
such report; as long as the clock advances, in the end it has the report (`concluded`).
-/

namespace Urnest.Xju.Pinger

open Function (update)
open Relation (ReflTransGen)

variable {α : Type}

/-! ## The state -/

/-- In nanoseconds -/
abbrev Time := Int

structure Request (α : Type) where
  address_ : α
  retryNumber_ : Nat
  sequence_ : Int
  sentAt_ : Time

/-- A node of `requests_` -/
structure Node (α : Type) where
  id : Nat
  deadline : Time
  request : Request α
  /-- the ping attempt that the request is for -/
  attempt : Nat

/-- What the collector is told. Where that ends an attempt, it says which. -/
inductive Report (α : Type) where
  | pinged (attempt : Nat) (address : α) (retry : Nat) (rtt : Time)
  | timeout (attempt : Nat) (address : α)
  | unreachable (attempt : Nat) (address gatewayOrHost : α) (code : UInt8)
  | sendFailed (attempt : Option Nat)
  | receiveFailed

def Report.concludes : Report α → Option Nat
  | pinged attempt _ _ _ | timeout attempt _ | unreachable attempt _ _ _ => some attempt
  | sendFailed attempt => attempt
  | receiveFailed => none

structure Config (α : Type) where
  identifier_ : UInt16
  firstSequence_ : UInt16
  /-- the keys of `targets_`, in order -/
  addresses : List α
  /-- without any, `run` does nothing -/
  addresses_ne_nil : addresses ≠ []
  /-- nanoseconds from one packet to the next -/
  step : Time
  maxRetries_ : Nat
  timeoutPerRetry : Time

/-- It is raised to 1. -/
def Config.timeoutPerRetry_ (c : Config α) : Time := max 1 c.timeoutPerRetry

structure State (α : Type) where
  /-- the iterators, but for `requests_.end()` -/
  targets_ : α → Option Nat
  /-- the multimap, in the order of the deadlines -/
  requests_ : List (Node α)
  currentSequence_ : UInt16
  /-- the `i` and the `t` of `run` -/
  position : Nat
  t : Time
  /-- how many nodes there have been -/
  nodes : Nat
  /-- how many attempts there have been -/
  attempts : Nat
  reports : List (Report α)

variable (c : Config α)

/-- What `run` begins with. -/
def State.start (t : Time) : State α where
  targets_ _ := none
  requests_ := []
  currentSequence_ := c.firstSequence_
  position := 0
  t := t
  nodes := 0
  attempts := 0
  reports := []

/-- `insert`, behind those with the same deadline -/
def insertNode (x : Node α) : List (Node α) → List (Node α)
  | [] => [x]
  | y :: ys => if y.deadline ≤ x.deadline then y :: insertNode x ys else x :: y :: ys

/-- `erase` of the node that an iterator points to -/
def eraseNode (id : Nat) (requests : List (Node α)) : List (Node α) :=
  requests.filter fun x => x.id ≠ id

namespace State

variable (s : State α)

/-- The attempts that a report has ended, in turn -/
def concluded : List Nat := s.reports.filterMap Report.concludes

/-- What an iterator points to. -/
def node (id : Nat) : Option (Node α) := s.requests_.find? fun x => x.id = id

def report (r : Report α) : State α := { s with reports := s.reports ++ [r] }

variable [DecidableEq α]

/-- Put a request for an attempt in, and let the target point to it. -/
def outstanding (deadline : Time) (request : Request α) (attempt : Nat) : State α :=
  { s with
    requests_ := insertNode ⟨s.nodes, deadline, request, attempt⟩ s.requests_
    targets_ := update s.targets_ request.address_ (some s.nodes)
    nodes := s.nodes + 1 }

/-- Tell the collector, erase the request and let the target point to none. -/
def conclude (address : α) (id : Nat) (r : Report α) : State α :=
  { s with
    requests_ := eraseNode id s.requests_
    targets_ := update s.targets_ address none
    reports := s.reports ++ [r] }

/-! ## `run` -/

/-- The body of the loop, for the address that it is at. `sent`: the socket does not throw. -/
def pingAddress (address : α) (sentAt : Time) (sent : Bool) : State α :=
  match s.targets_ address with
  | some _ => s
  | none =>
    if sent then
      { s.outstanding (s.t + c.timeoutPerRetry_)
          ⟨address, 0, s.currentSequence_.toNat, sentAt⟩ s.attempts with
        attempts := s.attempts + 1 }
    else s.report (.sendFailed none)

omit [DecidableEq α] in
/-- On to the next address -/
def advance : State α :=
  if s.position + 1 = c.addresses.length then
    { s with
      currentSequence_ := s.currentSequence_ + UInt16.ofNat (c.maxRetries_ + 1)
      position := 0
      t := s.t + c.step }
  else { s with position := s.position + 1, t := s.t + c.step }

def ping (sentAt : Time) (sent : Bool) : Option (State α) := do
  let address ← c.addresses[s.position]?
  return (s.pingAddress c address sentAt sent).advance c

/-! ## `runAlarmClock` -/

/-- The body of the loop, for the node that has expired, and its `erase`. `sent`: the socket
does not throw. -/
def expire (now : Time) (sent : Bool) (x : Node α) : State α :=
  let address := x.request.address_
  if x.request.retryNumber_ = c.maxRetries_ then
    s.conclude address x.id (.timeout x.attempt address)
  else if sent then
    let request := ⟨address, x.request.retryNumber_ + 1, x.request.sequence_ + 1, now⟩
    let s := s.outstanding (now + c.timeoutPerRetry_) request x.attempt
    { s with requests_ := eraseNode x.id s.requests_ }
  else s.conclude address x.id (.sendFailed (some x.attempt))

omit [DecidableEq α] in
/-- The nodes that have expired -/
def expired (now : Time) : List (Node α) := s.requests_.filter fun x => x.deadline ≤ now

end State

theorem filter_insertNode (x : Node α) (p : Node α → Bool) (hx : p x = false)
    (l : List (Node α)) : (insertNode x l).filter p = l.filter p := by
  induction l with
  | nil => simp [insertNode, hx]
  | cons y ys ih =>
    rw [insertNode]
    split_ifs
    · rw [List.filter_cons, List.filter_cons, ih]
    · rw [List.filter_cons, hx, if_neg Bool.false_ne_true]

theorem eraseNode_filter (id : Nat) (p : Node α → Bool) (l : List (Node α)) :
    (eraseNode id l).filter p = eraseNode id (l.filter p) := by
  rw [eraseNode, eraseNode, List.filter_filter, List.filter_filter]
  simp only [Bool.and_comm]

theorem length_eraseNode_lt {x : Node α} {l : List (Node α)} (h : x ∈ l) :
    (eraseNode x.id l).length < l.length :=
  List.length_filter_lt_length_iff_exists.mpr ⟨x, h, by simp⟩

theorem lt_add_timeoutPerRetry_ (now : Time) : now < now + c.timeoutPerRetry_ :=
  Int.lt_add_of_pos_right now (lt_of_lt_of_le Int.one_pos (le_max_left 1 _))

variable [DecidableEq α]

theorem State.expired_expire (s : State α) {now : Time} {sent : Bool} {x : Node α} :
    (s.expire c now sent x).expired now = eraseNode x.id (s.expired now) := by
  rw [expire, expired, expired]
  split_ifs
  · exact eraseNode_filter ..
  · have hlater := decide_eq_false (not_le.mpr (lt_add_timeoutPerRetry_ c now))
    change (eraseNode x.id (insertNode _ s.requests_)).filter _ = _
    rw [eraseNode_filter, filter_insertNode _ _ hlater]
  · exact eraseNode_filter ..

/-- The loop. `sent` says of each node that is sent again whether the socket does not throw. -/
def State.alarm (s : State α) (now : Time) (sent : Nat → Bool) : State α :=
  match _hfirst : s.requests_.head? with
  | none => s
  | some x =>
    if _hdeadline : x.deadline ≤ now then
      State.alarm (s.expire c now (sent x.id) x) now sent
    else s
termination_by (s.expired now).length
decreasing_by
  rw [State.expired_expire]
  refine length_eraseNode_lt (List.mem_filter.mpr ⟨List.mem_of_mem_head? _hfirst, ?_⟩)
  exact decide_eq_true _hdeadline

/-! ## `runReceiver` -/

/-- The four bytes of `header_` -/
abbrev Header := UInt8 × UInt8 × UInt8 × UInt8

structure Echo where
  identifier_ : UInt16
  sequence_ : Int

def decodeEcho : Header → Echo
  | (a, b, c, d) => ⟨a.toUInt16 <<< 8 + b.toUInt16, (c.toUInt16 <<< 8 + d.toUInt16).toNat⟩

structure DestinationUnreachable (α : Type) where
  gateway_ : α
  code_ : UInt8
  unreachableAddress_ : α
  protocol_ : UInt8
  /-- what `decodeMessage` makes of `data_`: whether it is an `ECHO`, and its header -/
  icmpMessage : Bool × Header

/-- What the socket returns, by the type of the message. -/
inductive Received (α : Type) where
  | failed
  | echoReply (sender : α) (header_ : Header)
  /-- if that can be decoded -/
  | destUnreach (u : Option (DestinationUnreachable α))
  | other

def State.receive (s : State α) (now : Time) : Received α → Option (State α)
  | .failed => some (s.report .receiveFailed)
  | .echoReply sender header_ =>
    match s.targets_ sender with
    | none => some s
    | some id => do
      let x ← s.node id
      let echo := decodeEcho header_
      if echo.identifier_ = c.identifier_ ∧ echo.sequence_ = x.request.sequence_ then
        let rtt := now - x.request.sentAt_
        return s.conclude sender id (.pinged x.attempt sender x.request.retryNumber_ rtt)
      else return s
  | .destUnreach none => some (s.report .receiveFailed)
  | .destUnreach (some u) =>
    if u.protocol_ = 1 then
      match s.targets_ u.unreachableAddress_ with
      | none => some s
      | some id => do
        let x ← s.node id
        let echo := decodeEcho u.icmpMessage.2
        if u.icmpMessage.1 ∧ echo.identifier_ = c.identifier_ ∧
            echo.sequence_ = x.request.sequence_ then
          let r := .unreachable x.attempt u.unreachableAddress_ u.gateway_ u.code_
          return s.conclude u.unreachableAddress_ id r
        else return s
    else some s
  | .other => some s

/-! ## Runs -/

inductive Action (α : Type) where
  | ping (sentAt : Time) (sent : Bool)
  | alarm (now : Time) (sent : Nat → Bool)
  | receive (now : Time) (received : Received α)

def step (s : State α) : Action α → Option (State α)
  | .ping sentAt sent => s.ping c sentAt sent
  | .alarm now sent => some (s.alarm c now sent)
  | .receive now received => s.receive c now received

/-- What the actions can lead to, in any order. -/
inductive Reaches (t : Time) : State α → Prop where
  | start : Reaches t (.start c t)
  | step {s s' : State α} (action : Action α) :
    Reaches t s → step c s action = some s' → Reaches t s'

/-! ## `targets_` and `requests_` -/

/-- Each target with an iterator points to the one request of its address, and no request is
without the target. -/
structure Inverse (targets_ : α → Option Nat) (requests_ : List (Node α)) : Prop where
  nodup : (requests_.map Node.id).Nodup
  targets_eq_some_iff : ∀ address id, targets_ address = some id ↔
    ∃ x ∈ requests_, x.id = id ∧ x.request.address_ = address

section Lists

omit [DecidableEq α]

theorem insertNode_perm (x : Node α) (l : List (Node α)) : (insertNode x l).Perm (x :: l) := by
  induction l with
  | nil => exact .refl _
  | cons y ys ih =>
    rw [insertNode]
    split_ifs
    · exact (ih.cons y).trans (.swap x y ys)
    · exact .refl _

theorem pairwise_insertNode {x : Node α} {l : List (Node α)}
    (h : l.Pairwise fun x y => x.deadline ≤ y.deadline) :
    (insertNode x l).Pairwise fun x y => x.deadline ≤ y.deadline := by
  induction h with
  | nil => exact List.pairwise_singleton ..
  | @cons y ys hy hys ih =>
    rw [insertNode]
    split_ifs with hle
    · refine List.pairwise_cons.mpr ⟨fun z hz => ?_, ih⟩
      obtain rfl | hz := List.mem_cons.mp ((insertNode_perm x ys).mem_iff.mp hz)
      · exact hle
      · exact hy z hz
    · have hlt := not_le.mp hle
      refine List.pairwise_cons.mpr ⟨fun z hz => ?_, List.pairwise_cons.mpr ⟨hy, hys⟩⟩
      obtain rfl | hz := List.mem_cons.mp hz
      · exact hlt.le
      · exact hlt.le.trans (hy z hz)

theorem eraseNode_of_forall_ne {id : Nat} {l : List (Node α)} (h : ∀ x ∈ l, x.id ≠ id) :
    eraseNode id l = l := List.filter_eq_self.mpr fun x hx => decide_eq_true (h x hx)

theorem cons_eraseNode_perm {x : Node α} {l : List (Node α)} (hx : x ∈ l)
    (hnodup : (l.map Node.id).Nodup) : (x :: eraseNode x.id l).Perm l := by
  induction l with
  | nil => cases hx
  | cons y ys ih =>
    rw [List.map_cons, List.nodup_cons] at hnodup
    obtain ⟨hy, hys⟩ := hnodup
    obtain rfl | hx := List.mem_cons.mp hx
    · have hne : ∀ z ∈ ys, z.id ≠ x.id := fun z hz heq => hy (heq ▸ List.mem_map_of_mem hz)
      rw [eraseNode, List.filter_cons_of_neg (by simp), ← eraseNode, eraseNode_of_forall_ne hne]
    · have hne : y.id ≠ x.id := fun heq => hy (heq ▸ List.mem_map_of_mem hx)
      rw [eraseNode, List.filter_cons_of_pos (by simpa using hne)]
      exact (List.Perm.swap ..).trans ((ih hx hys).cons y)

end Lists

namespace Inverse

variable {targets_ : α → Option Nat} {l : List (Node α)}

omit [DecidableEq α] in
theorem perm {l' : List (Node α)} (h : Inverse targets_ l) (hperm : l.Perm l') :
    Inverse targets_ l' where
  nodup := (hperm.map _).nodup_iff.mp h.nodup
  targets_eq_some_iff address id := by
    rw [h.targets_eq_some_iff]
    exact exists_congr fun x => and_congr_left fun _ => hperm.mem_iff

omit [DecidableEq α] in
theorem empty : Inverse (fun _ : α => none) [] where
  nodup := .nil
  targets_eq_some_iff address id := by simp

/-- A request goes in, and its target points to it. -/
theorem cons {x : Node α} (h : Inverse targets_ l) (hid : ∀ y ∈ l, y.id ≠ x.id)
    (hnone : targets_ x.request.address_ = none) :
    Inverse (update targets_ x.request.address_ (some x.id)) (x :: l) where
  nodup := by
    refine List.nodup_cons.mpr ⟨fun hmem => ?_, h.nodup⟩
    obtain ⟨y, hy, heq⟩ := List.mem_map.mp hmem
    exact hid y hy heq
  targets_eq_some_iff address id := by
    rw [List.exists_mem_cons_iff]
    obtain rfl | hne := eq_or_ne address x.request.address_
    · have hothers : ¬∃ y ∈ l, y.id = id ∧ y.request.address_ = x.request.address_ := by
        rw [← h.targets_eq_some_iff, hnone]
        exact (nomatch ·)
      rw [Function.update_self, or_iff_left hothers, and_iff_left rfl, Option.some_inj]
    · rw [Function.update_of_ne hne, h.targets_eq_some_iff, or_iff_right]
      exact fun hx => hne hx.2.symm

/-- A request goes out, and its target points to none. -/
theorem uncons {x : Node α} (h : Inverse targets_ (x :: l)) :
    Inverse (update targets_ x.request.address_ none) l where
  nodup := (List.nodup_cons.mp h.nodup).2
  targets_eq_some_iff address id := by
    obtain rfl | hne := eq_or_ne address x.request.address_
    · -- another request of the address has the same number
      rw [Function.update_self]
      refine iff_of_false (nomatch ·) ?_
      rintro ⟨y, hy, -, haddress⟩
      have hx := (h.targets_eq_some_iff _ x.id).mpr ⟨x, List.mem_cons_self, rfl, rfl⟩
      have hy' := (h.targets_eq_some_iff _ y.id).mpr ⟨y, List.mem_cons_of_mem _ hy, rfl, haddress⟩
      refine (List.nodup_cons.mp h.nodup).1 ?_
      rw [Option.some_inj.mp (hx.symm.trans hy')]
      exact List.mem_map_of_mem hy
    · rw [Function.update_of_ne hne, h.targets_eq_some_iff, List.exists_mem_cons_iff, or_iff_right]
      exact fun hx => hne hx.2.symm

omit [DecidableEq α] in
/-- What an iterator points to is there. -/
theorem find?_eq_some {address : α} {id : Nat} (h : Inverse targets_ l)
    (hid : targets_ address = some id) : ∃ x ∈ l, l.find? (fun x => x.id = id) = some x ∧
      x.id = id ∧ x.request.address_ = address := by
  obtain ⟨x, hx, rfl, rfl⟩ := (h.targets_eq_some_iff address id).mp hid
  obtain ⟨y, hfind⟩ := Option.isSome_iff_exists.mp
    (List.find?_isSome (p := fun y => decide (y.id = x.id)).mpr ⟨x, hx, decide_eq_true rfl⟩)
  have heq : y.id = x.id := of_decide_eq_true
    (List.find?_some (p := fun y : Node α => decide (y.id = x.id)) hfind)
  obtain rfl := List.inj_on_of_nodup_map h.nodup (List.mem_of_find?_eq_some hfind) hx heq
  exact ⟨y, hx, hfind, rfl, rfl⟩

end Inverse

/-! ## What holds in every state that is reached -/

structure Sound (s : State α) : Prop where
  inverse : Inverse s.targets_ s.requests_
  id_lt : ∀ x ∈ s.requests_, x.id < s.nodes
  sorted : s.requests_.Pairwise fun x y => x.deadline ≤ y.deadline
  address_mem : ∀ x ∈ s.requests_, x.request.address_ ∈ c.addresses
  retryNumber_le : ∀ x ∈ s.requests_, x.request.retryNumber_ ≤ c.maxRetries_
  /-- Each attempt has a request or a report that ends it, and one of them. -/
  attempts : (s.concluded ++ s.requests_.map Node.attempt).Perm (List.range s.attempts)
  retry_le : ∀ attempt address retry rtt,
    .pinged attempt address retry rtt ∈ s.reports → retry ≤ c.maxRetries_
  position_lt : s.position < c.addresses.length

/-- What an action is made of. -/
inductive Move : State α → State α → Prop where
  | report {s : State α} {r : Report α} (hr : r.concludes = none) : Move s (s.report r)
  | advance {s : State α} : Move s (s.advance c)
  | begins {s : State α} {deadline : Time} {request : Request α}
    (hnone : s.targets_ request.address_ = none) (haddress : request.address_ ∈ c.addresses)
    (hretry : request.retryNumber_ ≤ c.maxRetries_) :
    Move s { s.outstanding deadline request s.attempts with attempts := s.attempts + 1 }
  | retries {s : State α} {x : Node α} (hx : x ∈ s.requests_) {deadline : Time}
    {request : Request α} (haddress : request.address_ = x.request.address_)
    (hlt : x.request.retryNumber_ < request.retryNumber_)
    (hretry : request.retryNumber_ ≤ c.maxRetries_) :
    Move s { s.outstanding deadline request x.attempt with
      requests_ := eraseNode x.id (s.outstanding deadline request x.attempt).requests_ }
  | concludes {s : State α} {x : Node α} (hx : x ∈ s.requests_) {r : Report α}
    (hr : r.concludes = some x.attempt)
    (hretry : ∀ attempt address retry rtt, r = .pinged attempt address retry rtt →
      retry ≤ c.maxRetries_) : Move s (s.conclude x.request.address_ x.id r)

namespace Sound

variable {c} {s : State α}

omit [DecidableEq α] in
theorem start (t : Time) : Sound c (.start c t) where
  inverse := .empty
  id_lt _ hx := nomatch hx
  sorted := .nil
  address_mem _ hx := nomatch hx
  retryNumber_le _ hx := nomatch hx
  attempts := .refl _
  retry_le _ _ _ _ h := nomatch h
  position_lt := List.length_pos_iff.mpr c.addresses_ne_nil

omit [DecidableEq α] in
/-- A report that ends no attempt -/
theorem report (h : Sound c s) {r : Report α} (hr : r.concludes = none) :
    Sound c (s.report r) where
  __ := h
  attempts := by
    have hconcluded : (s.report r).concluded = s.concluded := by
      simp [State.concluded, State.report, hr]
    exact hconcluded ▸ h.attempts
  retry_le attempt address retry rtt hmem := by
    obtain hmem | hmem := List.mem_append.mp hmem
    · exact h.retry_le attempt address retry rtt hmem
    · rw [← List.mem_singleton.mp hmem] at hr
      cases hr

omit [DecidableEq α] in
theorem advance (h : Sound c s) : Sound c (s.advance c) := by
  have hlt := h.position_lt
  rw [State.advance]
  split_ifs with hlast
  · exact { h with position_lt := List.length_pos_iff.mpr c.addresses_ne_nil }
  · exact { h with position_lt := by simp only; omega }

/-- The attempt of a request ends. -/
theorem conclude (h : Sound c s) {x : Node α} (hx : x ∈ s.requests_) {r : Report α}
    (hr : r.concludes = some x.attempt)
    (hretry : ∀ attempt address retry rtt, r = .pinged attempt address retry rtt →
      retry ≤ c.maxRetries_) : Sound c (s.conclude x.request.address_ x.id r) where
  inverse := (h.inverse.perm (cons_eraseNode_perm hx h.inverse.nodup).symm).uncons
  id_lt y hy := h.id_lt y (List.mem_of_mem_filter hy)
  sorted := h.sorted.filter _
  address_mem y hy := h.address_mem y (List.mem_of_mem_filter hy)
  retryNumber_le y hy := h.retryNumber_le y (List.mem_of_mem_filter hy)
  attempts := by
    have hperm := (cons_eraseNode_perm hx h.inverse.nodup).map Node.attempt
    have hconcluded : (s.conclude x.request.address_ x.id r).concluded =
        s.concluded ++ [x.attempt] := by
      simp [State.concluded, State.conclude, hr]
    rw [hconcluded, List.append_assoc]
    exact (hperm.append_left s.concluded).trans h.attempts
  retry_le attempt address retry rtt hmem := by
    obtain hmem | hmem := List.mem_append.mp hmem
    · exact h.retry_le attempt address retry rtt hmem
    · exact hretry attempt address retry rtt (List.mem_singleton.mp hmem).symm
  position_lt := h.position_lt

/-- A request goes out and one for the same attempt comes in. -/
theorem replace (h : Sound c s) {x : Node α} (hx : x ∈ s.requests_) {deadline : Time}
    {request : Request α} (haddress : request.address_ = x.request.address_)
    (hretry : request.retryNumber_ ≤ c.maxRetries_) :
    Sound c { s.outstanding deadline request x.attempt with
      requests_ := eraseNode x.id (s.outstanding deadline request x.attempt).requests_ } := by
  let y : Node α := ⟨s.nodes, deadline, request, x.attempt⟩
  have hy : (eraseNode x.id (insertNode y s.requests_)).Perm (y :: eraseNode x.id s.requests_) := by
    have hne : y.id ≠ x.id := (h.id_lt x hx).ne'
    have hperm := (insertNode_perm y s.requests_).filter fun z => decide (z.id ≠ x.id)
    rwa [List.filter_cons_of_pos (by simpa using hne)] at hperm
  have hall {P : Node α → Prop} (hP : P y) (hothers : ∀ z ∈ s.requests_, P z) :
      ∀ z ∈ eraseNode x.id (insertNode y s.requests_), P z := by
    intro z hz
    obtain rfl | hz := List.mem_cons.mp (hy.mem_iff.mp hz)
    · exact hP
    · exact hothers z (List.mem_of_mem_filter hz)
  refine ⟨?_, ?_, ?_, ?_, ?_, ?_, h.retry_le, h.position_lt⟩
  · have hout := (h.inverse.perm (cons_eraseNode_perm hx h.inverse.nodup).symm).uncons
    have hid : ∀ z ∈ eraseNode x.id s.requests_, z.id ≠ y.id :=
      fun z hz => (h.id_lt z (List.mem_of_mem_filter hz)).ne
    have hin := hout.cons hid (haddress ▸ Function.update_self ..)
    rw [haddress, Function.update_idem, ← haddress] at hin
    exact hin.perm hy.symm
  · exact hall (Nat.lt_succ_self _) fun z hz => Nat.lt_succ_of_lt (h.id_lt z hz)
  · exact (pairwise_insertNode h.sorted).filter _
  · exact hall (haddress ▸ h.address_mem x hx) h.address_mem
  · exact hall hretry h.retryNumber_le
  · have hperm := (hy.trans (.refl _)).map Node.attempt
    have hout := (cons_eraseNode_perm hx h.inverse.nodup).map Node.attempt
    exact ((hperm.trans hout).append_left s.concluded).trans h.attempts

/-- An attempt begins. -/
theorem begin (h : Sound c s) {deadline : Time} {request : Request α}
    (hnone : s.targets_ request.address_ = none) (haddress : request.address_ ∈ c.addresses)
    (hretry : request.retryNumber_ ≤ c.maxRetries_) :
    Sound c { s.outstanding deadline request s.attempts with attempts := s.attempts + 1 } := by
  let y : Node α := ⟨s.nodes, deadline, request, s.attempts⟩
  have hy := insertNode_perm y s.requests_
  have hall {P : Node α → Prop} (hP : P y) (hothers : ∀ z ∈ s.requests_, P z) :
      ∀ z ∈ insertNode y s.requests_, P z := by
    intro z hz
    obtain rfl | hz := List.mem_cons.mp (hy.mem_iff.mp hz)
    · exact hP
    · exact hothers z hz
  refine ⟨?_, ?_, ?_, ?_, ?_, ?_, h.retry_le, h.position_lt⟩
  · exact (h.inverse.cons (x := y) (fun z hz => (h.id_lt z hz).ne) hnone).perm hy.symm
  · exact hall (Nat.lt_succ_self _) fun z hz => Nat.lt_succ_of_lt (h.id_lt z hz)
  · exact pairwise_insertNode h.sorted
  · exact hall haddress h.address_mem
  · exact hall hretry h.retryNumber_le
  · rw [List.range_succ]
    refine ((hy.map Node.attempt).append_left s.concluded).trans ?_
    refine List.perm_middle.trans ?_
    exact (h.attempts.cons s.attempts).trans (List.perm_append_singleton ..).symm

end Sound

theorem Move.sound {s s' : State α} (hmove : Move c s s') (h : Sound c s) : Sound c s' := by
  cases hmove with
  | report hr => exact h.report hr
  | advance => exact h.advance
  | begins hnone haddress hretry => exact h.begin hnone haddress hretry
  | retries hx haddress _ hretry => exact h.replace hx haddress hretry
  | concludes hx hr hretry => exact h.conclude hx hr hretry

theorem moves_sound {s s' : State α} (hmoves : ReflTransGen (Move c) s s') (h : Sound c s) :
    Sound c s' := by
  induction hmoves with
  | refl => exact h
  | tail _ hmove ih => exact hmove.sound c ih

/-! ## What an action does -/

namespace Sound

variable {c} {s : State α}

theorem pingAddress_moves {address : α} (haddress : address ∈ c.addresses)
    (sentAt : Time) (sent : Bool) :
    ReflTransGen (Move c) s (s.pingAddress c address sentAt sent) := by
  rw [State.pingAddress]
  split
  · exact .refl
  · split_ifs
    · exact .single (.begins ‹_› haddress (Nat.zero_le _))
    · exact .single (.report rfl)

theorem ping_moves (h : Sound c s) (sentAt : Time) (sent : Bool) :
    ∃ s', s.ping c sentAt sent = some s' ∧ ReflTransGen (Move c) s s' := by
  have haddress := List.getElem?_eq_getElem h.position_lt
  refine ⟨_, by rw [State.ping, haddress]; rfl, ?_⟩
  exact (pingAddress_moves (List.getElem_mem _) sentAt sent).tail .advance

theorem expire_move (h : Sound c s) {x : Node α} (hx : x ∈ s.requests_) (now : Time)
    (sent : Bool) : Move c s (s.expire c now sent x) := by
  have hle := h.retryNumber_le x hx
  rw [State.expire]
  split_ifs with hlast
  · exact .concludes hx rfl fun _ _ _ _ heq => nomatch heq
  · exact .retries hx rfl (Nat.lt_succ_self _) (Nat.lt_of_le_of_ne hle hlast)
  · exact .concludes hx rfl fun _ _ _ _ heq => nomatch heq

theorem alarm_moves (h : Sound c s) (now : Time) (sent : Nat → Bool) :
    ReflTransGen (Move c) s (s.alarm c now sent) := by
  fun_induction State.alarm c s now sent with
  | case1 s => exact .refl
  | case2 s x hfirst hdeadline ih =>
    have hmove := h.expire_move (List.mem_of_mem_head? hfirst) now (sent x.id)
    exact .head hmove (ih (hmove.sound c h))
  | case3 s => exact .refl

/-- Nothing that has expired is left. -/
theorem lt_deadline_alarm (h : Sound c s) (now : Time) (sent : Nat → Bool) :
    ∀ x ∈ (s.alarm c now sent).requests_, now < x.deadline := by
  fun_induction State.alarm c s now sent with
  | case1 s hnone =>
    rw [List.head?_eq_none_iff.mp hnone]
    exact fun x hx => nomatch hx
  | case2 s x hfirst hdeadline ih =>
    exact ih ((h.expire_move (List.mem_of_mem_head? hfirst) now (sent x.id)).sound c h)
  | case3 s x hfirst hdeadline =>
    intro y hy
    obtain ⟨xs, hxs⟩ := List.head?_eq_some_iff.mp hfirst
    have hsorted := h.sorted
    rw [hxs] at hsorted hy
    obtain rfl | hy := List.mem_cons.mp hy
    · exact not_le.mp hdeadline
    · exact (not_le.mp hdeadline).trans_le (List.rel_of_pairwise_cons hsorted hy)

theorem receive_moves (h : Sound c s) (now : Time) (received : Received α) :
    ∃ s', s.receive c now received = some s' ∧ ReflTransGen (Move c) s s' := by
  have hnode {address : α} {id : Nat} (hid : s.targets_ address = some id) :=
    h.inverse.find?_eq_some hid
  cases received with
  | failed => exact ⟨_, rfl, .single (.report rfl)⟩
  | other => exact ⟨_, rfl, .refl⟩
  | echoReply sender header_ =>
    rw [State.receive]
    split
    · exact ⟨_, rfl, .refl⟩
    · obtain ⟨x, hx, hfind, rfl, rfl⟩ := hnode ‹_›
      rw [State.node, hfind, Option.bind_eq_bind, Option.bind_some]
      dsimp only
      split_ifs
      · refine ⟨_, rfl, .single (.concludes hx rfl ?_)⟩
        rintro _ _ _ _ ⟨⟩
        exact h.retryNumber_le x hx
      · exact ⟨_, rfl, .refl⟩
  | destUnreach u =>
    cases u with
    | none => exact ⟨_, rfl, .single (.report rfl)⟩
    | some u =>
      rw [State.receive]
      split_ifs
      · split
        · exact ⟨_, rfl, .refl⟩
        · obtain ⟨x, hx, hfind, rfl, haddress⟩ := hnode ‹_›
          rw [State.node, hfind, Option.bind_eq_bind, Option.bind_some, ← haddress]
          dsimp only
          split_ifs
          · exact ⟨_, rfl, .single (.concludes hx rfl fun _ _ _ _ heq => by cases heq)⟩
          · exact ⟨_, rfl, .refl⟩
      · exact ⟨_, rfl, .refl⟩

theorem step_moves (h : Sound c s) (action : Action α) :
    ∃ s', step c s action = some s' ∧ ReflTransGen (Move c) s s' := by
  cases action with
  | ping sentAt sent => exact h.ping_moves sentAt sent
  | alarm now sent => exact ⟨_, rfl, h.alarm_moves now sent⟩
  | receive now received => exact h.receive_moves now received

end Sound

/-! ## How an attempt goes on -/

variable {c} {s s' : State α}

theorem sound_of_reaches {t : Time} (h : Reaches c t s) : Sound c s := by
  induction h with
  | start => exact .start t
  | @step s s' action _ hstep ih =>
    obtain ⟨s'', hs'', hmoves⟩ := ih.step_moves action
    obtain rfl := Option.some.inj (hstep.symm.trans hs'')
    exact moves_sound c hmoves ih

/-- The attempt has ended, or has come to a later retry. -/
def Later (s : State α) (attempt retry : Nat) : Prop :=
  attempt ∈ s.concluded ∨
    ∃ y ∈ s.requests_, y.attempt = attempt ∧ retry < y.request.retryNumber_

theorem Move.mem_concluded (hmove : Move c s s') {attempt : Nat} (h : attempt ∈ s.concluded) :
    attempt ∈ s'.concluded := by
  have happend (r : Report α) : attempt ∈ (s.reports ++ [r]).filterMap Report.concludes := by
    rw [List.filterMap_append]
    exact List.mem_append_left _ h
  cases hmove with
  | report => exact happend _
  | advance => rw [State.advance]; split_ifs <;> exact h
  | begins | retries => exact h
  | concludes => exact happend _

/-- A request stays, but for what its attempt goes on to. -/
theorem Move.mem_or_later (hmove : Move c s s') (hs : Sound c s) {x : Node α}
    (hx : x ∈ s.requests_) : x ∈ s'.requests_ ∨ Later s' x.attempt x.request.retryNumber_ := by
  have herase {y : Node α} (hy : y ∈ s.requests_) : x = y ∨ x ∈ eraseNode y.id s.requests_ :=
    List.mem_cons.mp ((cons_eraseNode_perm hy hs.inverse.nodup).mem_iff.mpr hx)
  cases hmove with
  | report => exact .inl hx
  | advance =>
    rw [State.advance]
    split_ifs <;> exact .inl hx
  | begins => exact .inl ((insertNode_perm ..).mem_iff.mpr (List.mem_cons_of_mem _ hx))
  | @retries y hy deadline request haddress hlt hretry =>
    obtain rfl | hout := herase hy
    · refine .inr (.inr ⟨⟨s.nodes, deadline, request, x.attempt⟩, ?_, rfl, hlt⟩)
      refine List.mem_filter.mpr ⟨(insertNode_perm ..).mem_iff.mpr List.mem_cons_self, ?_⟩
      exact decide_eq_true (hs.id_lt x hx).ne'
    · refine .inl (List.mem_filter.mpr ⟨?_, (List.mem_filter.mp hout).2⟩)
      exact (insertNode_perm ..).mem_iff.mpr (List.mem_cons_of_mem _ hx)
  | @concludes y hy r hr =>
    obtain rfl | hout := herase hy
    · refine .inr (.inl (List.mem_filterMap.mpr ⟨r, ?_, hr⟩))
      exact List.mem_append_right _ (List.mem_singleton_self r)
    · exact .inl hout

theorem Move.later (hmove : Move c s s') (hs : Sound c s) {attempt retry : Nat}
    (h : Later s attempt retry) : Later s' attempt retry := by
  obtain h | ⟨y, hy, rfl, hlt⟩ := h
  · exact .inl (hmove.mem_concluded h)
  · obtain hy | h | ⟨z, hz, hattempt, hlt'⟩ := hmove.mem_or_later hs hy
    · exact .inr ⟨y, hy, rfl, hlt⟩
    · exact .inl h
    · exact .inr ⟨z, hz, hattempt, hlt.trans hlt'⟩

theorem moves_mem_concluded (hmoves : ReflTransGen (Move c) s s') {attempt : Nat}
    (h : attempt ∈ s.concluded) : attempt ∈ s'.concluded := by
  induction hmoves with
  | refl => exact h
  | tail _ hmove ih => exact hmove.mem_concluded ih

theorem moves_mem_or_later (hmoves : ReflTransGen (Move c) s s') (hs : Sound c s) {x : Node α}
    (hx : x ∈ s.requests_) : x ∈ s'.requests_ ∨ Later s' x.attempt x.request.retryNumber_ := by
  induction hmoves with
  | refl => exact .inl hx
  | tail hmoves hmove ih =>
    have hsound := moves_sound c hmoves hs
    obtain h | h := ih
    · exact hmove.mem_or_later hsound h
    · exact .inr (hmove.later hsound h)

/-! ## Runs without an end -/

/-- A run that goes on from a state -/
structure Run (c : Config α) (s : State α) where
  state : Nat → State α
  action : Nat → Action α
  state_zero : state 0 = s
  step_state : ∀ n, step c (state n) (action n) = some (state (n + 1))

/-- The alarm clock comes to be later than any time, again and again. -/
def Run.ClockAdvances (run : Run c s) : Prop :=
  ∀ n time, ∃ m ≥ n, ∃ now sent, run.action m = .alarm now sent ∧ time ≤ now

namespace Run

variable (run : Run c s)

theorem sound_and_moves (hs : Sound c s) (n : Nat) : Sound c (run.state n) ∧
    ReflTransGen (Move c) (run.state n) (run.state (n + 1)) := by
  have hmoves {n : Nat} (hn : Sound c (run.state n)) :
      ReflTransGen (Move c) (run.state n) (run.state (n + 1)) := by
    obtain ⟨s', hstep, hmoves⟩ := hn.step_moves (run.action n)
    obtain rfl := Option.some.inj ((run.step_state n).symm.trans hstep)
    exact hmoves
  induction n with
  | zero =>
    have hzero := run.state_zero.symm ▸ hs
    exact ⟨hzero, hmoves hzero⟩
  | succ n ih =>
    have hsucc := moves_sound c ih.2 ih.1
    exact ⟨hsucc, hmoves hsucc⟩

theorem mem_concluded_of_le (hs : Sound c s) {n m attempt : Nat} (hle : n ≤ m)
    (h : attempt ∈ (run.state n).concluded) : attempt ∈ (run.state m).concluded := by
  induction hle with
  | refl => exact h
  | step _ ih => exact moves_mem_concluded (run.sound_and_moves hs _).2 ih

theorem mem_or_later_of_le (hs : Sound c s) {n m : Nat} (hle : n ≤ m) {x : Node α}
    (hx : x ∈ (run.state n).requests_) : x ∈ (run.state m).requests_ ∨
      ∃ k ≤ m, Later (run.state k) x.attempt x.request.retryNumber_ := by
  induction hle with
  | refl => exact .inl hx
  | @step m _ ih =>
    obtain h | ⟨k, hk, hlater⟩ := ih
    · obtain ⟨hsound, hmoves⟩ := run.sound_and_moves hs m
      exact (moves_mem_or_later hmoves hsound h).imp_right fun hlater => ⟨m + 1, le_rfl, hlater⟩
    · exact .inr ⟨k, Nat.le_succ_of_le hk, hlater⟩

variable {run}

/-- A request goes out in the end. -/
theorem exists_later (hclock : run.ClockAdvances) (hs : Sound c s) {n : Nat} {x : Node α}
    (hx : x ∈ (run.state n).requests_) :
    ∃ m, Later (run.state m) x.attempt x.request.retryNumber_ := by
  obtain ⟨m, hm, now, sent, haction, hle⟩ := hclock n x.deadline
  obtain hlast | ⟨k, -, hlater⟩ := run.mem_or_later_of_le hs (Nat.le_succ_of_le hm) hx
  · -- the alarm clock has left no request that had expired
    have hstep := run.step_state m
    rw [haction] at hstep
    rw [← Option.some.inj hstep] at hlast
    have hlt := (run.sound_and_moves hs m).1.lt_deadline_alarm now sent x hlast
    exact absurd hle (not_le.mpr hlt)
  · exact ⟨k, hlater⟩

theorem exists_mem_concluded (hclock : run.ClockAdvances) (hs : Sound c s) {n : Nat}
    {x : Node α} (hx : x ∈ (run.state n).requests_) :
    ∃ m, x.attempt ∈ (run.state m).concluded := by
  -- on what is left of the retries
  induction hleft : c.maxRetries_ - x.request.retryNumber_ using Nat.strong_induction_on
    generalizing n x with
  | _ left ih =>
    obtain ⟨m, h | ⟨y, hy, hattempt, hlt⟩⟩ := exists_later hclock hs hx
    · exact ⟨m, h⟩
    · have hle := (run.sound_and_moves hs m).1.retryNumber_le y hy
      exact hattempt ▸ ih _ (by omega) hy rfl

end Run

omit [DecidableEq α] in
theorem Sound.nodup_concluded (h : Sound c s) : s.concluded.Nodup :=
  (List.nodup_append.mp (h.attempts.nodup_iff.mpr List.nodup_range)).1

omit [DecidableEq α] in
theorem Sound.mem_attempts (h : Sound c s) {attempt : Nat} (hlt : attempt < s.attempts) :
    attempt ∈ s.concluded ∨ ∃ x ∈ s.requests_, x.attempt = attempt := by
  have hmem := h.attempts.mem_iff.mpr (List.mem_range.mpr hlt)
  exact (List.mem_append.mp hmem).imp_right List.mem_map.mp

theorem ping_of_mem (h : Sound c s) {x : Node α} (hx : x ∈ s.requests_)
    (haddress : c.addresses[s.position]? = some x.request.address_) (sentAt : Time)
    (sent : Bool) : s.ping c sentAt sent = some (s.advance c) := by
  have hid := (h.inverse.targets_eq_some_iff _ x.id).mpr ⟨x, hx, rfl, rfl⟩
  rw [State.ping, haddress, Option.bind_eq_bind, Option.bind_some, State.pingAddress, hid]
  rfl

/-- Whatever the order of the actions: every action can be done, the state is sound, an address
with a request outstanding is passed over; and as long as the clock advances, each attempt is
concluded in the end, and once. -/
theorem pinger_concludes {t : Time} (h : Reaches c t s) :
    Sound c s ∧ (∀ action, ∃ s', step c s action = some s') ∧
    (∀ x ∈ s.requests_, c.addresses[s.position]? = some x.request.address_ →
      ∀ sentAt sent, step c s (.ping sentAt sent) = some (s.advance c)) ∧
    ∀ run : Run c s, run.ClockAdvances → ∀ attempt < s.attempts,
      ∃ n, ∀ m ≥ n, (run.state m).concluded.count attempt = 1 := by
  have hs := sound_of_reaches h
  refine ⟨hs, fun action => ?_, fun x hx haddress => ping_of_mem hs hx haddress, ?_⟩
  · obtain ⟨s', hstep, -⟩ := hs.step_moves action
    exact ⟨s', hstep⟩
  · intro run hclock attempt hlt
    have hmem : ∃ n, attempt ∈ (run.state n).concluded := by
      obtain hmem | ⟨x, hx, rfl⟩ := hs.mem_attempts hlt
      · exact ⟨0, run.state_zero.symm ▸ hmem⟩
      · exact Run.exists_mem_concluded hclock hs (n := 0) (run.state_zero.symm ▸ hx)
    obtain ⟨n, hn⟩ := hmem
    refine ⟨n, fun m hm => ?_⟩
    have hnodup := (run.sound_and_moves hs m).1.nodup_concluded
    exact List.count_eq_one_of_mem hnodup (run.mem_concluded_of_le hs hm hn)

/-- Address 7 is pinged, and the message that answers it comes twice. -/
theorem pinger_concludes_seven :
    let c : Config Nat := ⟨5, 9, [7], List.cons_ne_nil _ _, 10, 1, 3⟩
    ∃ s, Reaches c 0 s ∧ s.concluded = [0] ∧ Sound c s := by
  intro c
  have hstart : Reaches c 0 (.start c 0) := .start
  have hping := hstart.step (.ping 0 true) rfl
  have hreply := hping.step (.receive 2 (.echoReply 7 (0, 5, 0, 9))) rfl
  have hagain := hreply.step (.receive 3 (.echoReply 7 (0, 5, 0, 9))) rfl
  exact ⟨_, hagain, rfl, (pinger_concludes hagain).1⟩

end Urnest.Xju.Pinger
