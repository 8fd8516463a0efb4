import Mathlib
import Urnest.Xju.Pinger

/-!
# When the pinger times out

The pinger together with the clock: when each request was sent, and when it was given up
(`Timed`). A request is given up when its deadline has come. The deadline is counted from a time
that may be before the request was sent: for the first request of an attempt from when it was
to be sent, for the others from when the sweep began. It is kept where requests are sent no
later than that (`OnTime`).
-/

namespace Urnest.Xju.Pinger

open Function (update)

variable {α : Type}

/-! ## The pinger and the clock -/

/-- A request that was given up -/
structure Expiry (α : Type) where
  node : Node α
  sentAt : Time
  /-- when it was given up -/
  now : Time

structure Timed (α : Type) where
  state : State α
  clock : Time
  /-- when the request of a node was sent -/
  sentAt : Nat → Time
  expired : List (Expiry α)
  /-- the nodes whose requests were answered -/
  answered : List Nat

inductive TimedAction (α : Type) where
  /-- `steadyNow` is `readAt`, and the packet is sent at the other time unless `send` throws. -/
  | ping (readAt : Time) (send : Option Time)
  /-- `steadyNow` is `now`; for each node that is sent again, when that is -/
  | alarm (now : Time) (sends : Nat → Option Time)
  | receive (now : Time) (received : Received α)

/-- The clock does not go back while the action runs. -/
def TimedAction.Within (before after : Time) : TimedAction α → Prop
  | ping readAt send =>
    before ≤ readAt ∧ readAt ≤ after ∧ ∀ sent, send = some sent → readAt ≤ sent ∧ sent ≤ after
  | alarm now sends =>
    before ≤ now ∧ now ≤ after ∧ ∀ id sent, sends id = some sent → now ≤ sent ∧ sent ≤ after
  | receive now _ => before ≤ now ∧ now ≤ after

variable (c : Config α)

namespace Timed

def start (t : Time) : Timed α where
  state := .start c t
  clock := t
  sentAt _ := t
  expired := []
  answered := []

variable (s : Timed α)

/-- The next node is of a request that is sent then. -/
def sending (send : Option Time) : Nat → Time :=
  match send with
  | some sent => update s.sentAt s.state.nodes sent
  | none => s.sentAt

variable [DecidableEq α]

def ping (readAt : Time) (send : Option Time) : Option (Timed α) :=
  (s.state.ping c readAt send.isSome).map fun state =>
    { s with state := state, sentAt := s.sending send }

def expire (now : Time) (send : Option Time) (x : Node α) : Timed α :=
  { s with
    state := s.state.expire c now send.isSome x
    sentAt := s.sending send
    expired := s.expired ++ [⟨x, s.sentAt x.id, now⟩] }

def receive (now : Time) (received : Received α) : Option (Timed α) :=
  (s.state.receive c now received).map fun state =>
    { s with
      state := state
      answered := s.answered ++ (s.state.requests_.map Node.id).filter fun id =>
        id ∉ state.requests_.map Node.id }

end Timed

variable [DecidableEq α]

def Timed.alarm (s : Timed α) (now : Time) (sends : Nat → Option Time) : Timed α :=
  match _hfirst : s.state.requests_.head? with
  | none => s
  | some x =>
    if _hdeadline : x.deadline ≤ now then
      Timed.alarm (s.expire c now (sends x.id) x) now sends
    else s
termination_by (s.state.expired now).length
decreasing_by
  change ((s.state.expire c now _ x).expired now).length < _
  rw [State.expired_expire]
  refine length_eraseNode_lt (List.mem_filter.mpr ⟨List.mem_of_mem_head? _hfirst, ?_⟩)
  exact decide_eq_true _hdeadline

def Timed.step (s : Timed α) : TimedAction α → Option (Timed α)
  | .ping readAt send => s.ping c readAt send
  | .alarm now sends => some (s.alarm c now sends)
  | .receive now received => s.receive c now received

/-- What actions lead to that are all `allowed`, in any order and at any time. -/
inductive TimedReaches (allowed : Timed α → TimedAction α → Prop) (t : Time) : Timed α → Prop where
  | start : TimedReaches allowed t (.start c t)
  | step {s s' : Timed α} {action : TimedAction α} {after : Time} :
    TimedReaches allowed t s → allowed s action → action.Within s.clock after →
      s.step c action = some s' → TimedReaches allowed t { s' with clock := after }

/-- Requests are sent no later than at the time that their deadlines are counted from. -/
def OnTime (s : Timed α) : TimedAction α → Prop
  | .ping _ send => ∀ sent, send = some sent → sent ≤ s.state.t
  | .alarm now sends => ∀ id sent, sends id = some sent → sent ≤ now
  | .receive _ _ => True

/-- For each timeout, as many requests as there may be were sent to the address in the attempt,
and none was answered. -/
def AllSent (s : Timed α) : Prop :=
  ∀ attempt address, .timeout attempt address ∈ s.state.reports → ∀ k ≤ c.maxRetries_,
    ∃ e ∈ s.expired, e.node.attempt = attempt ∧ e.node.request.address_ = address ∧
      e.node.request.retryNumber_ = k ∧ e.node.id ∉ s.answered

/-- Each of them had been out for `timeoutPerRetry` then. -/
def NeverEarly (s : Timed α) : Prop :=
  ∀ attempt address, .timeout attempt address ∈ s.state.reports → ∀ k ≤ c.maxRetries_,
    ∃ e ∈ s.expired, e.node.attempt = attempt ∧ e.node.request.address_ = address ∧
      e.node.request.retryNumber_ = k ∧ e.node.id ∉ s.answered ∧
        e.sentAt + c.timeoutPerRetry_ ≤ e.now

/-! ## The times do not change what happens -/

theorem Timed.state_alarm (s : Timed α) (now : Time) (sends : Nat → Option Time) :
    (s.alarm c now sends).state = s.state.alarm c now fun id => (sends id).isSome := by
  fun_induction Timed.alarm c s now sends with
  | case1 s hnone =>
    rw [State.alarm.eq_def]
    split
    · rfl
    · rename_i h
      cases hnone.symm.trans h
  | case2 s x hfirst hdeadline ih =>
    rw [ih, State.alarm.eq_def c s.state]
    split
    · rename_i h
      cases hfirst.symm.trans h
    · rename_i h
      obtain rfl := Option.some.inj (hfirst.symm.trans h)
      rw [dif_pos hdeadline]
      rfl
  | case3 s x hfirst hdeadline =>
    rw [State.alarm.eq_def]
    split
    · rfl
    · rename_i h
      obtain rfl := Option.some.inj (hfirst.symm.trans h)
      rw [dif_neg hdeadline]

/-- What is reached with times is reached without. -/
theorem TimedReaches.reaches {allowed : Timed α → TimedAction α → Prop} {t : Time} {s : Timed α}
    (h : TimedReaches c allowed t s) : Reaches c t s.state := by
  induction h with
  | start => exact .start
  | @step s s' action after _ _ _ hstep ih =>
    cases action with
    | ping readAt send =>
      obtain ⟨state, hstate, rfl⟩ := Option.map_eq_some_iff.mp hstep
      exact .step (.ping readAt send.isSome) ih hstate
    | alarm now sends =>
      obtain rfl := Option.some.inj hstep
      refine .step (.alarm now fun id => (sends id).isSome) ih ?_
      exact congrArg some (Timed.state_alarm c s now sends).symm
    | receive now received =>
      obtain ⟨state, hstate, rfl⟩ := Option.map_eq_some_iff.mp hstep
      exact .step (.receive now received) ih hstate

/-! ## What each action does to the requests -/

section Requests

variable {c} {s s' : State α}

/-- Of the requests that are left none is new, and no attempt has timed out. -/
structure Quiet (s s' : State α) : Prop where
  nodes : s'.nodes = s.nodes
  mem : ∀ z ∈ s'.requests_, z ∈ s.requests_
  timeouts : ∀ attempt address,
    .timeout attempt address ∈ s'.reports → .timeout attempt address ∈ s.reports

omit [DecidableEq α] in
theorem Quiet.refl (s : State α) : Quiet s s := ⟨rfl, fun _ hz => hz, fun _ _ hr => hr⟩

omit [DecidableEq α] in
theorem Quiet.report (s : State α) {r : Report α}
    (hr : ∀ attempt address, r ≠ .timeout attempt address) : Quiet s (s.report r) where
  nodes := rfl
  mem _ hz := hz
  timeouts attempt address hmem := by
    obtain hmem | hmem := List.mem_append.mp hmem
    · exact hmem
    · exact absurd (List.mem_singleton.mp hmem).symm (hr attempt address)

theorem Quiet.conclude (s : State α) (address : α) (id : Nat) {r : Report α}
    (hr : ∀ attempt address, r ≠ .timeout attempt address) : Quiet s (s.conclude address id r) where
  nodes := rfl
  mem _ hz := List.mem_of_mem_filter hz
  timeouts := (Quiet.report s hr).timeouts

theorem quiet_receive {now : Time} {received : Received α}
    (h : s.receive c now received = some s') : Quiet s s' := by
  have hsome {f : Node α → Option (State α)} {o : Option (Node α)} (ho : o >>= f = some s') :
      ∃ x, f x = some s' := by
    obtain ⟨x, -, hx⟩ := Option.bind_eq_some_iff.mp ho
    exact ⟨x, hx⟩
  cases received with
  | failed =>
    rw [← Option.some.inj h]
    exact .report s fun _ _ heq => by cases heq
  | other => exact Option.some.inj h ▸ .refl s
  | echoReply sender header_ =>
    rw [State.receive] at h
    split at h
    · exact Option.some.inj h ▸ .refl s
    · obtain ⟨x, h⟩ := hsome h
      dsimp only at h
      split_ifs at h
      · exact Option.some.inj h ▸ .conclude s _ _ fun _ _ heq => by cases heq
      · exact Option.some.inj h ▸ .refl s
  | destUnreach u =>
    cases u with
    | none =>
      rw [← Option.some.inj h]
      exact .report s fun _ _ heq => by cases heq
    | some u =>
      rw [State.receive] at h
      split_ifs at h
      · split at h
        · exact Option.some.inj h ▸ .refl s
        · obtain ⟨x, h⟩ := hsome h
          dsimp only at h
          split_ifs at h
          · exact Option.some.inj h ▸ .conclude s _ _ fun _ _ heq => by cases heq
          · exact Option.some.inj h ▸ .refl s
      · exact Option.some.inj h ▸ .refl s

/-- A ping puts in at most one request, of a new attempt. -/
theorem ping_requests {readAt : Time} {sent : Bool} (h : s.ping c readAt sent = some s') :
    Quiet s s' ∨ (sent = true ∧ s'.nodes = s.nodes + 1 ∧ s'.reports = s.reports ∧
      ∀ z ∈ s'.requests_, z ∈ s.requests_ ∨
        (z.id = s.nodes ∧ z.deadline = s.t + c.timeoutPerRetry_ ∧ z.request.retryNumber_ = 0)) := by
  obtain ⟨address, -, h⟩ := Option.bind_eq_some_iff.mp h
  rw [← Option.some.inj h]
  have hadvance (s : State α) : (s.advance c).nodes = s.nodes ∧
      (s.advance c).requests_ = s.requests_ ∧ (s.advance c).reports = s.reports := by
    rw [State.advance]
    split_ifs <;> exact ⟨rfl, rfl, rfl⟩
  obtain ⟨hnodes, hrequests, hreports⟩ := hadvance (s.pingAddress c address readAt sent)
  have hquiet (hq : Quiet s (s.pingAddress c address readAt sent)) :
      Quiet s ((s.pingAddress c address readAt sent).advance c) :=
    ⟨hnodes.trans hq.nodes, hrequests ▸ hq.mem, hreports ▸ hq.timeouts⟩
  generalize hs' : s.pingAddress c address readAt sent = s' at *
  rw [State.pingAddress] at hs'
  split at hs'
  · exact .inl (hquiet (hs' ▸ .refl s))
  · split_ifs at hs' with hsent
    · refine .inr ⟨hsent, ?_⟩
      rw [hnodes, hrequests, hreports, ← hs']
      refine ⟨rfl, rfl, fun z hz => ?_⟩
      obtain rfl | hz := List.mem_cons.mp ((insertNode_perm ..).mem_iff.mp hz)
      · exact .inr ⟨rfl, rfl, rfl⟩
      · exact .inl hz
    · exact .inl (hquiet (hs' ▸ .report s fun _ _ heq => by cases heq))

variable (c) in
/-- A request that has expired is given up: its attempt times out, or goes on with one request
more, or ends because that cannot be sent. -/
structure Expires (s s' : State α) (now : Time) (sent : Bool) (x : Node α) : Prop where
  nodes : s.nodes ≤ s'.nodes
  mem : ∀ z ∈ s'.requests_, z.id ≠ x.id ∧ (z ∈ s.requests_ ∨
    (sent = true ∧ z.id = s.nodes ∧ z.deadline = now + c.timeoutPerRetry_ ∧
      z.attempt = x.attempt ∧ z.request.address_ = x.request.address_ ∧
      z.request.retryNumber_ = x.request.retryNumber_ + 1))
  timeouts : ∀ attempt address, .timeout attempt address ∈ s'.reports →
    .timeout attempt address ∈ s.reports ∨ (attempt = x.attempt ∧
      address = x.request.address_ ∧ x.request.retryNumber_ = c.maxRetries_)

variable (c) in
theorem expires_expire (s : State α) (now : Time) (sent : Bool) (x : Node α) :
    Expires c s (s.expire c now sent x) now sent x := by
  have hne {z : Node α} {l : List (Node α)} (hz : z ∈ eraseNode x.id l) : z.id ≠ x.id :=
    of_decide_eq_true (List.mem_filter.mp hz).2
  rw [State.expire]
  split_ifs with hlast hsent
  · refine ⟨le_rfl, fun z hz => ⟨hne hz, .inl (List.mem_of_mem_filter hz)⟩, fun a b hmem => ?_⟩
    obtain hmem | hmem := List.mem_append.mp hmem
    · exact .inl hmem
    · obtain ⟨rfl, rfl⟩ := Report.timeout.inj (List.mem_singleton.mp hmem)
      exact .inr ⟨rfl, rfl, hlast⟩
  · refine ⟨Nat.le_succ _, fun z hz => ⟨hne hz, ?_⟩, fun _ _ hmem => .inl hmem⟩
    have hmem := List.mem_of_mem_filter hz
    obtain rfl | hz := List.mem_cons.mp ((insertNode_perm ..).mem_iff.mp hmem)
    · exact .inr ⟨hsent, rfl, rfl, rfl, rfl, rfl⟩
    · exact .inl hz
  · have hquiet := Quiet.conclude s x.request.address_ x.id (r := .sendFailed (some x.attempt))
      fun _ _ heq => by cases heq
    exact ⟨le_rfl, fun z hz => ⟨hne hz, .inl (hquiet.mem z hz)⟩,
      fun a b hmem => .inl (hquiet.timeouts a b hmem)⟩

end Requests

/-! ## What is true of every run -/

/-- A request of the attempt with this number has been given up. -/
def GivenUp (s : Timed α) (attempt : Nat) (address : α) (k : Nat) : Prop :=
  ∃ e ∈ s.expired, e.node.attempt = attempt ∧ e.node.request.address_ = address ∧
    e.node.request.retryNumber_ = k

structure Traced (s : Timed α) : Prop where
  sound : Sound c s.state
  expired_lt : ∀ e ∈ s.expired, e.node.id < s.state.nodes
  expired_gone : ∀ e ∈ s.expired, ∀ x ∈ s.state.requests_, x.id ≠ e.node.id
  answered_lt : ∀ id ∈ s.answered, id < s.state.nodes
  answered_gone : ∀ id ∈ s.answered, ∀ x ∈ s.state.requests_, x.id ≠ id
  unanswered : ∀ e ∈ s.expired, e.node.id ∉ s.answered
  /-- Before a retry, the requests that it retries have been given up. -/
  before : ∀ x ∈ s.state.requests_, ∀ k < x.request.retryNumber_,
    GivenUp s x.attempt x.request.address_ k
  timeouts : ∀ attempt address, .timeout attempt address ∈ s.state.reports →
    ∀ k ≤ c.maxRetries_, GivenUp s attempt address k

/-- The deadlines leave the requests their time, and so it was with those that were given up. -/
structure InTime (s : Timed α) : Prop where
  due : ∀ x ∈ s.state.requests_, s.sentAt x.id + c.timeoutPerRetry_ ≤ x.deadline
  waited : ∀ e ∈ s.expired, e.sentAt + c.timeoutPerRetry_ ≤ e.now

variable {c} {s s' : Timed α}

namespace Traced

omit [DecidableEq α] in
theorem start (t : Time) : Traced c (.start c t) where
  sound := .start t
  expired_lt _ he := nomatch he
  expired_gone _ he := nomatch he
  answered_lt _ hid := nomatch hid
  answered_gone _ hid := nomatch hid
  unanswered _ he := nomatch he
  before _ hx := nomatch hx
  timeouts _ _ hr := nomatch hr

omit [DecidableEq α] in
/-- Requests are answered, or nothing happens to them. -/
theorem quiet (h : Traced c s) {state : State α} (hsound : Sound c state)
    (hquiet : Quiet s.state state) (sentAt : Nat → Time) {answered : List Nat}
    (hanswered : ∀ id ∈ answered, (∃ x ∈ s.state.requests_, x.id = id) ∧
      ∀ x ∈ state.requests_, x.id ≠ id) :
    Traced c { s with state := state, sentAt := sentAt, answered := s.answered ++ answered } where
  sound := hsound
  expired_lt e he := hquiet.nodes ▸ h.expired_lt e he
  expired_gone e he x hx := h.expired_gone e he x (hquiet.mem x hx)
  answered_lt id hid := by
    change id < state.nodes
    rw [hquiet.nodes]
    obtain hid | hid := List.mem_append.mp hid
    · exact h.answered_lt id hid
    · obtain ⟨⟨x, hx, rfl⟩, -⟩ := hanswered id hid
      exact h.sound.id_lt x hx
  answered_gone id hid x hx := by
    obtain hid | hid := List.mem_append.mp hid
    · exact h.answered_gone id hid x (hquiet.mem x hx)
    · exact (hanswered id hid).2 x hx
  unanswered e he hid := by
    obtain hid | hid := List.mem_append.mp hid
    · exact h.unanswered e he hid
    · obtain ⟨⟨x, hx, heq⟩, -⟩ := hanswered _ hid
      exact h.expired_gone e he x hx heq
  before x hx := h.before x (hquiet.mem x hx)
  timeouts attempt address hr := h.timeouts attempt address (hquiet.timeouts attempt address hr)

theorem ping (h : Traced c s) {readAt : Time} {send : Option Time}
    (hping : s.ping c readAt send = some s') : Traced c s' := by
  obtain ⟨state, hstate, rfl⟩ := Option.map_eq_some_iff.mp hping
  obtain ⟨state', hstate', hmoves⟩ := h.sound.ping_moves readAt send.isSome
  obtain rfl := Option.some.inj (hstate.symm.trans hstate')
  have hsound := moves_sound c hmoves h.sound
  obtain hquiet | ⟨-, hnodes, hreports, hmem⟩ := ping_requests hstate
  · have hnone := h.quiet hsound hquiet (s.sending send) (List.forall_mem_nil _)
    rwa [List.append_nil] at hnone
  · have hlt {id : Nat} (hid : id < s.state.nodes) : id < state.nodes :=
      hnodes ▸ Nat.lt_succ_of_lt hid
    have hgone {id : Nat} (hid : id < s.state.nodes)
        (hold : ∀ x ∈ s.state.requests_, x.id ≠ id) : ∀ x ∈ state.requests_, x.id ≠ id := by
      intro x hx
      obtain hx | ⟨hx, -, -⟩ := hmem x hx
      · exact hold x hx
      · exact hx ▸ hid.ne'
    refine ⟨hsound, fun e he => hlt (h.expired_lt e he),
      fun e he => hgone (h.expired_lt e he) (h.expired_gone e he),
      fun id hid => hlt (h.answered_lt id hid),
      fun id hid => hgone (h.answered_lt id hid) (h.answered_gone id hid),
      h.unanswered, fun x hx k hk => ?_, hreports ▸ h.timeouts⟩
    obtain hx | ⟨-, -, hzero⟩ := hmem x hx
    · exact h.before x hx k hk
    · rw [hzero] at hk
      exact absurd hk (Nat.not_lt_zero k)

theorem receive (h : Traced c s) {now : Time} {received : Received α}
    (hreceive : s.receive c now received = some s') : Traced c s' := by
  obtain ⟨state, hstate, rfl⟩ := Option.map_eq_some_iff.mp hreceive
  obtain ⟨state', hstate', hmoves⟩ := h.sound.receive_moves now received
  obtain rfl := Option.some.inj (hstate.symm.trans hstate')
  refine h.quiet (moves_sound c hmoves h.sound) (quiet_receive hstate) s.sentAt fun id hid => ?_
  obtain ⟨hid, hgone⟩ := List.mem_filter.mp hid
  refine ⟨List.mem_map.mp hid, fun x hx heq => of_decide_eq_true hgone ?_⟩
  exact heq ▸ List.mem_map_of_mem hx

/-- What has been given up stays so, and `x` has been given up now. -/
theorem expire (h : Traced c s) {x : Node α} (hx : x ∈ s.state.requests_) (now : Time)
    (send : Option Time) : Traced c (s.expire c now send x) := by
  have hexpires := expires_expire c s.state now send.isSome x
  have hmem {e : Expiry α} (he : e ∈ (s.expire c now send x).expired) :
      e ∈ s.expired ∨ e = ⟨x, s.sentAt x.id, now⟩ :=
    (List.mem_append.mp he).imp_right List.mem_singleton.mp
  have hgivenUp {attempt : Nat} {address : α} {k : Nat} (hk : GivenUp s attempt address k) :
      GivenUp (s.expire c now send x) attempt address k := by
    obtain ⟨e, he, hparts⟩ := hk
    exact ⟨e, List.mem_append_left _ he, hparts⟩
  have hupTo {k : Nat} (hk : k ≤ x.request.retryNumber_) :
      GivenUp (s.expire c now send x) x.attempt x.request.address_ k := by
    obtain hlt | rfl := Nat.lt_or_eq_of_le hk
    · exact hgivenUp (h.before x hx k hlt)
    · exact ⟨⟨x, s.sentAt x.id, now⟩, List.mem_append_right _ (List.mem_singleton_self _),
        rfl, rfl, rfl⟩
  have hgone {id : Nat} (hid : id < s.state.nodes)
      (hold : ∀ z ∈ s.state.requests_, z.id ≠ id) :
      ∀ z ∈ (s.expire c now send x).state.requests_, z.id ≠ id := by
    intro z hz
    obtain ⟨-, hz | ⟨-, hz, -⟩⟩ := hexpires.mem z hz
    · exact hold z hz
    · exact hz ▸ hid.ne'
  refine ⟨(h.sound.expire_move hx now send.isSome).sound c h.sound, fun e he => ?_,
    fun e he => ?_, fun id hid => (h.answered_lt id hid).trans_le hexpires.nodes,
    fun id hid => hgone (h.answered_lt id hid) (h.answered_gone id hid), fun e he => ?_,
    fun z hz k hk => ?_, fun attempt address hr k hk => ?_⟩
  · obtain he | rfl := hmem he
    · exact (h.expired_lt e he).trans_le hexpires.nodes
    · exact (h.sound.id_lt x hx).trans_le hexpires.nodes
  · obtain he | rfl := hmem he
    · exact hgone (h.expired_lt e he) (h.expired_gone e he)
    · exact fun z hz => (hexpires.mem z hz).1
  · obtain he | rfl := hmem he
    · exact h.unanswered e he
    · exact fun hid => h.answered_gone x.id hid x hx rfl
  · obtain ⟨-, hz | ⟨-, -, -, hattempt, haddress, hretry⟩⟩ := hexpires.mem z hz
    · exact hgivenUp (h.before z hz k hk)
    · rw [hretry] at hk
      rw [hattempt, haddress]
      exact hupTo (Nat.lt_succ_iff.mp hk)
  · obtain hr | ⟨rfl, rfl, hlast⟩ := hexpires.timeouts attempt address hr
    · exact hgivenUp (h.timeouts attempt address hr k hk)
    · exact hupTo (hlast ▸ hk)

theorem alarm (h : Traced c s) (now : Time) (sends : Nat → Option Time) :
    Traced c (s.alarm c now sends) := by
  fun_induction Timed.alarm c s now sends with
  | case1 => exact h
  | case2 s x hfirst hdeadline ih =>
    exact ih (h.expire (List.mem_of_mem_head? hfirst) now (sends x.id))
  | case3 => exact h

end Traced

/-! ## Where deadlines are kept -/

namespace InTime

omit [DecidableEq α] in
theorem start (t : Time) : InTime c (.start c t) where
  due _ hx := nomatch hx
  waited _ he := nomatch he

omit [DecidableEq α] in
/-- The times of the requests that are out are not changed. -/
theorem sending_of_lt {send : Option Time} {id : Nat} (hid : id < s.state.nodes) :
    s.sending send id = s.sentAt id := by
  cases send with
  | none => rfl
  | some sent => exact Function.update_of_ne hid.ne ..

omit [DecidableEq α] in
theorem sending_self {send : Option Time} {due : Time} (hsent : send.isSome = true)
    (hdue : ∀ sent, send = some sent → sent ≤ due) : s.sending send s.state.nodes ≤ due := by
  obtain ⟨sent, rfl⟩ := Option.isSome_iff_exists.mp hsent
  change update s.sentAt s.state.nodes sent s.state.nodes ≤ due
  rw [Function.update_self]
  exact hdue sent rfl

theorem ping (h : InTime c s) (ht : Traced c s) {readAt : Time} {send : Option Time}
    (hon : OnTime s (.ping readAt send)) (hping : s.ping c readAt send = some s') :
    InTime c s' := by
  obtain ⟨state, hstate, rfl⟩ := Option.map_eq_some_iff.mp hping
  refine ⟨fun x hx => ?_, h.waited⟩
  have hold (hx : x ∈ s.state.requests_) :
      s.sending send x.id + c.timeoutPerRetry_ ≤ x.deadline := by
    rw [sending_of_lt (ht.sound.id_lt x hx)]
    exact h.due x hx
  obtain hquiet | ⟨hsent, -, -, hmem⟩ := ping_requests hstate
  · exact hold (hquiet.mem x hx)
  · obtain hx | ⟨hid, hdeadline, -⟩ := hmem x hx
    · exact hold hx
    · change s.sending send x.id + _ ≤ _
      rw [hid, hdeadline]
      exact Int.add_le_add_right (sending_self hsent hon) _

theorem receive (h : InTime c s) {now : Time} {received : Received α}
    (hreceive : s.receive c now received = some s') : InTime c s' := by
  obtain ⟨state, hstate, rfl⟩ := Option.map_eq_some_iff.mp hreceive
  exact ⟨fun x hx => h.due x ((quiet_receive hstate).mem x hx), h.waited⟩

theorem expire (h : InTime c s) (ht : Traced c s) {x : Node α} (hx : x ∈ s.state.requests_)
    {now : Time} (hdeadline : x.deadline ≤ now) {send : Option Time}
    (hon : ∀ sent, send = some sent → sent ≤ now) : InTime c (s.expire c now send x) := by
  have hexpires := expires_expire c s.state now send.isSome x
  refine ⟨fun z hz => ?_, fun e he => ?_⟩
  · change s.sending send z.id + _ ≤ _
    obtain ⟨-, hz | ⟨hsent, hid, hnew, -⟩⟩ := hexpires.mem z hz
    · rw [sending_of_lt (ht.sound.id_lt z hz)]
      exact h.due z hz
    · rw [hid, hnew]
      exact Int.add_le_add_right (sending_self hsent hon) _
  · obtain he | he := List.mem_append.mp he
    · exact h.waited e he
    · rw [List.mem_singleton.mp he]
      exact (h.due x hx).trans hdeadline

theorem alarm (h : InTime c s) (ht : Traced c s) {now : Time} {sends : Nat → Option Time}
    (hon : ∀ id sent, sends id = some sent → sent ≤ now) : InTime c (s.alarm c now sends) := by
  fun_induction Timed.alarm c s now sends with
  | case1 => exact h
  | case2 s x hfirst hdeadline ih =>
    have hx := List.mem_of_mem_head? hfirst
    exact ih (h.expire ht hx hdeadline (hon x.id)) (ht.expire hx now (sends x.id))
  | case3 => exact h

end InTime

theorem TimedReaches.traced {allowed : Timed α → TimedAction α → Prop} {t : Time}
    (h : TimedReaches c allowed t s) : Traced c s := by
  induction h with
  | start => exact .start t
  | @step s s' action after _ _ _ hstep ih =>
    have htraced : Traced c s' := by
      cases action with
      | ping readAt send => exact ih.ping hstep
      | alarm now sends => exact Option.some.inj hstep ▸ ih.alarm now sends
      | receive now received => exact ih.receive hstep
    exact { htraced with }

theorem TimedReaches.inTime {t : Time} (h : TimedReaches c OnTime t s) : InTime c s := by
  induction h with
  | start => exact .start t
  | @step s s' action after hreaches hon _ hstep ih =>
    have hin : InTime c s' := by
      cases action with
      | ping readAt send => exact ih.ping hreaches.traced hon hstep
      | alarm now sends => exact Option.some.inj hstep ▸ ih.alarm hreaches.traced hon
      | receive now received => exact ih.receive hstep
    exact { hin with }

/-- One address, no retries, and ten nanoseconds to answer -/
def oneAddress : Config Nat where
  identifier_ := 0
  firstSequence_ := 0
  addresses := [0]
  addresses_ne_nil := by decide
  step := 1
  maxRetries_ := 0
  timeoutPerRetry := 10

/-- `run` is delayed for a hundred nanoseconds before it sends the first packet. -/
def delayed : Timed Nat where
  state := {
    targets_ := update (fun _ => none) 0 (some 0)
    requests_ := [⟨0, 10, ⟨0, 0, 0, 100⟩, 0⟩]
    currentSequence_ := 1
    position := 0
    t := 1
    nodes := 1
    attempts := 1
    reports := [] }
  clock := 100
  sentAt := update (fun _ => 0) 0 100
  expired := []
  answered := []

theorem delayed_reached : TimedReaches oneAddress (fun _ _ => True) 0 delayed := by
  have hwithin : (TimedAction.ping 100 (some 100) : TimedAction Nat).Within 0 100 :=
    ⟨by decide, by decide, fun sent hsent => Option.some.inj hsent ▸ ⟨by decide, by decide⟩⟩
  have hstep : (Timed.start oneAddress 0).step oneAddress (.ping 100 (some 100))
      = some { delayed with clock := 0 } := rfl
  exact .step .start trivial hwithin hstep

/-- The alarm clock runs at once. -/
theorem alarm_delayed : delayed.alarm oneAddress 100 (fun _ => none)
    = delayed.expire oneAddress 100 none ⟨0, 10, ⟨0, 0, 0, 100⟩, 0⟩ := by
  rw [Timed.alarm.eq_def]
  split
  · rename_i h
    cases h
  · rename_i x h
    obtain rfl := Option.some.inj h
    rw [dif_pos (show (10 : Int) ≤ 100 by decide), Timed.alarm.eq_def]
    rfl

end Urnest.Xju.Pinger
