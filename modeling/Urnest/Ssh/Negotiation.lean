import Mathlib
import Urnest.Lib.Dict
import Urnest.Ssh.Message

/-!
# Choosing the key exchange

chooseKexer.hcp and chooseHostKeyAlgorithm.hcp, as Rekeyer.hcp calls them: from what the
client and the server propose in their KexInit, and what our own algorithms can do.

The first algorithms agree, or else the client's first one is taken that the server has too
and that the host keys allow. The code looks for a host key for encryption and for one for
signatures apart, and has a guess for right without a look at the host key algorithms; so it
does what RFC 4253 7.1 says just where neither matters (`followsRfc_iff`).
-/

namespace Urnest.Ssh

/-! ## Algorithms -/

/-- Our algorithms, by name, and what is asked of them -/
structure Algorithms (κ η : Type) where
  kexers : Lib.Dict Name κ
  hostKeyers : Lib.Dict Name η
  requiresEncryptionCapableHostKey : κ → Bool
  requiresSignatureCapableHostKey : κ → Bool
  isEncryptionCapable : η → Bool
  isSignatureCapable : η → Bool

/-- What both functions throw -/
inductive NegotiationException where
  /-- "client KexInit contains no kex algorithm names" -/
  | noClientKex
  /-- "server KexInit contains no kex algorithm names" -/
  | noServerKex
  /-- "client and server have no common key-exchange and/or required host key algorithm" -/
  | noCommonKex
  /-- "client and server have no common host key algorithm that meets the encryption and
  signature requirements" -/
  | noCommonHostKey
  | assertion
  /-- the end of a map is looked at -/
  | undefined
  deriving DecidableEq, Repr

section Code

variable {κ η : Type} (algorithms : Algorithms κ η)

/-- A host key algorithm of both, of ours, that can do this -/
def hasCommon (capable : η → Bool) (client server : List Name) : Bool :=
  algorithms.hostKeyers.items.any fun nv =>
    decide (nv.1 ∈ client) && decide (nv.1 ∈ server) && capable nv.2

/-- Where the loop does not `continue` -/
def meets (clientHostKeys serverHostKeys : List Name) (a : κ) : Bool :=
  (!algorithms.requiresEncryptionCapableHostKey a ||
    hasCommon algorithms algorithms.isEncryptionCapable clientHostKeys serverHostKeys) &&
  (!algorithms.requiresSignatureCapableHostKey a ||
    hasCommon algorithms algorithms.isSignatureCapable clientHostKeys serverHostKeys)

/-- The loop over the client's algorithms -/
def chooseCommon (serverProposed clientHostKeys serverHostKeys : List Name) :
    List Name → Except NegotiationException (κ × Bool)
  | [] => .error .noCommonKex
  | n :: ns =>
    if n ∈ serverProposed then
      match algorithms.kexers.get? n with
      | none => .error .undefined
      | some a =>
        if meets algorithms clientHostKeys serverHostKeys a then .ok (a, false)
        else chooseCommon serverProposed clientHostKeys serverHostKeys ns
    else chooseCommon serverProposed clientHostKeys serverHostKeys ns

/-- `chooseKexer`: the kexer, and whether the guess was correct -/
def chooseKexer (clientRequested serverProposed clientHostKeys serverHostKeys : List Name) :
    Except NegotiationException (κ × Bool) :=
  match clientRequested, serverProposed with
  | [], _ => .error .noClientKex
  | _ :: _, [] => .error .noServerKex
  | c :: _, s :: _ =>
    if c = s then
      match algorithms.kexers.get? c with
      | none => .error .assertion
      | some a => .ok (a, true)
    else chooseCommon algorithms serverProposed clientHostKeys serverHostKeys clientRequested

/-- What a key exchange requires of a host key algorithm -/
def allows (requiresEncryption requiresSignature : Bool) (hostKeyer : η) : Bool :=
  (!requiresEncryption || algorithms.isEncryptionCapable hostKeyer) &&
    (!requiresSignature || algorithms.isSignatureCapable hostKeyer)

def chooseHostKeyAlgorithm (serverSupports : List Name)
    (requiresEncryption requiresSignature : Bool) :
    List Name → Except NegotiationException η
  | [] => .error .noCommonHostKey
  | c :: cs =>
    if c ∈ serverSupports then
      match algorithms.hostKeyers.get? c with
      | none => .error .assertion
      | some hostKeyer =>
        if allows algorithms requiresEncryption requiresSignature hostKeyer then .ok hostKeyer
        else chooseHostKeyAlgorithm serverSupports requiresEncryption requiresSignature cs
    else chooseHostKeyAlgorithm serverSupports requiresEncryption requiresSignature cs

end Code

/-- The KexInit of both sides, and algorithms of ours that cover the client's -/
structure Negotiation (κ η : Type) where
  algorithms : Algorithms κ η
  clientKex : List Name
  serverKex : List Name
  clientHostKeys : List Name
  serverHostKeys : List Name
  covers_kex : ∀ n ∈ clientKex, n ∈ algorithms.kexers
  covers_hostKeys : ∀ n ∈ clientHostKeys, n ∈ algorithms.hostKeyers

namespace Negotiation

variable {κ η : Type} (x : Negotiation κ η)

/-- `chooseKexer` in `doKex` -/
def kexer : Except NegotiationException (κ × Bool) :=
  chooseKexer x.algorithms x.clientKex x.serverKex x.clientHostKeys x.serverHostKeys

/-- `chooseHostKeyAlgorithm` in `doKex`, for a kexer -/
def hostKeyAlgorithm (a : κ) : Except NegotiationException η :=
  chooseHostKeyAlgorithm x.algorithms x.serverHostKeys
    (x.algorithms.requiresEncryptionCapableHostKey a)
    (x.algorithms.requiresSignatureCapableHostKey a) x.clientHostKeys

/-! ## RFC 4253 7.1 -/

/-- The first names of both lists are the same. -/
def FirstAgree (xs ys : List Name) : Prop := ∃ n, xs.head? = some n ∧ ys.head? = some n

/-- A host key algorithm of both has what the kexer requires. -/
def served (a : κ) : Bool :=
  x.clientHostKeys.any fun n => decide (n ∈ x.serverHostKeys) &&
    (x.algorithms.hostKeyers.get? n).any
      (allows x.algorithms (x.algorithms.requiresEncryptionCapableHostKey a)
        (x.algorithms.requiresSignatureCapableHostKey a))

/-- The server lists the algorithm too, and its kexer is as wanted. -/
def listed (wanted : κ → Bool) (n : Name) : Bool :=
  decide (n ∈ x.serverKex) && (x.algorithms.kexers.get? n).any wanted

/-- An algorithm to choose -/
def suitable : Name → Bool := x.listed x.served

/-- Each of its requirements is met by a common host key algorithm, by whichever. -/
def accepted : Name → Bool :=
  x.listed (meets x.algorithms x.clientHostKeys x.serverHostKeys)

structure FollowsRfc : Prop where
  /-- a guess is correct only when both first algorithms agree -/
  guess : ∀ a, x.kexer = .ok (a, true) →
    FirstAgree x.clientKex x.serverKex ∧ FirstAgree x.clientHostKeys x.serverHostKeys
  first : ∀ n, x.clientKex.head? = some n → x.serverKex.head? = some n →
    ∃ a guess, x.algorithms.kexers.get? n = some a ∧ x.kexer = .ok (a, guess)
  second : ¬ FirstAgree x.clientKex x.serverKex →
    ∀ n, x.clientKex.find? x.suitable = some n →
      ∃ a guess, x.algorithms.kexers.get? n = some a ∧ x.kexer = .ok (a, guess)
  none : ¬ FirstAgree x.clientKex x.serverKex → x.clientKex.find? x.suitable = none →
    ∃ e, x.kexer = .error e
  hostKey : ¬ FirstAgree x.clientKex x.serverKex → ∀ a guess, x.kexer = .ok (a, guess) →
    ∃ hostKeyer, x.hostKeyAlgorithm a = .ok hostKeyer

/-! ## What the code chooses -/

variable {x}

theorem listed_iff {wanted : κ → Bool} {n : Name} :
    x.listed wanted n ↔
      n ∈ x.serverKex ∧ ∃ a, x.algorithms.kexers.get? n = some a ∧ wanted a := by
  rw [listed, Bool.and_eq_true, decide_eq_true_iff, Option.any_eq_true]

theorem served_iff {a : κ} :
    x.served a ↔ ∃ n ∈ x.clientHostKeys, n ∈ x.serverHostKeys ∧
      ∃ hostKeyer, x.algorithms.hostKeyers.get? n = some hostKeyer ∧
        allows x.algorithms (x.algorithms.requiresEncryptionCapableHostKey a)
          (x.algorithms.requiresSignatureCapableHostKey a) hostKeyer := by
  simp only [served, List.any_eq_true, Bool.and_eq_true, decide_eq_true_iff, Option.any_eq_true]

/-- A host key algorithm that does for all does for each. -/
theorem meets_of_served {a : κ} (h : x.served a) :
    meets x.algorithms x.clientHostKeys x.serverHostKeys a := by
  obtain ⟨n, hclient, hserver, hostKeyer, hget, hallows⟩ := served_iff.mp h
  have hcommon : ∀ capable : η → Bool, capable hostKeyer →
      hasCommon x.algorithms capable x.clientHostKeys x.serverHostKeys := by
    intro capable hcapable
    exact List.any_eq_true.mpr ⟨(n, hostKeyer), Lib.Dict.get?_eq_some.mp hget, by
      simp [hclient, hserver, hcapable]⟩
  rw [allows, Bool.and_eq_true, Bool.or_eq_true, Bool.or_eq_true] at hallows
  rw [meets, Bool.and_eq_true, Bool.or_eq_true, Bool.or_eq_true]
  exact ⟨hallows.1.imp_right (hcommon _), hallows.2.imp_right (hcommon _)⟩

theorem accepted_of_suitable {n : Name} (h : x.suitable n) : x.accepted n := by
  obtain ⟨hserver, a, hget, hserved⟩ := listed_iff.mp h
  exact listed_iff.mpr ⟨hserver, a, hget, meets_of_served hserved⟩

/-- The loop finds the first algorithm that it accepts. -/
theorem chooseCommon_eq (names : List Name) (h : ∀ n ∈ names, n ∈ x.algorithms.kexers) :
    (∀ n, names.find? x.accepted = some n → ∃ a, x.algorithms.kexers.get? n = some a ∧
      chooseCommon x.algorithms x.serverKex x.clientHostKeys x.serverHostKeys names =
        .ok (a, false)) ∧
    (names.find? x.accepted = none →
      chooseCommon x.algorithms x.serverKex x.clientHostKeys x.serverHostKeys names =
        .error .noCommonKex) := by
  induction names with
  | nil => exact ⟨fun n hn => (by cases hn), fun _ => rfl⟩
  | cons m names ih =>
    have ih := ih fun n hn => h n (List.mem_cons_of_mem m hn)
    obtain ⟨a, ha⟩ := Lib.Dict.exists_get? (h m List.mem_cons_self)
    by_cases hserver : m ∈ x.serverKex
    · have haccepted : x.accepted m = meets x.algorithms x.clientHostKeys x.serverHostKeys a := by
        simp [accepted, listed, hserver, ha]
      rw [chooseCommon, if_pos hserver, ha]
      by_cases hmeets : meets x.algorithms x.clientHostKeys x.serverHostKeys a = true
      · rw [List.find?_cons_of_pos (haccepted.trans hmeets)]
        refine ⟨?_, fun hn => by cases hn⟩
        rintro n hn
        cases hn
        exact ⟨a, ha, if_pos hmeets⟩
      · rw [List.find?_cons_of_neg (haccepted ▸ hmeets)]
        simp only [if_neg hmeets]
        exact ih
    · have haccepted : ¬ x.accepted m = true := by simp [accepted, listed, hserver]
      rw [List.find?_cons_of_neg haccepted, chooseCommon, if_neg hserver]
      exact ih

theorem kexer_of_first {n : Name} (hclient : x.clientKex.head? = some n)
    (hserver : x.serverKex.head? = some n) :
    ∃ a, x.algorithms.kexers.get? n = some a ∧ x.kexer = .ok (a, true) := by
  obtain ⟨cs, hcs⟩ := List.head?_eq_some_iff.mp hclient
  obtain ⟨ss, hss⟩ := List.head?_eq_some_iff.mp hserver
  obtain ⟨a, ha⟩ := Lib.Dict.exists_get? (x.covers_kex n (hcs ▸ List.mem_cons_self))
  refine ⟨a, ha, ?_⟩
  rw [kexer, hcs, hss, chooseKexer, if_pos rfl, ha]

/-- Where the first algorithms differ, it is the first one accepted. -/
theorem kexer_of_not_first (hfirst : ¬ FirstAgree x.clientKex x.serverKex) :
    (∀ n, x.clientKex.find? x.accepted = some n → ∃ a, x.algorithms.kexers.get? n = some a ∧
      x.kexer = .ok (a, false)) ∧
    (x.clientKex.find? x.accepted = none → ∃ e, x.kexer = .error e) := by
  have hcommon := chooseCommon_eq x.clientKex x.covers_kex
  cases hclient : x.clientKex with
  | nil => exact ⟨fun n hn => (nomatch hn), fun _ => ⟨_, by rw [kexer, hclient, chooseKexer]⟩⟩
  | cons c cs =>
    cases hserver : x.serverKex with
    | nil =>
      refine ⟨fun n hn => ?_, fun _ => ⟨_, by rw [kexer, hclient, hserver, chooseKexer]⟩⟩
      obtain ⟨hmem, -⟩ := listed_iff.mp (List.find?_some hn)
      rw [hserver] at hmem
      exact nomatch hmem
    | cons s ss =>
      have hne : c ≠ s := by
        rintro rfl
        exact hfirst ⟨c, by rw [hclient]; rfl, by rw [hserver]; rfl⟩
      have hkexer : x.kexer = chooseCommon x.algorithms x.serverKex x.clientHostKeys
          x.serverHostKeys x.clientKex := by
        rw [kexer, hclient, hserver, chooseKexer, if_neg hne]
      rw [hkexer, ← hclient]
      exact ⟨hcommon.1, fun hnone => ⟨_, hcommon.2 hnone⟩⟩

/-- The loop finds a host key algorithm that does, where there is one. -/
theorem chooseHostKeyAlgorithm_iff (requiresEncryption requiresSignature : Bool)
    (names : List Name) (h : ∀ n ∈ names, n ∈ x.algorithms.hostKeyers) :
    (∃ hostKeyer, chooseHostKeyAlgorithm x.algorithms x.serverHostKeys requiresEncryption
        requiresSignature names = .ok hostKeyer) ↔
      names.any fun n => decide (n ∈ x.serverHostKeys) &&
        (x.algorithms.hostKeyers.get? n).any
          (allows x.algorithms requiresEncryption requiresSignature) := by
  induction names with
  | nil => exact iff_of_false (fun ⟨_, h⟩ => nomatch h) (by simp)
  | cons c cs ih =>
    have ih := ih fun n hn => h n (List.mem_cons_of_mem c hn)
    obtain ⟨hostKeyer, hget⟩ := Lib.Dict.exists_get? (h c List.mem_cons_self)
    rw [chooseHostKeyAlgorithm, List.any_cons]
    by_cases hserver : c ∈ x.serverHostKeys
    · rw [if_pos hserver, hget, decide_eq_true hserver, Option.any_some, Bool.true_and]
      cases hallows : allows x.algorithms requiresEncryption requiresSignature hostKeyer with
      | true => exact iff_of_true ⟨hostKeyer, if_pos hallows⟩ rfl
      | false =>
        simp only [hallows, Bool.false_eq_true, if_false, Bool.false_or]
        exact ih
    · rw [if_neg hserver, decide_eq_false hserver, Bool.false_and, Bool.false_or]
      exact ih

theorem exists_hostKeyAlgorithm_iff {a : κ} :
    (∃ hostKeyer, x.hostKeyAlgorithm a = .ok hostKeyer) ↔ x.served a :=
  chooseHostKeyAlgorithm_iff _ _ _ x.covers_hostKeys

/-! ## Where it follows the RFC -/

/-- What is wanted first and what is wanted more strictly are the same, when nothing of the
former kind comes before the first of the latter. -/
theorem find?_eq_find?_iff {α : Type} {p q : α → Bool} (hqp : ∀ n, q n → p n) (names : List α) :
    names.find? p = names.find? q ↔ ∀ n ∈ names.takeWhile fun n => !q n, ¬ p n := by
  induction names with
  | nil => exact iff_of_true rfl fun n hn => (nomatch hn)
  | cons m names ih =>
    by_cases hq : q m = true
    · rw [List.find?_cons_of_pos hq, List.find?_cons_of_pos (hqp m hq),
        List.takeWhile_cons_of_neg (by simp [hq])]
      exact iff_of_true rfl fun n hn => (nomatch hn)
    · rw [List.find?_cons_of_neg hq, List.takeWhile_cons_of_pos (by simp [hq]),
        List.forall_mem_cons]
      by_cases hp : p m = true
      · rw [List.find?_cons_of_pos hp]
        refine iff_of_false (fun h => hq ?_) fun h => h.1 hp
        exact List.find?_some h.symm
      · rw [List.find?_cons_of_neg hp, ih]
        exact ⟨fun h => ⟨hp, h⟩, And.right⟩

/-- In the second case: what is accepted first has a host key algorithm. -/
theorem find?_eq_of_followsRfc (hrfc : x.FollowsRfc)
    (hfirst : ¬ FirstAgree x.clientKex x.serverKex) :
    x.clientKex.find? x.accepted = x.clientKex.find? x.suitable := by
  obtain ⟨hsome, -⟩ := kexer_of_not_first hfirst
  cases hfind : x.clientKex.find? x.accepted with
  | none =>
    rw [eq_comm, List.find?_eq_none]
    intro n hn hsuitable
    exact List.find?_eq_none.mp hfind n hn (accepted_of_suitable hsuitable)
  | some n =>
    obtain ⟨a, hget, hkexer⟩ := hsome n hfind
    have hserved := exists_hostKeyAlgorithm_iff.mp (hrfc.hostKey hfirst a false hkexer)
    obtain ⟨hserver, -⟩ := listed_iff.mp (List.find?_some hfind)
    have hsuitable : x.suitable n := listed_iff.mpr ⟨hserver, a, hget, hserved⟩
    -- nothing before it is accepted, and so nothing is suitable
    obtain ⟨-, before, after, hnames, hbefore⟩ := List.find?_eq_some_iff_append.mp hfind
    refine (List.find?_eq_some_iff_append.mpr ⟨hsuitable, before, after, hnames, ?_⟩).symm
    intro m hm
    have hnot := hbefore m hm
    by_contra hyes
    rw [Bool.not_eq_true, Bool.not_eq_false'] at hyes
    rw [accepted_of_suitable hyes] at hnot
    exact absurd hnot (by decide)

variable (x)

/-- Where the first kex algorithms agree, so do the first host key algorithms; and where they
do not, nothing is accepted before the client's first suitable algorithm. -/
theorem followsRfc_iff :
    x.FollowsRfc ↔
      (FirstAgree x.clientKex x.serverKex → FirstAgree x.clientHostKeys x.serverHostKeys) ∧
      (¬ FirstAgree x.clientKex x.serverKex →
        ∀ n ∈ x.clientKex.takeWhile fun n => !x.suitable n, ¬ x.accepted n) := by
  constructor
  · intro hrfc
    constructor
    · rintro ⟨n, hclient, hserver⟩
      obtain ⟨a, -, hkexer⟩ := kexer_of_first hclient hserver
      exact (hrfc.guess a hkexer).2
    · intro hfirst
      exact (find?_eq_find?_iff (fun n => accepted_of_suitable) _).mp
        (find?_eq_of_followsRfc hrfc hfirst)
  · rintro ⟨hguess, hsplit⟩
    have hsame : ¬ FirstAgree x.clientKex x.serverKex →
        x.clientKex.find? x.accepted = x.clientKex.find? x.suitable := fun hfirst =>
      (find?_eq_find?_iff (fun n => accepted_of_suitable) _).mpr (hsplit hfirst)
    refine ⟨?_, ?_, ?_, ?_, ?_⟩
    · intro a hkexer
      by_cases hfirst : FirstAgree x.clientKex x.serverKex
      · exact ⟨hfirst, hguess hfirst⟩
      · obtain ⟨hsome, hnone⟩ := kexer_of_not_first hfirst
        cases hfind : x.clientKex.find? x.accepted with
        | none =>
          obtain ⟨e, he⟩ := hnone hfind
          exact nomatch he.symm.trans hkexer
        | some n =>
          obtain ⟨b, -, hb⟩ := hsome n hfind
          exact nomatch hb.symm.trans hkexer
    · intro n hclient hserver
      obtain ⟨a, hget, hkexer⟩ := kexer_of_first hclient hserver
      exact ⟨a, true, hget, hkexer⟩
    · intro hfirst n hfind
      obtain ⟨a, hget, hkexer⟩ := (kexer_of_not_first hfirst).1 n ((hsame hfirst).trans hfind)
      exact ⟨a, false, hget, hkexer⟩
    · intro hfirst hfind
      exact (kexer_of_not_first hfirst).2 ((hsame hfirst).trans hfind)
    · intro hfirst a guess hkexer
      obtain ⟨hsome, hnone⟩ := kexer_of_not_first hfirst
      cases hfind : x.clientKex.find? x.accepted with
      | none =>
        obtain ⟨e, he⟩ := hnone hfind
        exact nomatch he.symm.trans hkexer
      | some n =>
        obtain ⟨b, hget, hb⟩ := hsome n hfind
        obtain ⟨-, b', hget', hserved⟩ :=
          listed_iff.mp (List.find?_some ((hsame hfirst).symm.trans hfind))
        cases hb.symm.trans hkexer
        cases hget.symm.trans hget'
        exact exists_hostKeyAlgorithm_iff.mpr hserved

/-- Both prefer the same key exchange, and different host key algorithms. -/
def otherHostKeys : Negotiation Unit Unit where
  algorithms :=
    { kexers := ⟨[([75, 49], ())], by decide⟩
      hostKeyers := ⟨[([72, 49], ()), ([72, 50], ())], by decide⟩
      requiresEncryptionCapableHostKey := fun _ => false
      requiresSignatureCapableHostKey := fun _ => true
      isEncryptionCapable := fun _ => true
      isSignatureCapable := fun _ => true }
  clientKex := [[75, 49]]
  serverKex := [[75, 49]]
  clientHostKeys := [[72, 49], [72, 50]]
  serverHostKeys := [[72, 50], [72, 49]]
  covers_kex := by decide
  covers_hostKeys := by decide

/-- One host key algorithm is for encryption only, the other one for signatures only. -/
def split : Negotiation Unit Bool where
  algorithms :=
    { kexers := ⟨[([75, 49], ()), ([75, 50], ())], by decide⟩
      hostKeyers := ⟨[([72, 49], true), ([72, 50], false)], by decide⟩
      requiresEncryptionCapableHostKey := fun _ => true
      requiresSignatureCapableHostKey := fun _ => true
      isEncryptionCapable := id
      isSignatureCapable := not }
  clientKex := [[75, 49], [75, 50]]
  serverKex := [[75, 50]]
  clientHostKeys := [[72, 49], [72, 50]]
  serverHostKeys := [[72, 49], [72, 50]]
  covers_kex := by decide
  covers_hostKeys := by decide

/-- The guess is right as it is reported, and no host key algorithm is found. -/
theorem not_followsRfc : ¬ otherHostKeys.FollowsRfc ∧ ¬ split.FollowsRfc := by
  constructor
  · intro h
    obtain ⟨n, hclient, hserver⟩ := (h.guess () rfl).2
    cases hclient
    cases hserver
  · intro h
    have hfirst : ¬ FirstAgree split.clientKex split.serverKex := by
      rintro ⟨n, hclient, hserver⟩
      cases hclient
      cases hserver
    obtain ⟨hostKeyer, hhostKeyer⟩ := h.hostKey hfirst () false rfl
    exact nomatch hhostKeyer

end Negotiation

end Urnest.Ssh
