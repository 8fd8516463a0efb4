import Urnest.Pq.Trees
import Mathlib.Tactic.IntervalCases

/-!
# Which operations keep documents trees

`Op.Suits` says of an operation when it does, by what it finds. `html` and `text` leave the
children that a node had with the node for their parent; `replace` leaves the node that is
replaced so; and `appendTo`, `addAfter` and `addBefore` do not take their nodes from where they
were, nor look whether the target is in one of them.
-/

namespace Urnest.Pq

open Lib Lib.Action

def Op.Suits (s : Heap) : Op → Prop
  | .html self nodes => ∀ t ∈ (s.lists self).head?, (s.kind t).hasChildren = true →
    s.Receives t (s.lists nodes)
  | .htmlText self _ => ∀ t ∈ (s.lists self).head?, (s.kind t).hasChildren = true →
    s.childrenOf t = []
  | .text self string => s.Writable (s.lists self) string
  | .replace self nodes => ∀ x ∈ (s.lists nodes).head?, ∀ p ∈ s.parent x,
    (s.kind p).isTag = true → ∀ y ∈ (s.lists self).head?, y = x
  | .appendTo self nodes => s.lists self ≠ [] → ∀ t ∈ (s.lists nodes).head?,
    s.Appendable (s.lists self) t
  | .addAfter self nodes | .addBefore self nodes => ∀ x ∈ (s.lists nodes).head?,
    ∀ p ∈ s.parent x, s.Graftable (s.lists self) p
  | .parse _ | .select _ | .detach _ | .empty _ | .clone _ _ => True

variable {s : Heap}

theorem wp_have (h : s.Sound) {l : Nat} {x : Method Unit}
    (hx : l < s.listCount → wp x (fun _ s' => s'.Sound) Heap.Sound s) :
    wp (do have_ l; x) (fun _ s' => s'.Sound) Heap.Sound s := by
  rw [wp_bind, have_, wp_bind, wp_read]
  split_ifs with hl
  · exact h
  · exact hx (Nat.lt_of_not_le hl)

theorem wp_ignore {α : Type} {x : Method α} (hx : wp x (fun _ s' => s'.Sound) Heap.Sound s) :
    wp (ignore x) (fun _ s' => s'.Sound) Heap.Sound s := by
  rw [ignore, wp_bind]
  exact hx

theorem wp_select (h : s.Sound) (nodes : List Nat) {E : Heap → Prop} :
    wp (select nodes) (fun _ s' => s'.Sound) E s := by
  rw [select, wp_bind, wp_read]
  exact h.newList fun n hn => of_decide_eq_true (List.mem_filter.mp hn).2

theorem wp_detach (h : s.Sound) (self : Nat) {E : Heap → Prop} :
    wp (detach self) (fun _ s' => s'.Sound) E s := by
  rw [detach, wp_bind, wp_read]
  exact (wp_forEach_detach h _).mono fun _ s' hs' => hs'.sound

/-- An operation that suits leaves trees. -/
theorem sound_step (h : s.Sound) {op : Op} (hop : op.Suits s) : (step op s).2.Sound := by
  refine wp.after ?_
  cases op with
  | parse string => exact wp_ignore ((wp_parse h string).mono fun _ s' hs' => hs'.1.sound)
  | select nodes => exact wp_ignore (wp_select h nodes)
  | html self nodes =>
    refine wp_have h fun hself => wp_have h fun hnodes => ?_
    exact (wp_html h hself hnodes hop).mono fun _ s' hs' => hs'.sound
  | htmlText self string => exact wp_have h fun hself => wp_htmlText h hself hop
  | text self string => exact wp_have h fun _ => wp_text h hop
  | replace self nodes => exact wp_have h fun _ => wp_have h fun _ => wp_replace h hop
  | appendTo self nodes => exact wp_have h fun _ => wp_have h fun _ => wp_appendTo h hop
  | addAfter self nodes => exact wp_have h fun _ => wp_have h fun _ => wp_addBeside h hop
  | addBefore self nodes => exact wp_have h fun _ => wp_have h fun _ => wp_addBeside h hop
  | detach self => exact wp_have h fun _ => wp_detach h self
  | empty self => exact wp_have h fun _ => wp_empty h self
  | clone limit self => exact wp_have h fun _ => wp_ignore (wp_clone h limit self)

theorem sound_empty : Heap.empty.Sound := by
  have hlists : ∀ (l n : Nat), n ∉ Heap.empty.lists l := fun _ _ => List.not_mem_nil
  refine ⟨⟨fun _ => List.nodup_nil, fun n p => ?_, fun n hn => not_above_root rfl hn⟩, fun p hp => ?_,
    fun p hp => ?_, fun l n hn => absurd hn (hlists l n), fun l n hn => absurd hn (hlists l n)⟩
  · exact iff_of_false (hlists 0 n) (nomatch ·)
  · cases hp
  · cases hp

theorem sound_after (h : s.Sound) {ops : List Op}
    (hops : AllSteps step (fun s op => op.Suits s) s ops) : (after step s ops).Sound := by
  induction ops generalizing s with
  | nil => exact h
  | cons op ops ih => exact ih (sound_step h hops.1) hops.2

/-- In a run of operations that suit, whatever texts are parsed and whatever is selected,
the documents are trees all the way. -/
theorem trees_of_suits (ops : List Op)
    (hops : AllSteps step (fun s op => op.Suits s) Heap.empty ops) (done rest : List Op)
    (hsplit : ops = done ++ rest) : (after step Heap.empty done).Trees := by
  have hdone : AllSteps step (fun s op => op.Suits s) Heap.empty done := by
    rw [allSteps_iff_forall] at hops ⊢
    exact fun before op after h => hops before op (after ++ rest) (by rw [hsplit, h]; simp)
  exact (sound_after sound_empty hdone).trees

/-- A text that is put in a paragraph. -/
theorem trees_of_suits_paragraph : (after step Heap.empty
    [.parse [.starttag "p", .endtag "p"], .parse [.data], .appendTo 6 2]).Trees := by
  have hsound : (after step Heap.empty
      [.parse [.starttag "p", .endtag "p"], .parse [.data]]).Sound :=
    sound_after sound_empty ⟨trivial, trivial, trivial⟩
  refine trees_of_suits [.parse [.starttag "p", .endtag "p"], .parse [.data], .appendTo 6 2]
    ⟨trivial, trivial, fun _ t ht => ?_, trivial⟩ _ [] rfl
  obtain rfl := Option.some.inj ht
  refine ⟨⟨rfl, fun q hq hsame => ?_⟩, ⟨List.nodup_singleton 3, fun n hn => ?_, fun n hn => ?_⟩⟩
  · have hlt : q < 4 := hsound.kinds_lt q hq
    interval_cases q
    · cases hsame
    · rfl
    · cases hsame
    · cases hsame
  · rw [List.mem_singleton.mp hn]
    rfl
  · rw [List.mem_singleton.mp hn]
    exact ⟨by decide, not_above_root rfl⟩

/-- `html` of a paragraph with a text in it: the text still has the paragraph for its parent. -/
theorem not_trees : ¬ ∀ ops : List Op, (after step Heap.empty ops).Trees := by
  intro h
  have htext := (h [.parse [.starttag "p", .data, .endtag "p"], .htmlText 3 [.data]]).mem_children 2 1
  exact absurd (htext.mpr rfl) (by decide)

end Urnest.Pq
