import GoMachine.Proofs.Schedule.Values
/-!
# What nodes do to the running thread

The stacks of a thread are its own, and hold nothing private. Pushing and popping nodes and
operands, and opening and closing scopes, is `Tame`.
-/
namespace GoMachine

open Heap (Orderly)

variable {c : List Address} {a b v : Address}

/-! ## Nodes -/

namespace Node

variable {tag : Tag} {fields : List UInt64} {children : List Address}

theorem setFields_tame (ht : tag.isInternal = false) : Tame c (setFields a tag fields) := by
  refine .bind (.forIn fun pair _ => ?_) fun _ => .pure (by grind)
  exact .bind (.heap (.setField (.inl ht))) fun _ => .pure (by grind)

@[grind ←]
theorem build_tame (ht : tag.isOpen) (ht' : tag.isPersonal = false) (hc : children ⊆ .nil :: c) :
    Tame c (build tag fields children) := by
  have internal : tag.isInternal = false := by cases tag <;> first | rfl | cases ht
  refine .attempt (.heap (.allocate ht')) (fun node => ?_) fun e s => ?_
  · refine .bind (setFields_tame internal) fun _ => .bind (.forIn fun pair h => ?_) fun _ =>
      .pure (by grind)
    have := hc (List.fst_mem_of_mem_zipIdx h)
    exact .bind (.heap (.setChildOwned (.inl ht) (by grind))) fun _ => .pure (by grind)
  · exact Yields.any.bind fun _ _ _ => .throw

@[grind ←]
theorem buildShared_tame (ht : tag.isOpen) (ht' : tag.isPersonal = false)
    (hc : children ⊆ .nil :: c) :
    Tame c (buildShared tag fields children) := by
  have internal : tag.isInternal = false := by cases tag <;> first | rfl | cases ht
  refine .bind (.heap (.allocate ht')) fun node => .bind (setFields_tame internal) fun _ =>
    .bind (.forIn fun pair h => ?_) fun _ => .pure (by grind)
  have := hc (List.fst_mem_of_mem_zipIdx h)
  exact .bind (.heap (.setChild (.inl ht) (by grind))) fun _ => .pure (by grind)

@[grind ←]
theorem unit_tame (ht : tag.isPersonal = false) : Tame c (unit tag) := .heap (.allocate ht)

end Node

/-! ## Threads -/

namespace Env

@[grind ←]
theorem frame_asks : Asks c (frame a) := .child (.inl rfl)

@[grind ←]
theorem structs_asks : Asks c (structs a) := .child (.inl rfl)

@[grind ←]
theorem setFrame_tame (hv : v ∈ .nil :: c) : Tame c (setFrame a v) :=
  .heap (.setChild (.inl rfl) hv)

@[grind ←]
theorem pushFrame_tame : Tame c (pushFrame a) := by
  unfold pushFrame
  grind

@[grind ←]
theorem popFrame_tame : Tame c (popFrame a) := by
  unfold popFrame
  grind

end Env

namespace Thread

@[grind ←]
theorem env_asks : Asks c (env a) := by
  intro K F O h r o hc run b hb
  obtain rfl : b = r := by simpa using hb
  obtain ⟨d, hd, ht, hi⟩ := o.sound.child_ok.1 (ofHeap_ok (q := (·.child a .thread 2)).1 run)
  have fits := o.fits hd (o.none_of_tag ⟨d, hd, ht⟩ rfl) hi
  simp only [Heap.Fits, ht] at fits
  exact ⟨Heap.index_lt_of_child hd (List.mem_of_getElem? hi), by simpa using fits⟩

@[grind ←]
theorem frame_asks : Asks c (frame a) := .bind env_asks fun _ => Env.frame_asks

@[grind ←]
theorem structs_asks : Asks c (structs a) := .bind env_asks fun _ => Env.structs_asks

end Thread

/-- The slots of a record hold nothing private, by its tag. -/
def Heap.IsOpen (h : Heap) (a : Address) : Prop := ∀ t, Query.tag a h = .ok t → t.isOpen

namespace Heap

variable {K : Set Address} {F : Facts} {O L : Multiset Address} {h : Heap} {i : Nat}

/-- The stacks of a thread, of which there may be none yet. -/
theorem Orderly.stack_tag {t : Tag} (o : Orderly K F O L h) (hi : i < 2)
    (run : Query.child a .thread i h = .ok b) (tagged : Query.tag b h = .ok t) :
    t = .nil ∨ t = .control ∨ t = .stash := by
  obtain ⟨d, hd, ht, hb⟩ := o.sound.child_ok.1 (ofHeap_ok.1 run)
  have fits := o.fits hd (o.none_of_tag ⟨d, hd, ht⟩ rfl) hb
  have of_tag : ∀ {t'}, b = .nil ∨ h.HasTag t' b → t = .nil ∨ t = t' := by
    intro t' k
    rcases o.sound.tag_ok.1 (ofHeap_ok.1 tagged) with ⟨-, rfl⟩ | k'
    · exact .inl rfl
    · rcases k with rfl | k
      · exact absurd rfl (o.sound.ne_nil (HasTag.isLive k'))
      · exact .inr (HasTag.unique k' k)
  rw [Fits, ht] at fits
  obtain rfl | rfl : i = 0 ∨ i = 1 := by omega
  · simp only [reduceCtorEq, if_false, true_and, if_true] at fits
    exact (of_tag fits).imp_right .inl
  · simp only [reduceCtorEq, if_false, true_and, if_true, one_ne_zero] at fits
    exact (of_tag fits).imp_right .inr

theorem Orderly.open_stack (o : Orderly K F O L h) (hi : i < 2)
    (run : Query.child a .thread i h = .ok b) : h.IsOpen b := fun t tagged => by
  rcases o.stack_tag hi run tagged with rfl | rfl | rfl <;> rfl

end Heap

/-- A reference does not change tags. -/
theorem reference_tag {h : Heap} (s : h.Sound) :
    Yields (liftM (HeapM.reference v) : Action Address) h
    fun _ h' => ∀ t, Query.tag a h' = .ok t → Query.tag a h = .ok t := by
  refine Yields.heap ?_
  unfold HeapM.reference
  split
  · exact .pure fun _ run => run
  · next hn =>
    refine Yields.ask fun count counted => ?_
    rcases s.refCount_ok.1 counted with ⟨rfl, -⟩ | ⟨d, hd, rfl⟩
    · exact absurd rfl hn
    refine (Yields.modify (Q := fun _ h' => ∀ t, Query.tag a h' = .ok t → Query.tag a h = .ok t)
      fun t run => ?_).bind fun _ _ same => .pure same
    have u := s.put_count hd (d.count + 1)
    refine ofHeap_ok.2 (s.tag_ok.2 ((u.sound.tag_ok.1 (ofHeap_ok.1 run)).imp_right fun k => ?_))
    exact (u.hasTag_iff hd rfl).1 k

namespace Stack

variable {K : Set Address} {F : Facts} {O : Multiset Address} {h : Heap}

theorem pushOwned_keeps (o : Orderly K F O 0 h) (hc : ∀ a ∈ c, h.Plain F a) (ha : h.IsOpen a)
    (hv : v ∈ .nil :: c) : Yields (pushOwned a v) h fun _ => Kept K F O h [] := by
  refine .read fun tag tagged => ?_
  have ht := ha tag tagged
  have internal : tag.isInternal = false := by cases tag <;> first | rfl | cases ht
  refine Tame.bind (c := c) (.query (.child (.inl ht))) (fun top => .bind ?_ fun node => ?_) o hc
  · exact Chain.createOwned_tame (by grind) (by grind)
  · exact .bind (.heap (.setChildOwned (.inl ht) (by grind))) fun _ => .after fun _ =>
      .heap (.setField (.inl internal))

theorem push_keeps (o : Orderly K F O 0 h) (hc : ∀ a ∈ c, h.Plain F a) (ha : h.IsOpen a)
    (hv : v ∈ .nil :: c) : Yields (push a v) h fun _ => Kept K F O h [] := by
  refine ((Tame.heap (.reference hv) o hc).and (reference_tag (a := a) o.sound)).bind
    fun _ h₁ ⟨k, same⟩ => ?_
  exact (pushOwned_keeps k.orderly (fun b hb => k.later.plain (hc b hb))
    (fun t run => ha t (same t run))
    hv).mono fun _ _ k' => k.trans k'

theorem pop_keeps (o : Orderly K F O 0 h) (ha : h.IsOpen a) :
    Yields (pop a) h fun v => Kept K F O h [v] := by
  refine .read fun tag tagged => ?_
  have ht := ha tag tagged
  have internal : tag.isInternal = false := by cases tag <;> first | rfl | cases ht
  refine Tame.bind (c := []) (.heap (.takeChild (.inl ht))) (fun top => ?_) o (by simp)
  split
  · exact .pure (by grind)
  · refine .bind (by grind) fun value => .bind (by grind) fun next => ?_
    refine .bind (.heap (.setChildOwned (.inl ht) (by grind))) fun _ => .bind (by grind) fun _ =>
      .after fun _ => ?_
    exact .bind (.heap (.setField (.inl internal))) fun _ => .pure (by grind)

end Stack

/-! ## The running thread -/

namespace TurnM

@[grind ←]
theorem env_tame : Tame c env := .ofThread fun _ => Thread.env_asks

@[grind ←]
theorem frame_tame : Tame c frame := .ofThread fun _ => Thread.frame_asks

@[grind ←]
theorem structs_tame : Tame c structs := .ofThread fun _ => Thread.structs_asks

/-- What is done to a stack of the running thread. -/
theorem onStack {i : Nat} {α : Type} [Mentions α] {f : Address → Action α} (hi : i < 2)
    (hf : ∀ {K F O h stack}, Orderly K F O 0 h → (∀ a ∈ c, h.Plain F a) → h.IsOpen stack →
      Yields (f stack) h fun r => Kept K F O h (addresses r)) :
    Tame c (do f (← ofThread (Query.child · .thread i)) : TurnM α) := by
  intro K F O s o hc
  refine .ofThread fun stack run => .lift ?_
  exact (hf o hc (o.open_stack hi run)).mono fun _ _ k => ⟨k.orderly, k.later, k.firm, rfl, k.plain⟩

@[grind ←]
theorem push_tame (hv : v ∈ .nil :: c) : Tame c (push v) :=
  onStack (by decide) fun o hc ha => Stack.push_keeps o hc ha hv

@[grind ←]
theorem pushOwned_tame (hv : v ∈ .nil :: c) : Tame c (pushOwned v) :=
  onStack (by decide) fun o hc ha => Stack.pushOwned_keeps o hc ha hv

@[grind ←]
theorem pushValue_tame (hv : v ∈ .nil :: c) : Tame c (pushValue v) :=
  onStack (by decide) fun o hc ha => Stack.push_keeps o hc ha hv

@[grind ←]
theorem pushValueOwned_tame (hv : v ∈ .nil :: c) : Tame c (pushValueOwned v) :=
  onStack (by decide) fun o hc ha => Stack.pushOwned_keeps o hc ha hv

@[grind ←]
theorem popValue_tame : Tame c popValue :=
  onStack (by decide) fun o _ ha => Stack.pop_keeps o ha

theorem popNode_tame : Tame c (do Stack.pop (← control) : TurnM Address) :=
  onStack (by decide) fun o _ ha => Stack.pop_keeps o ha

@[grind ←]
theorem pushInOrder_tame {nodes : List Address} (hn : nodes ⊆ .nil :: c) :
    Tame c (pushInOrder nodes) := by
  refine .bind (.forIn fun node h => ?_) fun _ => .pure (by grind)
  have := hn (List.mem_reverse.1 h)
  split
  · exact .bind (push_tame this) fun _ => .pure (by grind)
  · exact .pure (by grind)

@[grind ←]
theorem pushNew_tame {tag : Tag} {fields : List UInt64} {children : List Address} (ht : tag.isOpen)
    (ht' : tag.isPersonal = false) (hc : children ⊆ .nil :: c) :
    Tame c (pushNew tag fields children) := by
  unfold pushNew
  grind

@[grind ←]
theorem pushShared_tame {tag : Tag} {fields : List UInt64} {children : List Address}
    (ht : tag.isOpen)
    (ht' : tag.isPersonal = false) (hc : children ⊆ .nil :: c) :
    Tame c (pushShared tag fields children) := by
  unfold pushShared
  grind

theorem popOnto_tame {values : List Address} {n : Nat} (hv : values ⊆ .nil :: c) :
    Tame c (popOnto values n) := by
  induction n generalizing values c with
  | zero => exact .pure (by simpa using hv)
  | succ n ih => exact .bind popValue_tame fun value => ih (by grind)

@[grind ←]
theorem popValues_tame {n : Nat} : Tame c (popValues n) := popOnto_tame (List.nil_subset _)

@[grind ←]
theorem pushFrame_tame : Tame c pushFrame := by
  unfold pushFrame
  grind

@[grind ←]
theorem popFrame_tame : Tame c popFrame := by
  unfold popFrame
  grind

@[grind ←]
theorem setFrame_tame (hv : v ∈ .nil :: c) : Tame c (setFrame v) := by
  unfold setFrame
  grind

@[grind ←]
theorem emit_tame {text : String} : Tame c (emit text) := by
  intro K F O s o hc
  exact .ofThread fun id _ => .modify ⟨o, .refl, .refl, rfl, by simp⟩

end TurnM

end GoMachine
