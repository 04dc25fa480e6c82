import GoMachine.Machine.Turn
import GoMachine.Proofs.Owns.Nodes
import GoMachine.Proofs.Owns.Threads
/-!
# Ownership during a turn

What the helpers of a turn do to the references that it owns. The values that are taken off the
stash are as many as a word says, and so is the number of references to one record among them. What
bounds it is that they were in slots before (`Capped`).
-/
namespace GoMachine

open Heap (Owns Capped stacked laden maxSlots Within Covers)

variable {P F O : Multiset Address} [Within F O] {n : Nat} {s : Turn}

namespace Yields

variable {α β : Type} {R : β → Turn → Prop}

theorem lift {x : Action α} {Q : α → Turn → Prop}
    (hx : Yields x s.heap fun a heap => Q a { s with heap }) : Yields (liftM x : TurnM α) s Q := by
  intro a s' run
  simp only [liftM, monadLift, MonadLift.monadLift] at run
  split at run
  · next e =>
    cases run
    exact hx _ _ e
  · cases run

/-- What an action on the heap does is all that it does to the turn. -/
theorem turn {x : Action α} {Q : α → Heap → Prop} (hx : Yields x s.heap Q) :
    Yields (liftM x : TurnM α) s fun a s' => Q a s'.heap :=
  lift hx

/-- A question in front of other things. -/
theorem look {q : Query α} {f : α → TurnM β}
    (hf : ∀ a, q s.heap = .ok a → Yields (f a) s R) : Yields (liftM q >>= f) s R := by
  refine (lift (x := liftM q) (Q := fun a s' => q s.heap = .ok a ∧ s' = s)
    (query fun a e => ⟨e, rfl⟩)).bind fun a s' ⟨e, same⟩ => ?_
  subst same
  exact hf a e

/-- A question about the running thread in front of other things. -/
theorem ofThread {q : Address → Query α} {f : α → TurnM β}
    (hf : ∀ a, q s.thread s.heap = .ok a → Yields (f a) s R) :
    Yields (TurnM.ofThread q >>= f) s R := by
  refine (get (g := fun s => liftM (q s.thread)) (R := fun a s' => q s.thread s.heap = .ok a ∧
    s' = s)
    (lift (query fun a e => ⟨e, rfl⟩))).bind fun a s' ⟨e, same⟩ => ?_
  subst same
  exact hf a e

end Yields

namespace Pays

variable {α β : Type} {R : β → Turn → Prop} {C : Multiset Address → Heap → Prop} [Covers P C]

omit [Covers P C] [Within F O] in
theorem lift {x : Action α} {Q : α → Turn → Prop}
    (hx : Pays P F x s.heap fun a heap => Q a { s with heap }) :
    Pays P F (liftM x : TurnM α) s Q := by
  rcases hx with ⟨a, h, run, done⟩ | ⟨e, h, run, leaks⟩
  · exact .inl ⟨a, { s with heap := h }, by
      simp only [liftM, monadLift, MonadLift.monadLift, run], done⟩
  · exact .inr ⟨e, { s with heap := h }, by
      simp only [liftM, monadLift, MonadLift.monadLift, run], leaks⟩

omit [Covers P C] [Within F O] in
/-- What an action on the heap does is all that it does to the turn. -/
theorem turn {x : Action α} {Q : α → Heap → Prop} (hx : Pays P F x s.heap Q) :
    Pays P F (liftM x : TurnM α) s fun a s' => Q a s'.heap :=
  lift hx

omit [Covers P C] [Within F O] in
theorem onHeap {x : HeapM α} {Q : α → Heap → Prop} (hx : Pays P F x s.heap Q) :
    Pays P F (liftM x : TurnM α) s fun a s' => Q a s'.heap :=
  hx.heap.turn

/-- A question in front of other things. -/
theorem look {q : Query α} {f : α → TurnM β} (own : C O s.heap)
    (hf : ∀ a, q s.heap = .ok a → Pays P F (f a) s R) : Pays P F (liftM q >>= f) s R := by
  refine (lift (x := liftM q) (Q := fun a s' => q s.heap = .ok a ∧ s' = s)
    (query own fun a e => ⟨e, rfl⟩)).bind fun a s' ⟨e, same⟩ => ?_
  subst same
  exact hf a e

/-- A question about the running thread in front of other things. -/
theorem ofThread {q : Address → Query α} {f : α → TurnM β} (own : C O s.heap)
    (hf : ∀ a, q s.thread s.heap = .ok a → Pays P F (f a) s R) :
    Pays P F (TurnM.ofThread q >>= f) s R := by
  refine (get (g := fun s => liftM (q s.thread)) (R := fun a s' => q s.thread s.heap = .ok a ∧
    s' = s)
    (lift (query own fun a e => ⟨e, rfl⟩))).bind fun a s' ⟨e, same⟩ => ?_
  subst same
  exact hf a e

end Pays

namespace TurnM

omit [Within F O] in
theorem releasing_owns {α : Type} {l : List Address} {x : TurnM α} {K : α → Multiset Address}
    (hx : Pays P (laden l F) x s fun b s' => Owns P n (laden l (K b)) s'.heap) :
    Pays P F (releasing l x) s fun b s' => Owns P n (K b) s'.heap := by
  refine Pays.attempt hx (fun b s₁ own => ?_) fun e s₁ leaks => ?_
  · refine (Pays.forIn (I := fun rest (s' : Turn) => Owns P n (laden rest (K b)) s'.heap) own
      ?_).bind
      fun _ s₂ own => .conclude_ok own
    intro a rest s own
    have own : Owns P n (a ::ₘ laden rest (K b)) s.heap := own
    exact own.free.onHeap.bind fun _ _ own => .pure ⟨rfl, own⟩
  · exact (Pays.freeEach (f := id) (fun _ => rfl) (fun leaks => leaks.frees.onHeap)
      (by rwa [List.map_id])).bind
      fun _ _ leaks => .conclude_error leaks

/-! ## Control -/

theorem push_owns {node : Address} (own : Owns P (n + 2) O s.heap) :
    Pays P F (push node) s fun _ s' => Owns P (n + 2) O s'.heap :=
  .ofThread own fun _ _ => (Stack.push_owns own).turn

theorem pushOwned_owns {node : Address} (own : Owns P (n + 1) (node ::ₘ O) s.heap) :
    Pays P F (pushOwned node) s fun _ s' => Owns P (n + 1) O s'.heap :=
  .ofThread own fun _ _ => (Stack.pushOwned_owns own).turn

theorem pushInOrder_owns {nodes : List Address} (own : Owns P (n + 2) O s.heap) :
    Pays P F (pushInOrder nodes) s fun _ s' => Owns P (n + 2) O s'.heap := by
  refine (Pays.forIn (I := fun _ s' => Owns P (n + 2) O s'.heap) own ?_).bind
    fun _ _ own => .pure own
  intro node rest s own
  split
  · exact (push_owns own).bind fun _ _ own => .pure ⟨rfl, own⟩
  · exact .pure ⟨rfl, own⟩

theorem pushNew_owns {tag : Tag} {fields : List UInt64} {children : List Address}
    (own : Owns P (n + 1) (stacked O children) s.heap) :
    Pays P F (pushNew tag fields children) s fun _ s' => Owns P (n + 1) O s'.heap :=
  (Node.build_owns own).turn.bind fun _ _ own => pushOwned_owns own

theorem pushShared_owns {tag : Tag} {fields : List UInt64} {children : List Address}
    (own : Owns P (n + 1) O s.heap) :
    Pays P F (pushShared tag fields children) s fun _ s' => Owns P (n + 1) O s'.heap :=
  (Node.buildShared_owns own).turn.bind fun _ _ own => pushOwned_owns own

/-! ## Stash -/

theorem popValue_capped {m : Nat} (cp : Capped P m O s.heap) :
    Pays P F popValue s fun value s' => Capped P m (value ::ₘ O) s'.heap :=
  .ofThread cp fun _ _ => (Stack.pop_capped cp).turn

theorem pushValue_owns {value : Address} (own : Owns P (n + 2) O s.heap) :
    Pays P F (pushValue value) s fun _ s' => Owns P (n + 2) O s'.heap :=
  .ofThread own fun _ _ => (Stack.push_owns own).turn

theorem pushValueOwned_owns {value : Address} (own : Owns P (n + 1) (value ::ₘ O) s.heap) :
    Pays P F (pushValueOwned value) s fun _ s' => Owns P (n + 1) O s'.heap :=
  .ofThread own fun _ _ => (Stack.pushOwned_owns own).turn

theorem popValue_owns (own : Owns P (n + 3) O s.heap) :
    Pays P F popValue s fun value s' => Owns P (n + 2) (value ::ₘ O) s'.heap :=
  .ofThread own fun _ _ => (Stack.pop_owns own).turn

theorem popOnto_capped {m : Nat} : ∀ {k : Nat} {l : List Address} {s : Turn},
    Capped P m (stacked O l) s.heap →
    Pays P F (popOnto l k) s fun values s' => Capped P m (stacked O values) s'.heap
  | 0, _, _, cp => .pure cp
  | k + 1, l, s, cp => by
    refine (popValue_capped cp).bind fun value s₁ cp => popOnto_capped ?_
    rw [Heap.stacked_eq] at cp ⊢
    rwa [← Multiset.cons_coe, Multiset.cons_add]

/-- However many values are taken off the stash, they were in slots before. -/
theorem popValues_owns {k : Nat} (own : Owns P (n + maxSlots) O s.heap) :
    Pays P F (popValues k) s fun values s' => Owns P n (stacked O values) s'.heap :=
  (popOnto_capped (l := []) own.capped).mono fun _ _ cp =>
    cp.owns ((Nat.le_add_right n _).trans_lt own.spare.lt)

/-! ## Scopes and scheduling -/

theorem enqueueCurrent_owns (own : Owns P (n + 2) O s.heap) :
    Pays P F enqueueCurrent s fun _ s' => Owns P (n + 2) O s'.heap :=
  .get (.get (Scheduler.enqueue_owns own).turn)

theorem pushFrame_owns (own : Owns P (n + 1) O s.heap) :
    Pays P F pushFrame s fun _ s' => Owns P (n + 1) O s'.heap :=
  .ofThread own fun _ _ => (Env.pushFrame_owns own).turn

theorem popFrame_owns (own : Owns P (n + 1) O s.heap) :
    Pays P F popFrame s fun _ s' => Owns P (n + 1) O s'.heap :=
  .ofThread own fun _ _ => (Env.popFrame_owns own).turn

theorem setFrame_owns {frame : Address} (own : Owns P (n + 1) O s.heap) :
    Pays P F (setFrame frame) s fun _ s' => Owns P (n + 1) O s'.heap :=
  .ofThread own fun _ _ => (Env.setFrame_owns own).turn

theorem emit_owns {text : String} (own : Owns P n O s.heap) :
    Pays P F (emit text) s fun _ s' => Owns P n O s'.heap :=
  .ofThread own fun _ _ => .modify own

end TurnM
end GoMachine
