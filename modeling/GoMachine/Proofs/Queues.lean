import GoMachine.Proofs.Gives
import GoMachine.Value.Chain
/-!
# How queues are run

A value is put at the back of a queue, and taken from its front, in several writes. Their order is
followed here and nowhere else: to prove something of them is to say what holds between the writes,
and why each write leads from there to what holds behind it.

* `Queue.closeBack`, `Queue.dropFront`: the last writes, which are the same for all queues.
* `Queue.enqueueOwned_ends`, `Queue.dequeue_ends`: what all the writes come to.
* `Queue.enqueueOwned_yields`, `Queue.dequeue_yields`: the same, where only runs that go well count.
-/
namespace GoMachine.Queue

variable {E : Fault → Heap → Prop} {h : Heap} {q v : Address}

/-- A link comes to be the last one of a queue, which has a value more. -/
def closeBack (q node : Address) : Action Unit := do
  HeapM.setChildOwned q .queue 1 node
  HeapM.setField q .queue 0 ((← Query.field q .queue 0) + 1)

/-- The queue goes on with the next link, the first one is dropped, and its value handed out. -/
def dropFront (q front next value : Address) : Action Address := do
  HeapM.setChildOwned q .queue 0 next
  HeapM.free front
  HeapM.setField q .queue 0 (Stack.decrement (← Query.field q .queue 0))
  return value

section

variable {Q : Unit → Heap → Prop} {M : Address → Address → Heap → Prop} {N : Address → Heap → Prop}

/-- A link is made for the value, the link comes behind the last one, or to the front of an empty
queue, and it is the last one then. -/
theorem enqueueOwned_ends
    (made : Ends E (Chain.createOwned v .nil) h fun node h₁ =>
      Ends E (liftM (Query.child q .queue 1)) h₁ fun back => M node back)
    (first : ∀ {node h₁}, M node .nil h₁ →
      Ends E (liftM (HeapM.setChild q .queue 0 node) : Action Unit) h₁ fun _ => N node)
    (behind : ∀ {node back h₁}, back ≠ .nil → M node back h₁ →
      Ends E (liftM (HeapM.setChild back .linkedList 1 node) : Action Unit) h₁ fun _ => N node)
    (closed : ∀ {node h₁}, N node h₁ → Ends E (closeBack q node) h₁ Q) :
    Ends E (enqueueOwned q v) h Q := by
  refine made.bind fun node h₁ read => ?_
  refine read.bind fun back h₂ found => ?_
  split
  · next e =>
    rw [Address.isNil_iff.1 e] at found
    exact (first found).bind fun _ h₃ there => closed there
  · next ne_nil =>
    rw [Address.isNil_iff] at ne_nil
    exact (behind ne_nil found).bind fun _ h₃ there => closed there

theorem enqueueOwned_yields
    (made : Yields (Chain.createOwned v .nil) h fun node h₁ =>
      ∀ back, Query.child q .queue 1 h₁ = .ok back → M node back h₁)
    (first : ∀ {node h₁}, M node .nil h₁ →
      Yields (HeapM.setChild q .queue 0 node) h₁ fun _ => N node)
    (behind : ∀ {node back h₁}, back ≠ .nil → M node back h₁ →
      Yields (HeapM.setChild back .linkedList 1 node) h₁ fun _ => N node)
    (closed : ∀ {node h₁}, N node h₁ → Yields (closeBack q node) h₁ Q) :
    Yields (enqueueOwned q v) h Q := by
  refine (enqueueOwned_ends (M := M) (N := N) ?_ (fun found => (first found).heap.ends)
    (fun ne_nil found => (behind ne_nil found).heap.ends) fun there => (closed there).ends).yields
  exact (made.mono fun node h₁ read => (Yields.query read).ends).ends

end

variable {Q : Address → Heap → Prop} {A : Address → Heap → Prop}
  {B C : Address → Address → Address → Heap → Prop}

/-- The first link is taken out of the queue, and its value and the next link out of it. Behind the
last link the queue has no other, and the link is dropped. -/
theorem dequeue_ends
    (taken : Ends E (liftM (HeapM.takeChild q .queue 0)) h A)
    (empty : ∀ {h₁}, A .nil h₁ → Q .nil h₁)
    (opened : ∀ {front h₁}, front ≠ .nil → A front h₁ →
      Ends E (liftM (HeapM.takeChild front .linkedList 0)) h₁ fun value h₂ =>
      Ends E (liftM (HeapM.takeChild front .linkedList 1)) h₂ fun next => B front value next)
    (last : ∀ {front value h₁}, B front value .nil h₁ →
      Ends E (liftM (HeapM.setChild q .queue 1 .nil) : Action Unit) h₁ fun _ => C front value .nil)
    (more : ∀ {front value next h₁}, next ≠ .nil → B front value next h₁ → C front value next h₁)
    (dropped : ∀ {front value next h₁}, C front value next h₁ →
      Ends E (dropFront q front next value) h₁ Q) :
    Ends E (dequeue q) h Q := by
  refine taken.bind fun front h₁ out => ?_
  split
  · next e => exact .pure (empty (Address.isNil_iff.1 e ▸ out))
  next ne_nil =>
  rw [Address.isNil_iff] at ne_nil
  refine (opened ne_nil out).bind fun value h₂ rest => ?_
  refine rest.bind fun next h₃ bare => ?_
  split
  · next e =>
    rw [Address.isNil_iff.1 e] at bare ⊢
    exact (last bare).bind fun _ h₄ there => dropped there
  · next other =>
    rw [Address.isNil_iff] at other
    exact dropped (more other bare)

theorem dequeue_yields
    (taken : Yields (HeapM.takeChild q .queue 0) h A)
    (empty : ∀ {h₁}, A .nil h₁ → Q .nil h₁)
    (opened : ∀ {front h₁}, front ≠ .nil → A front h₁ →
      Yields (HeapM.takeChild front .linkedList 0) h₁ fun value h₂ =>
      Yields (HeapM.takeChild front .linkedList 1) h₂ fun next => B front value next)
    (last : ∀ {front value h₁}, B front value .nil h₁ →
      Yields (HeapM.setChild q .queue 1 .nil) h₁ fun _ => C front value .nil)
    (more : ∀ {front value next h₁}, next ≠ .nil → B front value next h₁ → C front value next h₁)
    (dropped : ∀ {front value next h₁}, C front value next h₁ →
      Yields (dropFront q front next value) h₁ Q) :
    Yields (dequeue q) h Q := by
  refine (dequeue_ends (B := B) taken.heap.ends empty (fun ne_nil out => ?_)
    (fun bare => (last bare).heap.ends) more fun there => (dropped there).ends).yields
  exact ((opened ne_nil out).mono fun _ _ rest => rest.heap.ends).heap.ends

end GoMachine.Queue
