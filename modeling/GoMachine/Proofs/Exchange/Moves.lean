import GoMachine.Proofs.Exchange.Stage
import GoMachine.Proofs.Store.Aside
/-!
# Moves on a stage

What the operations on queues, stacks, wakers and waiting instances do to the stage that a heap
stores. `At σ place I X Y n O h` says that the heap `h` stores the stage `I` for a client that owns
`O`, with room for `n` more references, and holds the instances `X` and the wakers `Y`.

* `At.firstLive`: the first instance that is not stale comes out of a queue.
* `At.deliver`: the operation of an instance is completed.
* `At.newWaker`, `At.newInstance`: a thread is left to a queue.
-/
namespace GoMachine

open Heap (Stores Spare Owns kept)

/-- The heap stores a stage for a client. -/
def At (σ : Parties) (place : Part → Address) (I : Stage) (X Y : List Address) (n : Nat)
    (O : Multiset Address) (h : Heap) : Prop :=
  ∃ S, Stores 0 n O S h ∧ Staged σ place I X Y S ∧ Anchored σ X Y O

variable {σ : Parties} {place : Part → Address} {I : Stage} {X Y X' Y' : List Address} {S : Store}
  {O O' : Multiset Address} {n m : Nat} {h : Heap} {a b ch i t v w : Address} {l : List Address}
  {p : Part}

/-- A question with a known answer in front of other things. -/
theorem Yields.known {α β : Type} {q : Query α} {f : α → Action β} {R : β → Heap → Prop} {a : α}
    (e : q h = .ok a) (hf : Yields (f a) h R) : Yields (liftM q >>= f) h R := by
  refine .read fun a' e' => ?_
  rw [e] at e'
  cases e'
  exact hf

namespace Anchored

theorem cons (an : Anchored σ X Y O) : Anchored σ X Y (a ::ₘ O) :=
  have up {b : Address} (hb : b ∈ O) : b ∈ a ::ₘ O := Multiset.mem_cons_of_mem hb
  ⟨up an.1, fun c hc => up (an.2.1 c hc), fun c hc => up (an.2.2.1 c hc), fun c hc =>
  up (an.2.2.2.1 c hc),
    fun c hc => up (an.2.2.2.2 c hc)⟩

end Anchored

/-! ## Stores -/

namespace Heap.Stores

variable {fs : List UInt64} {cs : List Address} {tag : Tag} {x : Address}

/-- A new reference that was stored in an empty slot. -/
theorem setChild_blank (st : Stores 0 (n + 1) O S h) (ha : S a = some (.plain ⟨tag, fs, cs⟩))
    {k : Nat}
    (hx : cs[k]? = some .nil) :
    Yields (HeapM.setChild a tag k v) h fun _ h' => Stores 0 (n + 1) O
      (Function.update S a (some (.plain ⟨tag, fs, cs.set k v⟩))) h' := by
  have room := st.owns.spare
  refine Yields.bind (Q := fun _ h' => Stores 0 n (v ::ₘ O) S h') ?_ fun _ h₁ owned =>
    (owned.fillChild ha hx).yields.mono fun _ _ owned => owned.tighten room
  obtain ⟨N, F, lays, holds⟩ := st
  exact holds.referenced.mono fun _ _ ⟨_, holds⟩ => ⟨N, F, lays, holds⟩

/-- A reference that was taken. -/
theorem referenced (st : Stores 0 (n + 1) O S h) :
    Yields (HeapM.reference a) h fun _ h' => Stores 0 n (a ::ₘ O) S h' := by
  obtain ⟨N, F, lays, holds⟩ := st
  exact holds.referenced.mono fun _ _ ⟨_, holds⟩ => ⟨N, F, lays, holds⟩

end Heap.Stores

theorem Waker.create_stores (st : Stores 0 (n + 1) O S h) :
    Yields (Waker.create t) h fun w h' => S w = none ∧
      Stores 0 (n + 1) (w ::ₘ O) (Function.update S w (some (.plain ⟨.waker, [], [t]⟩))) h' := by
  refine st.allocate.yields.bind fun w h₁ ⟨fresh, st⟩ => ?_
  refine (st.setChild_blank (Function.update_self ..) rfl).heap.bind fun _ h₂ st =>
    .pure ⟨fresh, ?_⟩
  rwa [Function.update_idem] at st

theorem Waiting.create_stores (st : Stores 0 (n + 1) O S h) :
    Yields (Waiting.create w v b) h fun i h' => S i = none ∧ Stores 0 (n + 1) (i ::ₘ O)
      (Function.update S i (some (.plain ⟨.waitingInstance, [], [w, v, b]⟩))) h' := by
  refine st.allocate.yields.bind fun i h₁ ⟨fresh, st⟩ => ?_
  refine (st.setChild_blank (Function.update_self ..) rfl).heap.bind fun _ h₂ st => ?_
  refine (st.setChild_blank (Function.update_self ..) rfl).heap.bind fun _ h₃ st => ?_
  refine (st.setChild_blank (Function.update_self ..) rfl).heap.bind fun _ h₄ st =>
    .pure ⟨fresh, ?_⟩
  rwa [Function.update_idem, Function.update_idem, Function.update_idem] at st

namespace At

theorem spare (stands : At σ place I X Y n O h) : Spare n O := by
  obtain ⟨S, st, -⟩ := stands
  exact st.owns.spare

theorem tighten (stands : At σ place I X Y m O h) (sp : Spare n O) : At σ place I X Y n O h := by
  obtain ⟨S, st, k, an⟩ := stands
  exact ⟨S, st.tighten sp, k, an⟩

theorem weaken (stands : At σ place I X Y n O h) (le : m ≤ n) : At σ place I X Y m O h := by
  obtain ⟨S, st, k, an⟩ := stands
  exact ⟨S, st.weaken le, k, an⟩

theorem dropNil (stands : At σ place I X Y m (.nil ::ₘ O) h) (an : Anchored σ X Y O) :
    At σ place I X Y m O h := by
  obtain ⟨S, st, k, -⟩ := stands
  exact ⟨S, Stores.cons_nil.1 st, k, an⟩

/-- Every instance in a queue is tracked. -/
theorem tracks (stands : At σ place I X Y n O h) {j : Address} (hj : j ∈ I.content p)
    (hw : p.Waits) :
    σ.Tracks I X j := by
  obtain ⟨S, st, k, -⟩ := stands
  refine .inr ⟨p, hw, ?_, hj⟩
  by_contra outsider
  simp [k.blank p outsider] at hj

theorem thread_ne_nil (stands : At σ place I X Y n O h) (ht : t ∈ σ.threads) : t.isNil = false := by
  obtain ⟨S, st, k, -⟩ := stands
  obtain ⟨id, env, here⟩ := k.thread t ht
  exact Bool.eq_false_iff.2 fun e => st.ne_nil here (Address.isNil_iff.1 e)

theorem channel_ne_nil (stands : At σ place I X Y n O h) (hc : ch ∈ σ.channels) :
    ch.isNil = false := by
  obtain ⟨S, st, k, -⟩ := stands
  obtain ⟨elem, here⟩ := k.channel ch hc
  exact Bool.eq_false_iff.2 fun e => st.ne_nil here (Address.isNil_iff.1 e)

/-! ## Reading -/

section Reading

variable (stands : At σ place I X Y n O h)

include stands

theorem isClosed (hc : ch ∈ σ.channels) : Channel.isClosed ch h = .ok (I.closed ch != 0) := by
  obtain ⟨S, st, k, an⟩ := stands
  obtain ⟨elem, here⟩ := k.channel ch hc
  refine query_bind_ok.2 ⟨(), query_bind_ok.2 ⟨_, st.tag here, by rw [if_pos rfl]; rfl⟩, ?_⟩
  exact query_bind_ok.2 ⟨_, st.field here rfl, rfl⟩

theorem cap (hc : ch ∈ σ.channels) : Channel.cap ch h = .ok (I.cap ch).toNat := by
  obtain ⟨S, st, k, an⟩ := stands
  obtain ⟨elem, here⟩ := k.channel ch hc
  refine query_bind_ok.2 ⟨(), query_bind_ok.2 ⟨_, st.tag here, by rw [if_pos rfl]; rfl⟩, ?_⟩
  exact query_bind_ok.2 ⟨_, st.field here rfl, rfl⟩

theorem slots (hc : ch ∈ σ.channels) : Channel.buffer ch h = .ok (place (.buffer ch)) ∧
    Channel.senders ch h = .ok (place (.senders ch)) ∧
    Channel.receivers ch h = .ok (place (.receivers ch)) := by
  obtain ⟨S, st, k, an⟩ := stands
  obtain ⟨elem, here⟩ := k.channel ch hc
  have slot {j : Nat} {q : Address} (e : [place (.buffer ch), place (.senders ch),
      place (.receivers ch), elem][j]? = some q) : Channel.slot ch j h = .ok q :=
    query_bind_ok.2 ⟨(), query_bind_ok.2 ⟨_, st.tag here, by rw [if_pos rfl]; rfl⟩, st.child here e⟩
  exact ⟨slot (j := 0) rfl, slot (j := 1) rfl, slot (j := 2) rfl⟩

theorem ownStacks (ht : t ∈ σ.threads) : Thread.stash t h = .ok (place (.stash t)) ∧
    Thread.control t h = .ok (place (.control t)) := by
  obtain ⟨S, st, k, an⟩ := stands
  obtain ⟨id, env, here⟩ := k.thread t ht
  exact ⟨st.child here rfl, st.child here rfl⟩

theorem runQueue : Scheduler.runQueue σ.scheduler h = .ok (place .runnable) := by
  obtain ⟨S, st, k, an⟩ := stands
  obtain ⟨id, here⟩ := k.scheduler
  exact st.child here rfl

theorem instance_children (hi : σ.Tracks I X i) : Waiting.waker i h = .ok (I.waker i) ∧
    Query.child i .waitingInstance 1 h = .ok (I.value i) ∧ Waiting.body i h = .ok (I.body i) := by
  obtain ⟨S, st, k, an⟩ := stands
  have here := k.inst i hi
  exact ⟨st.child here rfl, st.child here rfl, st.child here rfl⟩

theorem waker_thread (hi : σ.Tracks I X i) : Waker.thread (I.waker i) h = .ok
    (I.thread (I.waker i)) := by
  obtain ⟨S, st, k, an⟩ := stands
  exact st.child (k.waker _ (.inr ⟨i, hi, rfl⟩)).1 rfl

/-- The thread of a tracked instance is one of the parties, or the instance is stale. -/
theorem thread_mem (hi : σ.Tracks I X i) :
    I.thread (I.waker i) = .nil ∨ I.thread (I.waker i) ∈ σ.threads := by
  obtain ⟨S, st, k, an⟩ := stands
  exact (k.waker _ (.inr ⟨i, hi, rfl⟩)).2

theorem queued (hp : σ.Has p) (hq : p.shape (I.content p) = .queue (I.content p)) :
    Queue.size (place p) h = .ok (I.content p).length ∧
    Queue.isEmpty (place p) h = .ok (I.content p).isEmpty ∧
    Queue.values (place p) h = .ok (I.content p) := by
  obtain ⟨S, st, k, an⟩ := stands
  have here := k.content p hp
  rw [hq] at here
  exact ⟨Queue.size_stores st here, Queue.isEmpty_stores st here, Queue.values_stores st here⟩

end Reading

/-! ## Containers -/

/-- A reference that the client does not need is dropped. -/
theorem free (stands : At σ place I X Y n (a ::ₘ O) h) (hX : X' ⊆ X) (hY : Y' ⊆ Y)
    (an : Anchored σ X' Y' O) : Yields (HeapM.free a) h fun _ h' => At σ place I X' Y' n O h' := by
  obtain ⟨S, st, k, -⟩ := stands
  exact st.free.yields.mono fun _ _ st => ⟨_, st, (k.drop hX hY).kept an, an⟩

theorem enqueueOwned (stands : At σ place I X Y (n + 1) (v ::ₘ O) h) (hp : σ.Has p)
    (hq : ∀ l, p.shape l = .queue l) (new : p.Waits → v ∈ X) (hX : X' ⊆ X)
    (an : Anchored σ X' Y O) :
    Yields (Queue.enqueueOwned (place p) v) h fun _ h' =>
      At σ place (I.put p (I.content p ++ [v])) X' Y (n + 1) O h' := by
  obtain ⟨S, st, k, -⟩ := stands
  have here := k.content p hp
  rw [hq] at here
  refine (Queue.enqueueOwned_stores st here).yields.mono fun _ h₂ st => ⟨_, st, ?_, an⟩
  rw [← hq]
  refine (k.put hp fun hw i hi => ?_).drop hX (List.Subset.refl Y)
  rcases List.mem_append.1 hi with hi | hi
  · exact .inr ⟨p, hw, hp, hi⟩
  · exact .inl (List.mem_singleton.1 hi ▸ new hw)

theorem enqueue (stands : At σ place I X Y (n + 2) O h) (hp : σ.Has p)
    (hq : ∀ l, p.shape l = .queue l)
    (nw : ¬p.Waits) : Yields (Queue.enqueue (place p) v) h fun _ h' =>
      At σ place (I.put p (I.content p ++ [v])) X Y (n + 2) O h' := by
  have room := stands.spare
  refine Yields.bind (Q := fun _ h₁ => At σ place I X Y (n + 1) (v ::ₘ O) h₁ ∧ Anchored σ X Y O) ?_
    fun _ h₁ ⟨owned, an⟩ => ?_
  · obtain ⟨S, st, k, an⟩ := stands
    exact st.referenced.heap.mono fun _ _ st => ⟨⟨S, st, k, an.cons⟩, an⟩
  · exact (owned.enqueueOwned hp hq (fun hw => absurd hw nw) (List.Subset.refl X) an).mono
      fun _ _ stands => stands.tighten room

theorem dequeue (stands : At σ place I X Y (n + 4) O h) (hp : σ.Has p)
    (hq : ∀ l, p.shape l = .queue l) :
    Yields (Queue.dequeue (place p)) h fun v h' => v = (I.content p).headD .nil ∧
      At σ place (I.put p (I.content p).tail) X Y (n + 3) (v ::ₘ O) h' := by
  obtain ⟨S, st, k, an⟩ := stands
  have here := k.content p hp
  rw [hq] at here
  refine (Queue.dequeue_stores st here).yields.mono fun v h₁ ⟨e, st⟩ => ⟨e, _, st, ?_, an.cons⟩
  rw [← hq]
  exact k.put hp fun hw i hi => .inr ⟨p, hw, hp, List.mem_of_mem_tail hi⟩

/-- The client holds the first instance of a queue then. -/
theorem dequeueInstance (stands : At σ place I X Y (n + 4) O h) (hp : σ.Has p) (hw : p.Waits)
    (e : I.content p = i :: l) : Yields (Queue.dequeue (place p)) h fun v h' => v = i ∧
      At σ place (I.put p l) (i :: X) Y (n + 3) (i ::ₘ O) h' := by
  obtain ⟨S, st, k, an⟩ := stands
  have hq : ∀ l, p.shape l = .queue l := by
    cases hw <;> exact fun _ => rfl
  have here := k.content p hp
  rw [hq, e] at here
  have tracked : ∀ j ∈ i :: l, σ.Tracks I X j := fun j hj => .inr ⟨p, hw, hp, e ▸ hj⟩
  refine (Queue.dequeue_stores st here).yields.mono fun v h₁ ⟨front, st⟩ => ?_
  have front : i = v := front.symm
  subst front
  refine ⟨rfl, _, st, ?_, ?_⟩
  · rw [← hq]
    exact (k.hold (tracked i (by simp))).put hp fun _ j hj => (tracked j (by simp [hj])).imp_left
      (List.mem_cons_of_mem i)
  · have an := an.cons (a := i)
    exact ⟨an.1, an.2.1, an.2.2.1, List.forall_mem_cons.2 ⟨by simp, an.2.2.2.1⟩, an.2.2.2.2⟩

theorem pushOwned {tag : Tag} (stands : At σ place I X Y (n + 1) (v ::ₘ O) h) (hp : σ.Has p)
    (hq : ∀ l, p.shape l = .stack tag l) (nw : ¬p.Waits) (an : Anchored σ X Y O) :
    Yields (Stack.pushOwned (place p) v) h fun _ h' =>
      At σ place (I.put p (v :: I.content p)) X Y (n + 1) O h' := by
  obtain ⟨S, st, k, -⟩ := stands
  have here := k.content p hp
  rw [hq] at here
  refine (Stack.pushOwned_stores st here).yields.mono fun _ h₂ st => ⟨_, st, ?_, an⟩
  rw [← hq]
  exact k.put hp fun hw => absurd hw nw

theorem push {tag : Tag} (stands : At σ place I X Y (n + 2) O h) (hp : σ.Has p)
    (hq : ∀ l, p.shape l = .stack tag l) (nw : ¬p.Waits) :
    Yields (Stack.push (place p) v) h fun _ h' =>
      At σ place (I.put p (v :: I.content p)) X Y (n + 2) O h' := by
  have room := stands.spare
  refine Yields.bind (Q := fun _ h₁ => At σ place I X Y (n + 1) (v ::ₘ O) h₁ ∧ Anchored σ X Y O) ?_
    fun _ h₁ ⟨owned, an⟩ => (owned.pushOwned hp hq nw an).mono fun _ _ stands => stands.tighten room
  obtain ⟨S, st, k, an⟩ := stands
  exact st.referenced.heap.mono fun _ _ st => ⟨⟨S, st, k, an.cons⟩, an⟩

theorem setClosed (stands : At σ place I X Y n O h) (hc : ch ∈ σ.channels) :
    Yields (HeapM.setField ch .channel 1 1) h fun _ h' => At σ place (I.close ch) X Y n O h' := by
  obtain ⟨S, st, k, an⟩ := stands
  obtain ⟨elem, here⟩ := k.channel ch hc
  exact (st.setField here (by simp)).yields.mono fun _ _ st => ⟨_, st, k.close hc here, an⟩

/-! ## Wakers and waiting instances -/

/-- Something new besides. -/
theorem adds {x : Action Address} (stands : At σ place I X Y (n + 1) O h) (hx : Adds 0 x) :
    Yields x h fun v h' => At σ place I X Y (n + 1) (v ::ₘ O) h' := by
  obtain ⟨S, st, k, an⟩ := stands
  exact (hx.stores st).mono fun _ _ ⟨_, st⟩ => ⟨S, st, k, an.cons⟩

theorem newWaker (stands : At σ place I X Y (n + 1) O h) (ht : t ∈ σ.threads) :
    Yields (Waker.create t) h fun w h' => (∀ i, σ.Tracks I X i → I.waker i ≠ w) ∧
      At σ place (I.addWaker w t) X (w :: Y) (n + 1) (w ::ₘ O) h' := by
  obtain ⟨S, st, k, an⟩ := stands
  refine (Waker.create_stores st).mono fun w _ ⟨fresh, st⟩ =>
    ⟨fun i hi e => ?_, _, st, k.newWaker fresh ht, ?_⟩
  · have := (k.waker _ (.inr ⟨i, hi, e⟩)).1
    simp [fresh] at this
  · have an := an.cons (a := w)
    exact ⟨an.1, an.2.1, an.2.2.1, an.2.2.2.1, List.forall_mem_cons.2 ⟨by simp, an.2.2.2.2⟩⟩

theorem newInstance (stands : At σ place I X Y (n + 1) O h) (hw : w ∈ Y) :
    Yields (Waiting.create w v b) h fun i h' => (∀ j, σ.Tracks I X j → j ≠ i) ∧
      At σ place (I.addInstance i w v b) (i :: X) Y (n + 1) (i ::ₘ O) h' := by
  obtain ⟨S, st, k, an⟩ := stands
  refine (Waiting.create_stores st).mono fun i _ ⟨fresh, st⟩ =>
    ⟨fun j hj e => ?_, _, st, k.newInstance fresh hw, ?_⟩
  · have := k.inst j hj
    simp [e, fresh] at this
  · have an := an.cons (a := i)
    exact ⟨an.1, an.2.1, an.2.2.1, List.forall_mem_cons.2 ⟨by simp, an.2.2.2.1⟩, an.2.2.2.2⟩

theorem takeValue (stands : At σ place I X Y (n + 1) O h) (hi : σ.Tracks I X i) :
    Yields (Waiting.takeValue i) h fun v h' => v = I.value i ∧
      At σ place (I.dropValue i) X Y n (v ::ₘ O) h' := by
  obtain ⟨S, st, k, an⟩ := stands
  have here := k.inst i hi
  refine (st.takeChild here rfl).heap.yields.mono fun v _ ⟨e, st⟩ => ?_
  subst e
  exact ⟨rfl, _, st, k.takeValue here, an.cons⟩

/-- A live waker gives its thread up, which goes to the back of the run queue. -/
theorem wake (stands : At σ place I X Y (n + 3) O h) (hi : σ.Tracks I X i)
    (hl : (I.thread (I.waker i)).isNil = false) :
    Yields (Waker.wake (I.waker i) σ.scheduler) h fun _ h' =>
    At σ place ((I.spend (I.waker i)).put .runnable
      (I.content .runnable ++ [I.thread (I.waker i)])) X Y (n + 3) O h' := by
  have room := stands.spare
  have an := stands.choose_spec.2.2
  refine Yields.bind (Q := fun t h₁ => t = I.thread (I.waker i) ∧
    At σ place (I.spend (I.waker i)) X Y (n + 2) (t ::ₘ O) h₁) ?_ fun t h₁ ⟨e, stands⟩ => ?_
  · obtain ⟨S, st, k, -⟩ := stands
    have here := (k.waker _ (.inr ⟨i, hi, rfl⟩)).1
    refine (st.takeChild here rfl).heap.yields.mono fun t _ ⟨e, st⟩ => ?_
    subst e
    exact ⟨rfl, _, st, k.spend here, an.cons⟩
  subst e
  rw [hl, if_neg (by simp)]
  have queued : Yields (Scheduler.enqueue σ.scheduler (I.thread (I.waker i))) h₁ fun _ h' =>
      At σ place ((I.spend (I.waker i)).put .runnable
      (I.content .runnable ++ [I.thread (I.waker i)]))
        X Y (n + 2) (I.thread (I.waker i) ::ₘ O) h' :=
    .known stands.runQueue (stands.enqueue (p := .runnable) trivial (fun _ => rfl) nofun)
  refine (queued.afterwards fun _ h₂ stands => ?_).bind fun _ _ stands => .pure stands
  exact (stands.free (List.Subset.refl X) (List.Subset.refl Y) an).mono fun _ _ stands =>
    stands.tighten room

/-- The first instance that is not stale is taken off a queue, with the stale ones before it. -/
theorem firstLive (stands : At σ place I X Y (n + 4) O h) (hp : σ.Has p) (hw : p.Waits) :
    Yields (Waiting.firstLive (place p)) h fun i h' =>
      (i.isNil = true ∧ I.live (I.content p) = [] ∧ At σ place (I.put p []) X Y (n + 4) O h') ∨
      (i.isNil = false ∧ ∃ x l, I.waiter? i = some x ∧ I.live (I.content p) = x :: I.live l ∧
        At σ place (I.put p l) (i :: X) Y (n + 3) (i ::ₘ O) h') := by
  have hq : ∀ l, p.shape l = .queue l := by
    cases hw <;> exact fun _ => rfl
  have go : ∀ k (I : Stage) h, At σ place I X Y (n + 4) O h → (I.content p).length < k →
      Yields (Waiting.firstAmong (place p) k) h fun i h' =>
      (i.isNil = true ∧ I.live (I.content p) = [] ∧ At σ place (I.put p []) X Y (n + 4) O h') ∨
      (i.isNil = false ∧ ∃ x l, I.waiter? i = some x ∧ I.live (I.content p) = x :: I.live l ∧
        At σ place (I.put p l) (i :: X) Y (n + 3) (i ::ₘ O) h') := by
    intro k
    induction k with
    | zero => exact fun I h _ lt => absurd lt (Nat.not_lt_zero _)
    | succ k ih =>
      intro I h stands lt
      have room := stands.spare
      have an := stands.choose_spec.2.2
      cases content : I.content p with
      | nil =>
        refine (stands.dequeue hp hq).bind fun i h₁ ⟨e, at₁⟩ => ?_
        rw [content] at e at₁
        subst e
        rw [if_pos (rfl : Address.isNil _ = true)]
        exact .pure (.inl ⟨rfl, rfl, (at₁.dropNil an).tighten room⟩)
      | cons j l =>
        have tracked : σ.Tracks I X j := .inr ⟨p, hw, hp, by simp [content]⟩
        have notNil : j.isNil = false := by
          obtain ⟨S, st, k, -⟩ := stands
          exact Bool.eq_false_iff.2 fun e => st.ne_nil (k.inst j tracked) (Address.isNil_iff.1 e)
        refine (stands.dequeueInstance hp hw content).bind fun i h₁ ⟨e, at₁⟩ => ?_
        subst e
        rw [notNil, if_neg (by simp)]
        have held : σ.Tracks (I.put p l) (i :: X) i := .inl (by simp)
        have stale : Waiting.isStale i h₁ = .ok (I.thread (I.waker i)).isNil :=
          query_bind_ok.2 ⟨_, (at₁.instance_children held).1,
            query_bind_ok.2 ⟨_, at₁.waker_thread held, rfl⟩⟩
        refine .known stale ?_
        cases gone : (I.thread (I.waker i)).isNil with
        | false =>
          have here := Stage.waiter?_eq_some.2 ⟨gone, rfl⟩
          exact .pure (.inr ⟨notNil, _, l, here, List.filterMap_cons_some here, at₁⟩)
        | true =>
          have unknown : I.waiter? i = none := if_pos gone
          refine (at₁.free (List.subset_cons_self i X) (List.Subset.refl Y) an).heap.bind
            fun _ h₂ at₂ => ?_
          have rest := ih (I.put p l) h₂ (at₂.tighten room) (by simpa [content] using lt)
          rw [show I.live (i :: l) = I.live l from List.filterMap_cons_none unknown]
          simpa only [Stage.put_self, Stage.put_put, Stage.live_put, Stage.waiter?_put] using rest
  refine .get (go _ I h stands ?_)
  obtain ⟨S, st, k, -⟩ := stands
  have here := k.content p hp
  rw [hq] at here
  exact Nat.lt_succ_of_le (Queue.length_le st here)

/-- The second half of a delivery: the thread of an instance goes on. -/
theorem resume (stands : At σ place I X Y (n + 3) O h) (hi : σ.Tracks I X i)
    (hl : (I.thread (I.waker i)).isNil = false) :
    Yields (do
      let body ← Waiting.body i
      if !body.isNil then
        Stack.push (← Thread.control (I.thread (I.waker i))) body
      let _ ← Waker.wake (I.waker i) σ.scheduler : Action Unit) h fun _ h' =>
      At σ place (I.resume i) X Y (n + 3) O h' := by
  have ht : I.thread (I.waker i) ∈ σ.threads := (stands.thread_mem hi).resolve_left fun e => by
    rw [e] at hl
    cases hl
  refine .known (stands.instance_children hi).2.2 ?_
  unfold Stage.resume
  by_cases hb : (I.body i).isNil = true
  · simp only [hb, Bool.not_true, Bool.false_eq_true, if_false, if_true]
    exact (stands.wake hi hl).bind fun _ _ stands => .pure stands
  · simp only [hb, Bool.not_false, if_true]
    refine .known (stands.ownStacks ht).2 ?_
    have room := stands.spare
    refine (stands.push (p := .control _) ht (fun _ => rfl) nofun).bind fun _ h₁ at₁ => ?_
    have hi₁ : σ.Tracks (I.put (.control (I.thread (I.waker i)))
        (I.body i :: I.content (.control (I.thread (I.waker i))))) X i := by
      refine hi.imp_right fun ⟨q, w, hq, mem⟩ => ⟨q, w, hq, ?_⟩
      rwa [Stage.put_of_ne]
      cases w <;> simp
    refine ((at₁.tighten room).wake hi₁ hl).bind fun _ _ at₂ => .pure ?_
    rwa [Stage.put_of_ne (q := .runnable) (by simp)] at at₂

/-- An operation without a value for the waiting thread is completed. -/
theorem deliver_none (stands : At σ place I X Y (n + 3) O h) (hi : σ.Tracks I X i)
    (hl : (I.thread (I.waker i)).isNil = false) :
    Yields (Waiting.deliver i none σ.scheduler) h fun _ h' =>
    At σ place (I.resume i) X Y (n + 3) O h' := by
  refine .known (stands.instance_children hi).1 (.known (stands.waker_thread hi) ?_)
  exact stands.resume hi hl

/-- An operation with a value for the waiting thread is completed. -/
theorem deliver_some (stands : At σ place I X Y (n + 3) (v ::ₘ O) h) (an : Anchored σ X Y O)
    (hi : σ.Tracks I X i) (hl : (I.thread (I.waker i)).isNil = false) :
    Yields (Waiting.deliver i (some v) σ.scheduler) h fun _ h' =>
      At σ place ((I.pushStash (I.thread (I.waker i)) v).resume i) X Y (n + 3) O h' := by
  have ht : I.thread (I.waker i) ∈ σ.threads := (stands.thread_mem hi).resolve_left fun e => by
    rw [e] at hl
    cases hl
  refine .known (stands.instance_children hi).1 (.known (stands.waker_thread hi) ?_)
  refine .known (stands.ownStacks ht).1 ?_
  refine (stands.pushOwned (p := .stash _) ht (fun _ => rfl) nofun an).bind fun _ h₁ at₁ => ?_
  have hi₁ : σ.Tracks (I.pushStash (I.thread (I.waker i)) v) X i := by
    refine hi.imp_right fun ⟨q, w, hq, mem⟩ => ⟨q, w, hq, ?_⟩
    rw [Stage.pushStash, Stage.put_of_ne]
    · exact mem
    · cases w <;> simp
  exact At.resume at₁ hi₁ hl

end At
end GoMachine
