import GoMachine.Proofs.Exchange.Moves
/-!
# What channels do

A successful operation on a channel does to the scene what the function of its name does, and tells
whether it could proceed. That a value reaches the first thread that waits to receive, and not one
that is in front of it in the buffer, needs that nobody waits to receive while there are values.

* `At.trySend`, `At.tryRecv`: without waiting.
* `At.send`, `At.recv`: the thread waits behind a new waker.
* `At.flush`, `At.close`: nobody waits on a channel that was closed.
-/
namespace GoMachine

variable {σ : Parties} {place : Part → Address} {I : Stage} {X Y : List Address}
  {O : Multiset Address} {n : Nat} {h : Heap} {ch i t v w : Address} {l : List Address}

namespace At

/-- An instance is dropped once its operation is completed. -/
theorem releasing {α : Type} {x : Action α} {J : Stage} (an : Anchored σ X Y O)
    (hx : Yields x h fun _ h' => At σ place J (i :: X) Y n (i ::ₘ O) h') :
    Yields (Action.releasing i x) h fun _ h' => At σ place J X Y n O h' :=
  hx.afterwards fun _ _ stands => stands.free (List.subset_cons_self i X) (List.Subset.refl Y) an

/-- Sending to the first thread that waits, or into the buffer. -/
theorem trySend (stands : At σ place I X Y (n + 8) O h) (hc : ch ∈ σ.channels)
    (empty : (I.view ch).receivers ≠ [] → (I.view ch).buffer = []) :
    Yields (Channel.trySend ch v σ.scheduler) h fun r h' => (I.view ch).closed = false ∧
      ∃ J, At σ place J X Y (n + 8) O h' ∧
      ((r = .done ∧ (I.view ch).CanSend ∧ J.scene = I.scene.send ch v) ∨
        (r = .wait (place (.senders ch)) ∧ ¬(I.view ch).CanSend ∧ J.scene = I.scene)) := by
  have room := stands.spare
  have an := stands.choose_spec.2.2
  have isOpen : Yields (Channel.trySend ch v σ.scheduler) h fun _ _ =>
    (I.view ch).closed = false := by
    refine .known (stands.isClosed hc) ?_
    cases e : I.closed ch != 0
    · exact fun _ _ _ => e
    · exact .guard fun h => absurd rfl h
  refine (isOpen.and ?_).mono fun _ _ h => h
  refine .known (stands.isClosed hc) (.guard fun _ => ?_)
  refine .known (stands.slots hc).1 (.known (stands.slots hc).2.2 ?_)
  have here : σ.Has (.receivers ch) := hc
  refine (stands.firstLive here (.receivers ch)).bind fun i h₁ found => ?_
  rcases found with ⟨nobody, idle, at₁⟩ | ⟨somebody, x, l, hx, first, at₁⟩
  · have same := Stage.scene_put (I := I) (.receivers ch) (l := []) idle.symm
    have idle : (I.view ch).receivers = [] := idle
    simp only [nobody, if_true]
    have size := (at₁.queued (p := .buffer ch) hc rfl).1
    rw [Stage.put_of_ne (by simp)] at size
    refine .known size (.known (at₁.cap hc) ?_)
    split
    · next full =>
      refine .known (at₁.slots hc).2.1 (.pure ⟨_, at₁, .inr ⟨rfl, ?_, same⟩⟩)
      exact fun can => can.elim (· idle) (Nat.not_lt.2 full)
    · next room =>
      refine (at₁.enqueue (p := .buffer ch) hc (fun _ => rfl) nofun).bind fun _ h₂ at₂ =>
        .pure ⟨_, at₂, .inl ?_⟩
      refine ⟨rfl, .inr (Nat.not_le.1 room), ?_⟩
      rw [Stage.scene_setBuffer, same, Stage.put_of_ne (by simp), Scene.send,
        show (I.scene.channel ch).receivers = [] from idle]
      rfl
  · have waits : (I.view ch).receivers = x :: I.live l := first
    have buffer : I.content (.buffer ch) = [] := empty (by simp [waits])
    have buffer₁ : (I.put (.receivers ch) l).content (.buffer ch) = [] := by
      rwa [Stage.put_of_ne (by simp)]
    simp only [somebody, Bool.false_eq_true, if_false]
    refine (at₁.enqueue (p := .buffer ch) hc (fun _ => rfl) nofun).bind fun _ h₂ at₂ => ?_
    refine (at₂.dequeue (p := .buffer ch) hc fun _ => rfl).bind fun v' h₃ ⟨e, at₃⟩ => ?_
    rw [Stage.put_self, buffer₁] at e at₃
    have e : v = v' := e.symm
    subst e
    rw [Stage.put_put, List.nil_append, List.tail_cons, Stage.put_eq_self buffer₁] at at₃
    obtain ⟨awake, ex⟩ := Stage.waiter?_eq_some.1 hx
    refine (releasing an (at₃.deliver_some at₁.choose_spec.2.2 (.inl (by simp)) awake)).bind
      fun _ h₄ at₄ => .pure ⟨_, at₄.tighten room, .inl ⟨rfl, .inl (by simp [waits]), ?_⟩⟩
    refine (Stage.scene_resume (I := (I.put (.receivers ch) l).pushStash _ v) (x := x) hx).trans ?_
    rw [Stage.scene_pushStash, Scene.push_wake, Stage.scene_put_wake (.receivers ch) first,
      Scene.send,
      show (I.scene.channel ch).receivers = x :: I.live l from waits, ← ex]
    rfl

/-- The value of a thread that waited to send comes to the buffer, and the thread goes on. -/
theorem handOver {x : Waiter}
    (stands : At σ place ((I.put (.senders ch) l).dropValue i) (i :: X) Y (n + 6)
      (x.value ::ₘ i ::ₘ O) h)
    (an : Anchored σ X Y O) (an₁ : Anchored σ (i :: X) Y (i ::ₘ O)) (hc : ch ∈ σ.channels)
    (hx : I.waiter? i = some x) (first : I.live (I.content (.senders ch)) = x :: I.live l) :
    Yields (Action.releasing i do
        Queue.enqueueOwned (place (.buffer ch)) x.value
        Waiting.deliver i none σ.scheduler) h fun _ h' =>
      ∃ J, At σ place J X Y (n + 6) O h' ∧
        J.content (.buffer ch) = I.content (.buffer ch) ++ [x.value] ∧
        ∀ l', (J.put (.buffer ch) l').scene = (I.scene.wake x).setBuffer ch l' := by
  have passed : ¬(Part.buffer ch).Waits := by rintro ⟨⟩
  obtain ⟨awake, -⟩ := Stage.waiter?_eq_some.1 hx
  refine (releasing an ((stands.enqueueOwned (p := .buffer ch) hc (fun _ => rfl) passed.elim
    (List.Subset.refl _) an₁).bind fun _ h₂ at₂ => at₂.deliver_none (.inl (by simp)) awake)).mono
    fun _ _ at₃ => ⟨_, at₃, ?_, fun l' => ?_⟩
  · rw [Stage.resume_setBuffer, Stage.put_self]
    exact congrArg (· ++ [x.value])
      (Stage.put_of_ne (l := l) (q := .buffer ch) (p := .senders ch) (by simp))
  · rw [Stage.resume_setBuffer, Stage.put_put, Stage.scene_setBuffer, Stage.scene_resume_dropValue,
      Stage.scene_resume (I := I.put (.senders ch) l) (x := x) hx,
      Stage.scene_put_wake (.senders ch) first]

/-- The first value in the buffer goes to the stash of a thread. -/
theorem unbuffer {vs : List Address} (stands : At σ place I X Y (n + 8) O h) (hc : ch ∈ σ.channels)
    (ht : t ∈ σ.threads) (content : I.content (.buffer ch) = v :: vs) :
    Yields (do
        Stack.pushOwned (place (.stash t)) (← Queue.dequeue (place (.buffer ch)))
        return .done : Action Attempt) h fun r h' => r = .done ∧ ∃ J,
      At σ place J X Y (n + 8) O h' ∧ J.scene = (I.put (.buffer ch) vs).scene.push t v := by
  have room := stands.spare
  have an := stands.choose_spec.2.2
  have kept : ¬(Part.stash t).Waits := by rintro ⟨⟩
  refine (stands.dequeue (p := .buffer ch) hc fun _ => rfl).bind fun v' h₁ found => ?_
  obtain ⟨e, at₁⟩ := found
  rw [content] at e at₁
  obtain rfl : v' = v := e
  refine (at₁.pushOwned (p := .stash t) ht (fun _ => rfl) kept an).bind fun _ h₂ at₂ => .pure ?_
  exact ⟨rfl, _, at₂.tighten room, Stage.scene_pushStash⟩

/-- Receiving what the first waiting thread sends, behind what is in the buffer. -/
theorem tryRecv (stands : At σ place I X Y (n + 8) O h) (hc : ch ∈ σ.channels) (ht : t ∈ σ.threads)
    {structs : Address} :
    Yields (Channel.tryRecv ch t structs σ.scheduler) h fun r h' =>
      ∃ J, At σ place J X Y (n + 8) O h' ∧
      ((r = .done ∧ (I.view ch).CanReceive ∧ ∃ zero, J.scene = I.scene.receive ch t zero) ∨
        (r = .wait (place (.receivers ch)) ∧ ¬(I.view ch).CanReceive ∧ J.scene = I.scene)) := by
  have room := stands.spare
  have an := stands.choose_spec.2.2
  have kept : ¬(Part.stash t).Waits := by rintro ⟨⟩
  refine .known (stands.slots hc).1 (.known (stands.slots hc).2.1 ?_)
  have here : σ.Has (.senders ch) := hc
  refine (stands.firstLive here (.senders ch)).bind fun i h₁ found => ?_
  extract_lets rest
  rcases found with ⟨nobody, idle, at₁⟩ | ⟨somebody, x, l, hx, first, at₁⟩
  · have same := Stage.scene_put (I := I) (.senders ch) (l := []) idle.symm
    have idle : (I.scene.channel ch).senders = [] := idle
    simp only [nobody, Bool.not_true, Bool.false_eq_true, if_false]
    refine .known (at₁.ownStacks ht).1 ?_
    have empty := (at₁.queued (p := .buffer ch) hc rfl).2.1
    rw [Stage.put_of_ne (by simp)] at empty
    refine .known empty ?_
    cases content : I.content (.buffer ch) with
    | cons v vs =>
      have content₁ : (I.put (.senders ch) []).content (.buffer ch) = v :: vs := by
        rwa [Stage.put_of_ne (by simp)]
      have buffer : (I.scene.channel ch).buffer = v :: vs := content
      simp only [List.isEmpty_cons, Bool.not_false, if_true]
      refine (at₁.unbuffer hc ht content₁).mono fun r h₂ found => ?_
      obtain ⟨done, J, at₂, scene⟩ := found
      have can : (I.view ch).buffer ≠ [] := by simp [Stage.view, content]
      refine ⟨J, at₂, .inl ⟨done, .inr (.inl can), .nil, ?_⟩⟩
      rw [scene, Stage.scene_setBuffer, same, Scene.receive, idle, buffer]
      rfl
    | nil =>
      have buffer : (I.scene.channel ch).buffer = [] := content
      simp only [List.isEmpty_nil, Bool.not_true, Bool.false_eq_true, if_false]
      refine .known (at₁.isClosed hc) ?_
      rw [Stage.closed_put]
      split
      · next closed =>
        refine .read fun elem _ => (at₁.adds zeroValue_adds).bind fun zero h₂ at₂ => ?_
        refine (at₂.pushOwned (p := .stash t) ht (fun _ => rfl) kept an).bind fun _ h₃ at₃ =>
          .pure ⟨_, at₃, .inl ⟨rfl, .inr (.inr closed), zero, ?_⟩⟩
        rw [← Stage.pushStash, Stage.scene_pushStash, same, Scene.receive, idle, buffer]
        rfl
      · next isOpen =>
        refine .known (at₁.slots hc).2.2 (.pure ⟨_, at₁, .inr ⟨rfl, ?_, same⟩⟩)
        exact fun can => can.elim (· idle) (·.elim (· content) isOpen)
  · have waits : (I.scene.channel ch).senders = x :: I.live l := first
    have can : (I.view ch).senders ≠ [] := waits ▸ List.cons_ne_nil x (I.live l)
    simp only [somebody, Bool.not_false, if_true]
    refine (at₁.takeValue (n := n + 6) (.inl (by simp))).bind fun v h₂ found => ?_
    obtain ⟨e, at₂⟩ := found
    have value : I.value i = x.value := by rw [← (Stage.waiter?_eq_some.1 hx).2]
    obtain rfl : v = x.value := e.trans value
    refine (at₂.handOver an at₁.choose_spec.2.2 hc hx first).bind fun _ h₃ found => ?_
    obtain ⟨J, at₃, buffer, scene⟩ := found
    have at₃ := at₃.tighten room
    refine .known (at₃.ownStacks ht).1 (.known (at₃.queued (p := .buffer ch) hc rfl).2.1 ?_)
    obtain ⟨v, vs, content⟩ : ∃ v vs, J.content (.buffer ch) = v :: vs :=
      List.exists_cons_of_ne_nil (by simp [buffer])
    rw [content]
    simp only [List.isEmpty_cons, Bool.not_false, if_true]
    refine (at₃.unbuffer hc ht content).mono fun r h₄ found => ?_
    obtain ⟨done, J', at₄, scene'⟩ := found
    refine ⟨J', at₄, .inl ⟨done, .inl can, .nil, ?_⟩⟩
    have filled : (I.scene.channel ch).buffer ++ [x.value] = v :: vs := buffer.symm.trans content
    rw [scene', scene, Scene.receive, waits]
    simp only [filled]
    rfl

/-- A new waker is not seen. -/
theorem scene_addWaker (stands : At σ place I X Y n O h) (fresh : ∀ j, σ.Tracks I X j →
    I.waker j ≠ w) :
    (I.addWaker w t).scene = I.scene ∧ I.scene.Unused w := by
  refine ⟨Stage.scene_addWaker fun p j hj hp => fresh j (stands.tracks hj hp), fun ch x hx => ?_⟩
  have waits : ∃ p : Part, p.Waits ∧ x ∈ I.live (I.content p) := (List.mem_append.1 hx).elim
    (fun h => ⟨_, .senders ch, h⟩) fun h => ⟨_, .receivers ch, h⟩
  obtain ⟨p, hp, hx⟩ := waits
  obtain ⟨j, hj, here⟩ := List.mem_filterMap.1 hx
  obtain ⟨-, rfl⟩ := Stage.waiter?_eq_some.1 here
  exact fresh j (stands.tracks hj hp)

/-- A thread is left to a queue. -/
theorem register {c : Case} (stands : At σ place I X Y (n + 8) O h) (ht : t ∈ σ.threads)
    (hc : c.channel ∈ σ.channels) (plain : c.body = .nil) :
    Yields (Channel.register (place c.part) t c.value) h fun _ h' => ∃ J w,
      At σ place J X Y (n + 8) O h' ∧ I.scene.Unused w ∧ J.scene = I.scene.register w t c := by
  have hp : σ.Has c.part := by
    cases c <;> exact hc
  have hq : ∀ l, c.part.shape l = .queue l := by
    cases c <;> exact fun _ => rfl
  have an := stands.choose_spec.2.2
  refine (stands.newWaker ht).bind fun w h₁ ⟨newWaker, at₁⟩ => ?_
  have made : Yields (Action.releasing w (Waiting.create w c.value .nil)) h₁ fun i h' =>
      (∀ j, σ.Tracks (I.addWaker w t) X j → j ≠ i) ∧
      At σ place ((I.addWaker w t).addInstance i w c.value .nil) (i :: X) Y (n + 8)
      (i ::ₘ O) h' := by
    refine (at₁.newInstance (by simp)).afterwards fun i h₂ ⟨newInstance, at₂⟩ => ?_
    rw [Multiset.cons_swap] at at₂
    refine (at₂.free (List.Subset.refl _) (List.subset_cons_self w Y) ?_).mono fun _ _ at₃ =>
      ⟨newInstance, at₃⟩
    have an := an.cons (a := i)
    exact ⟨an.1, an.2.1, an.2.2.1, List.forall_mem_cons.2 ⟨by simp, an.2.2.2.1⟩, an.2.2.2.2⟩
  refine made.bind fun i h₂ ⟨newInstance, at₂⟩ => ?_
  refine (at₂.enqueueOwned hp hq (fun _ => by simp) (List.subset_cons_self i X) an).mono
    fun _ _ at₃ => ?_
  have out : ∀ p : Part, p.Waits → i ∉ I.content p := fun p hp hi =>
    newInstance i (stands.tracks hi hp) rfl
  have thread : (I.addWaker w t).thread w = t := Function.update_self ..
  obtain ⟨same, unused⟩ := stands.scene_addWaker (t := t) newWaker
  refine ⟨_, w, at₃, unused, ?_⟩
  have seen := Stage.scene_register (I := I.addWaker w t) (c := c) (stands.channel_ne_nil hc) out
    (thread.symm ▸ stands.thread_ne_nil ht : ((I.addWaker w t).thread w).isNil = false)
  rwa [plain, thread, same] at seen

/-- A thread goes to the back of the run queue. -/
theorem schedule (stands : At σ place I X Y (n + 2) O h) :
    Yields (Scheduler.enqueue σ.scheduler t) h fun _ h' => ∃ J, At σ place J X Y (n + 2) O h' ∧
      J.scene = I.scene.enqueue t :=
  .known stands.runQueue ((stands.enqueue (p := .runnable) trivial (fun _ => rfl) nofun).mono
    fun _ _ at₁ => ⟨_, at₁, Stage.scene_enqueue⟩)

/-- Sending, where the thread waits if it has to. -/
theorem send (stands : At σ place I X Y (n + 8) O h) (hc : ch ∈ σ.channels) (ht : t ∈ σ.threads)
    (empty : (I.view ch).receivers ≠ [] → (I.view ch).buffer = []) :
    Yields (Channel.send ch v t σ.scheduler) h fun r h' => ∃ J, At σ place J X Y (n + 8) O h' ∧
      ((r = true ∧ (I.view ch).CanSend ∧ J.scene = (I.scene.send ch v).enqueue t) ∨
        (r = false ∧ ¬(I.view ch).CanSend ∧ ∃ w, I.scene.Unused w ∧
          J.scene = I.scene.register w t (.send ch v .nil))) := by
  unfold Channel.send
  rw [if_neg (by simp [stands.channel_ne_nil hc])]
  refine (stands.trySend hc empty).bind fun r h₁ ⟨_, J, at₁, came⟩ => ?_
  rcases came with ⟨rfl, can, seen⟩ | ⟨rfl, cannot, seen⟩
  · refine (at₁.schedule (t := t)).bind fun _ h₂ ⟨J', at₂, e⟩ =>
      .pure ⟨J', at₂, .inl ⟨rfl, can, ?_⟩⟩
    rw [e, seen]
  · refine (at₁.register (c := .send ch v .nil) ht hc rfl).bind fun _ h₂ ⟨J', w, at₂, unused, e⟩ =>
      ?_
    refine .pure ⟨J', at₂, .inr ⟨rfl, cannot, w, ?_, ?_⟩⟩
    · rwa [← seen]
    · rw [e, seen]

/-- Receiving, where the thread waits if it has to. -/
theorem recv (stands : At σ place I X Y (n + 8) O h) (hc : ch ∈ σ.channels) (ht : t ∈ σ.threads)
    {structs : Address} :
    Yields (Channel.recv ch t structs σ.scheduler) h fun r h' =>
    ∃ J, At σ place J X Y (n + 8) O h' ∧
      ((r = true ∧ (I.view ch).CanReceive ∧ ∃ zero,
      J.scene = (I.scene.receive ch t zero).enqueue t) ∨
        (r = false ∧ ¬(I.view ch).CanReceive ∧ ∃ w, I.scene.Unused w ∧
          J.scene = I.scene.register w t (.receive ch .nil))) := by
  unfold Channel.recv
  rw [if_neg (by simp [stands.channel_ne_nil hc])]
  refine (stands.tryRecv hc ht).bind fun r h₁ ⟨J, at₁, came⟩ => ?_
  rcases came with ⟨rfl, can, zero, seen⟩ | ⟨rfl, cannot, seen⟩
  · refine (at₁.schedule (t := t)).bind fun _ h₂ ⟨J', at₂, e⟩ =>
      .pure ⟨J', at₂, .inl ⟨rfl, can, zero, ?_⟩⟩
    rw [e, seen]
  · refine (at₁.register (c := .receive ch .nil) ht hc rfl).bind fun _ h₂ ⟨J', w, at₂, unused, e⟩ =>
      ?_
    refine .pure ⟨J', at₂, .inr ⟨rfl, cannot, w, ?_, ?_⟩⟩
    · rwa [← seen]
    · rw [e, seen]

/-- All threads that wait to receive get a zero value, if there are not more of them than rounds. -/
theorem flush (hc : ch ∈ σ.channels) {elem structs : Address} {m : Nat} :
    ∀ {I h}, At σ place I X Y (n + 8) O h → (I.view ch).receivers.length < m →
    Yields (Channel.flush (place (.receivers ch)) elem structs σ.scheduler m) h fun _ h' =>
    ∃ J zeros,
      At σ place J X Y (n + 8) O h' ∧ J.scene = I.scene.flush ch zeros ∧
      (J.view ch).receivers = [] := by
  induction m with
  | zero => exact fun _ lt => absurd lt (Nat.not_lt_zero _)
  | succ m ih =>
    intro I h stands lt
    have room := stands.spare
    have an := stands.choose_spec.2.2
    have here : σ.Has (.receivers ch) := hc
    refine (stands.firstLive here (.receivers ch)).bind fun i h₁ found => ?_
    rcases found with ⟨nobody, idle, at₁⟩ | ⟨somebody, x, l, hx, first, at₁⟩
    · simp only [nobody, if_true]
      refine .pure ⟨_, [], at₁, Stage.scene_put (I := I) (.receivers ch) idle.symm, ?_⟩
      simp [Stage.view, Stage.live]
    · simp only [somebody, Bool.false_eq_true, if_false]
      have waits : (I.view ch).receivers = x :: I.live l := first
      obtain ⟨awake, ex⟩ := Stage.waiter?_eq_some.1 hx
      have an₁ := at₁.choose_spec.2.2
      refine Yields.bind (Q := fun _ h₂ => ∃ J zero, At σ place J X Y (n + 8) O h₂ ∧
        J.scene = (I.scene.wake x).push x.thread zero) ?_ fun _ h₂ found => ?_
      · have given : Yields (do
            let zero ← zeroValue structs elem
            Waiting.deliver i (some zero) σ.scheduler : Action Unit) h₁ fun _ h' => ∃ zero,
            At σ place (((I.put (.receivers ch) l).pushStash (I.thread (I.waker i)) zero).resume i)
              (i :: X) Y (n + 5) (i ::ₘ O) h' :=
          (at₁.adds zeroValue_adds).bind fun zero h₂ at₂ =>
            (at₂.deliver_some (n := n + 4) an₁ (.inl (by simp)) awake).mono fun _ _ at₃ =>
            ⟨zero, at₃.weaken (by omega)⟩
        refine given.afterwards ?_
        rintro _ h₂ ⟨zero, at₂⟩
        refine (at₂.free (List.subset_cons_self i X) (List.Subset.refl Y) an).mono fun _ _ at₃ =>
          ⟨_, zero, at₃.tighten room, ?_⟩
        refine (Stage.scene_resume (I := (I.put (.receivers ch) l).pushStash _ zero)
          (x := x) hx).trans ?_
        rw [Stage.scene_pushStash, Scene.push_wake, Stage.scene_put_wake (.receivers ch) first,
          ← ex]
      · obtain ⟨J, zero, at₂, seen⟩ := found
        have fewer : (J.view ch).receivers.length < m := by
          have e : J.view ch = ((I.scene.wake x).push x.thread zero).channel ch := by
            rw [← seen]
            rfl
          have le : (J.view ch).receivers.length ≤ (I.live l).length := by
            rw [e]
            show (((I.view ch).receivers).filter (·.waker ≠ x.waker)).length ≤ _
            rw [waits, List.filter_cons_of_neg (by simp)]
            exact List.length_filter_le ..
          rw [waits, List.length_cons] at lt
          omega
        refine (ih at₂ fewer).mono ?_
        rintro _ _ ⟨J', zeros, at₃, seen', served⟩
        refine ⟨J', zero :: zeros, at₃, ?_, served⟩
        rw [seen', seen, Scene.flush, show (I.scene.channel ch).receivers =
          x :: I.live l from waits]

/-- Closing, which fails if a thread waits to send. -/
theorem close (stands : At σ place I X Y (n + 8) O h) (hc : ch ∈ σ.channels) {structs : Address} :
    Yields (Channel.close ch structs σ.scheduler) h fun _ h' => (I.view ch).closed = false ∧
      ∃ J zeros, At σ place J X Y (n + 8) O h' ∧ J.scene = I.scene.close ch zeros ∧
        (J.view ch).receivers = [] ∧ (J.view ch).senders = [] := by
  have isOpen : Yields (Channel.close ch structs σ.scheduler) h fun _ _ =>
    (I.view ch).closed = false := by
    refine .guard fun _ => .known (stands.isClosed hc) ?_
    cases e : I.closed ch != 0
    · exact fun _ _ _ => e
    · exact .guard fun h => absurd rfl h
  refine (isOpen.and (.guard fun _ => .known (stands.isClosed hc) (.guard fun _ => ?_))).mono
    fun _ _ h => h
  refine (stands.setClosed hc).heap.bind fun _ h₁ at₁ =>
    .known (at₁.slots hc).2.2 (.read fun elem _ => .get ?_)
  have few : ((I.close ch).view ch).receivers.length < h₁.liveCount + 1 := by
    obtain ⟨S, st, k, -⟩ := at₁
    exact Nat.lt_succ_of_le ((List.length_filterMap_le ..).trans
      (Queue.length_le st (k.content (.receivers ch) hc)))
  refine (flush hc at₁ few).bind fun _ h₂ ⟨J, zeros, at₂, seen, served⟩ =>
    .known (at₂.slots hc).2.1 ?_
  have here : σ.Has (.senders ch) := hc
  refine (at₂.firstLive here (.senders ch)).bind fun i h₃ found => ?_
  rcases found with ⟨nobody, none', at₃⟩ | ⟨somebody, x, l, hx, first, at₃⟩
  · simp only [nobody, Bool.not_true, Bool.false_eq_true, if_false]
    have same := Stage.scene_put (I := J) (.senders ch) (l := []) none'.symm
    refine .pure ⟨_, zeros, at₃, ?_, ?_, by simp [Stage.view, Stage.live]⟩
    · rw [same, seen, Stage.scene_close, Scene.close]
    · rw [show (J.put (.senders ch) []).view ch = J.view ch from congrFun
        (congrArg Scene.channel same) ch, served]
  · simp only [somebody, Bool.not_false, if_true]
    exact Yields.any.bind fun _ _ _ => .throw

end At
end GoMachine
