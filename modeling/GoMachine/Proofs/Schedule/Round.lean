import GoMachine.Lock
import GoMachine.Proofs.Schedule.Guards
import GoMachine.Proofs.Schedule.RunQueue
/-!
# The run queue during a turn

While a thread has its turn, other threads come to the back of the run queue: those that it wakes
and those that it starts. `R.Stands O us c h` says how things stand then. The threads that were
behind the running one are still in front, and the ones behind them were parked or are not among
those that the machine held before. `us` are threads in no queue and in no waker, and `c` are
addresses that are not private.

* `Round.Stands.tame`: what programs do keeps it so.
* `Round.Stands.enqueue`: the running thread goes to the back of the queue, once.
* `Waker.wake_stands`, `Waker.park_stands`: other threads come back, the running one waits.
-/
namespace GoMachine

open Heap (Orderly Later Joins Owns Guards Secure)

/-- What stays the same during a turn. -/
structure Round where
  /-- The threads that may wait: those that do and the running one. -/
  parked : Set Address
  /-- What the machine held at the beginning. -/
  base : Multiset Address
  scheduler : Address
  queue : Address
  /-- The running thread. -/
  thread : Address
  /-- The threads that were behind it in the queue. -/
  rest : List Address

namespace Round

/-- How things stand, with the facts about the records of the scheduler, the links of the queue and
the threads that have come. -/
structure Shows (R : Round) (O : Multiset Address) (us c : List Address) (h : Heap) (F : Facts)
    (links new : List Address) : Prop where
  orderly : Orderly R.parked F O 0 h
  queued : Queued F R.scheduler R.queue links (R.rest ++ new)
  joined : ∀ u ∈ new, u ∈ R.parked ∨ u ∉ R.base
  plain : ∀ a ∈ c, h.Plain F a
  idle : ∀ u ∈ us, u ∈ O ∧ h.HasTag .thread u ∧ h.edges.count u = 0
  /-- What the machine held it still holds, and only the scheduler is part of the queue. -/
  base : ∀ a ∈ R.base, a ∈ O ∧ (a = R.scheduler ∨ F a = none)

/-- How things stand in a turn. -/
def Stands (R : Round) (O : Multiset Address) (us c : List Address) (h : Heap) : Prop :=
  ∃ F links new, R.Shows O us c h F links new

variable {R : Round} {O P B C : Multiset Address} {G : Facts} {us vs c d : List Address}
    {h h' : Heap}
  {F : Facts} {links new : List Address} {n : Nat} {a b u v w : Address} {i : Nat} {t : Tag}

namespace Shows

/-- After something that leaves the scheduler alone. -/
theorem later (sh : R.Shows O us c h F links new) (o : Orderly R.parked F P 0 h') (l : Later h h')
    (owned : ∀ u, u ∈ us ∨ u ∈ R.base → u ∈ O → u ∈ P) (plain : ∀ a ∈ d, h'.Plain F a) :
    R.Shows P us d h' F links new := by
  refine ⟨o, sh.queued, sh.joined, plain, fun u hu => ?_, fun a ha =>
    (sh.base a ha).imp_left (owned a (.inr ha))⟩
  obtain ⟨ho, k, zero⟩ := sh.idle u hu
  have ho := owned u (.inl hu) ho
  have k' := o.still_thread l k ho (sh.orderly.sound.ne_nil k.isLive) (sh.orderly.none_of_tag k rfl)
  exact ⟨ho, k', l.idle zero k'⟩

theorem kept {α : Type} [Mentions α] {x : Action α} (sh : R.Shows O us c h F links new)
    (hx : Yields x h fun r => Kept R.parked F O h (addresses r)) :
    Yields x h fun r h' => R.Shows O us (addresses r ++ c) h' F links new := by
  refine hx.mono fun r h' k => sh.later k.orderly k.later (fun _ _ => id) fun a ha => ?_
  exact (List.mem_append.1 ha).elim (k.plain a) fun ha => k.later.plain (sh.plain a ha)

/-- A thread in no slot goes to the back of the queue. -/
theorem enqueue (sh : R.Shows O us c h F links new) (own : Owns 0 (n + 2) C h)
    (hv : h.HasTag .thread v) (zero : h.edges.count v = 0) (origin : v ∈ R.parked ∨ v ∉ R.base)
    (other : ∀ u ∈ vs, u ∈ us ∧ u ≠ v) (safe : ∀ a ∈ c, a = .nil ∨ h.isLive a) :
    Yields (Scheduler.enqueue R.scheduler v) h fun _ h' => ∃ J l,
      R.Shows O vs c h' J (links ++ [l]) (new ++ [v]) := by
  refine (Scheduler.enqueue_takes sh.orderly own sh.queued hv zero).mono
    fun _ h' ⟨J, l, o', qd, j, none_of⟩ =>
      ⟨J, l, o', ?_, ?_, fun a ha => ?_, fun u hu => ?_, fun a ha => ?_⟩
  · rwa [List.append_assoc] at qd
  · intro u hu
    rcases List.mem_append.1 hu with hu | hu
    · exact sh.joined u hu
    · exact List.mem_singleton.1 hu ▸ origin
  · have plain := sh.plain a ha
    refine ⟨plain.1, ?_⟩
    rintro (known | ⟨t, ht, k⟩)
    · exact known (none_of a (safe a ha) plain.none)
    · exact plain.not_hasTag ht (j.personal ht k)
  · obtain ⟨hu, ne⟩ := other u hu
    obtain ⟨ho, k, zero⟩ := sh.idle u hu
    have hn := sh.orderly.sound.ne_nil k.isLive
    have k' : h'.HasTag .thread u := by
      rcases (o'.owned ho).resolve_left hn with known | ⟨t, ht, k'⟩
      · exact absurd (none_of _ (.inr k.isLive) (sh.orderly.none_of_tag k rfl)) known
      · rwa [(j.personal ht k').unique k] at k'
    have := j.slots ne k'
    exact ⟨ho, k', by omega⟩
  · obtain ⟨ho, apart⟩ := sh.base a ha
    exact ⟨ho, apart.imp_right
      (none_of a ((sh.orderly.owned ho).imp_right sh.orderly.isLive_of_private))⟩

end Shows

namespace Stands

theorem mono (st : R.Stands O us c h) (sub : d ⊆ c) : R.Stands O us d h := by
  obtain ⟨F, links, new, sh⟩ := st
  exact ⟨F, links, new, { sh with plain := fun a ha => sh.plain a (sub ha) }⟩

/-- The running thread is left where it is. -/
theorem stop (st : R.Stands O us c h) : R.Stands O [] c h := by
  obtain ⟨F, links, new, sh⟩ := st
  exact ⟨F, links, new, { sh with idle := by simp }⟩

theorem nil (st : R.Stands O us c h) : R.Stands O us (.nil :: c) h := by
  obtain ⟨F, links, new, sh⟩ := st
  exact ⟨F, links, new,
    { sh with plain := List.forall_mem_cons.2 ⟨sh.orderly.plain_nil, sh.plain⟩ }⟩

theorem sound (st : R.Stands O us c h) : h.Sound := by
  obtain ⟨F, links, new, sh⟩ := st
  exact sh.orderly.sound

theorem kept {α : Type} [Mentions α] {x : Action α} (st : R.Stands O us c h)
    (hx : ∀ {F}, Orderly R.parked F O 0 h → (∀ a ∈ c, h.Plain F a) →
      Yields x h fun r => Kept R.parked F O h (addresses r)) :
    Yields x h fun r h' => R.Stands O us (addresses r ++ c) h' := by
  obtain ⟨F, links, new, sh⟩ := st
  exact (sh.kept (hx sh.orderly sh.plain)).mono fun r h' sh => ⟨F, links, new, sh⟩

/-- The slots of idle threads are left alone as well. -/
theorem kept_child {α : Type} [Mentions α] {x : Action α} (st : R.Stands O us c h)
    (hx : ∀ {F}, Orderly R.parked F O 0 h → (∀ a ∈ c, h.Plain F a) →
      Yields x h fun r => Kept R.parked F O h (addresses r))
    (hu : u ∈ us) (run : Query.child u .thread i h = .ok a) : Yields x h fun r h' =>
      R.Stands O us (addresses r ++ c) h' ∧ Query.child u .thread i h' = .ok a := by
  refine (st.kept hx).and ?_
  obtain ⟨F, links, new, sh⟩ := st
  exact (hx sh.orderly sh.plain).mono fun r h' k =>
    k.firm.child sh.orderly.sound k.orderly.sound (sh.idle u hu).1 run

/-- What programs do leaves the scheduler alone. -/
theorem tame {α : Type} [Mentions α] {x : Action α} (st : R.Stands O us c h) (hx : Tame c x) :
    Yields x h fun r h' => R.Stands O us (addresses r ++ c) h' :=
  st.kept fun o hc => hx o hc

theorem tame_child {α : Type} [Mentions α] {x : Action α} (st : R.Stands O us c h) (hx : Tame c x)
    (hu : u ∈ us) (run : Query.child u .thread i h = .ok a) : Yields x h fun r h' =>
      R.Stands O us (addresses r ++ c) h' ∧ Query.child u .thread i h' = .ok a :=
  st.kept_child (fun o hc => hx o hc) hu run

/-- What is asked mentions nothing private. -/
theorem asks {α : Type} [Mentions α] {q : Query α} {r : α} (st : R.Stands O us c h) (hq : Asks c q)
    (run : q h = .ok r) : R.Stands O us (addresses r ++ c) h := by
  obtain ⟨F, links, new, sh⟩ := st
  refine ⟨F, links, new, { sh with plain := fun a ha => ?_ }⟩
  exact (List.mem_append.1 ha).elim (hq sh.orderly sh.plain run a) (sh.plain a)

/-- What is not private is not the run queue. -/
theorem ne_queue (st : R.Stands O us (a :: c) h) : a ≠ R.queue := by
  obtain ⟨F, links, new, sh⟩ := st
  rintro rfl
  simpa [sh.queued.queue] using (sh.plain R.queue (List.mem_cons_self ..)).none

/-- There is one queue that is private. -/
theorem of_queue (st : R.Stands O us c h) (k : h.HasTag .queue a) (ne : a ≠ R.queue) :
    R.Stands O us (a :: c) h := by
  obtain ⟨F, links, new, sh⟩ := st
  refine ⟨F, links, new, { sh with plain := List.forall_mem_cons.2 ⟨⟨?_, ?_⟩, sh.plain⟩ }⟩
  · have := sh.orderly.sound.serves.lt_two_pow (Heap.isLive_iff.1 k.isLive)
    omega
  rintro (known | ⟨t, ht, k'⟩)
  · obtain ⟨B, hB⟩ := Option.ne_none_iff_exists'.1 known
    obtain ⟨e, he, rfl⟩ := sh.orderly.cell hB
    have tag := k.unique ⟨e, he, rfl⟩
    rcases sh.queued.only hB with rfl | rfl | hl
    · obtain ⟨id, hs⟩ := sh.queued.scheduler
      simp [hs, Cell.body, ← tag] at hB
    · exact ne rfl
    · obtain ⟨x, next, hl, -⟩ := sh.queued.linked.known hl
      simp [hl, Cell.body, ← tag] at hB
  · rw [← k.unique k'] at ht
    cases ht

/-- The running thread goes to the back of the queue. -/
theorem enqueue (st : R.Stands O [R.thread] c h) (own : Owns 0 (n + 2) C h)
    (mine : R.thread ∈ R.parked)
    (safe : ∀ a ∈ c, a = .nil ∨ h.isLive a) :
    Yields (Scheduler.enqueue R.scheduler R.thread) h fun _ h' => R.Stands O [] c h' := by
  obtain ⟨F, links, new, sh⟩ := st
  obtain ⟨-, k, zero⟩ := sh.idle R.thread (by simp)
  exact (sh.enqueue own k zero (.inl mine) (by simp) safe).mono
    fun _ _ ⟨J, l, sh⟩ => ⟨J, _, _, sh⟩

/-- A value goes onto a stack of a thread. -/
theorem pushOwned (st : R.Stands O us c h) (hi : i < 2) (run : Query.child b .thread i h = .ok a)
    (hv : v ∈ .nil :: c) : Yields (Stack.pushOwned a v) h fun _ h' => R.Stands O us c h' :=
  st.kept fun o hc => Stack.pushOwned_keeps o hc (o.open_stack hi run) hv

theorem pushOwned_child (st : R.Stands O us c h) (hu : b ∈ us) (hi : i < 2)
    (run : Query.child b .thread i h = .ok a) (hv : v ∈ .nil :: c) :
    Yields (Stack.pushOwned a v) h fun _ h' =>
      R.Stands O us c h' ∧ Query.child b .thread i h' = .ok a :=
  st.kept_child (fun o hc => Stack.pushOwned_keeps o hc (o.open_stack hi run) hv) hu run

theorem push (st : R.Stands O us c h) (hi : i < 2) (run : Query.child b .thread i h = .ok a)
    (hv : v ∈ .nil :: c) : Yields (Stack.push a v) h fun _ h' => R.Stands O us c h' :=
  st.kept fun o hc => Stack.push_keeps o hc (o.open_stack hi run) hv

/-- The tags of the stacks of a thread. -/
theorem stack_tag (st : R.Stands O us c h) (hi : i < 2) (run : Query.child a .thread i h = .ok b)
    (tagged : Query.tag b h = .ok t) : t = .nil ∨ t = .control ∨ t = .stash := by
  obtain ⟨F, links, new, sh⟩ := st
  exact sh.orderly.stack_tag hi run tagged

end Stands
end Round

variable {R : Round} {O P B C : Multiset Address} {G : Facts} {us c d : List Address}
  {h h' : Heap} {n : Nat} {a b u v w : Address}

/-- Only a queue gives values. -/
theorem Queue.dequeue_of_tag {Q : Address → Heap → Prop} (s : h.Sound)
    (hx : h.HasTag .queue a → Yields (Queue.dequeue a) h Q) : Yields (Queue.dequeue a) h Q := by
  intro v h' run
  obtain ⟨front, h₁, taken, -⟩ := bind_ok.1 run
  obtain ⟨slot, h₂, asked, -⟩ := bind_ok.1 (lift_heap_ok.1 taken)
  obtain ⟨e, hc, ht, -⟩ := s.childSlot_word (ask_ok.1 asked).1
  exact hx ⟨e, hc, ht⟩ v h' run

theorem Queue.dequeue_stands (st : R.Stands O us c h) (ne : a ≠ R.queue) :
    Yields (Queue.dequeue a) h fun v h' => R.Stands O us (v :: c) h' :=
  dequeue_of_tag st.sound fun k => ((st.of_queue k ne).tame (dequeue_tame (by simp))).mono
    fun _ _ st => st.mono (by simp)

namespace Waker

/-- A waker for the running thread, which waits then. -/
theorem create_stands (st : R.Stands O [R.thread] c h) (own : Owns 0 n C h)
    (mine : R.thread ∈ R.parked) :
    Yields (create R.thread) h fun w h' => R.Stands O [] (w :: c) h' := by
  refine ((st.tame (.heap (.allocate rfl))).and own.allocate.heap.yields).bind fun w h₁ ⟨st, own⟩ =>
    ?_
  obtain ⟨F, links, new, sh⟩ := st
  obtain ⟨-, k, zero⟩ := sh.idle R.thread (by simp)
  refine (sh.orderly.leaveThread own k zero mine).heap.bind fun _ h₂ ⟨o, j⟩ => .pure ?_
  exact ⟨F, links, new, o, sh.queued, sh.joined, fun a ha => j.plain (sh.plain a ha), by
    simp, sh.base⟩

theorem park_stands (st : R.Stands O [R.thread] c h) (own : Owns 0 n C h)
    (mine : R.thread ∈ R.parked)
    (ha : a ∈ c) : Yields (park R.thread a) h fun _ h' => R.Stands O [] c h' :=
  (create_stands st own mine).bind fun w h₁ st =>
    (st.tame (Queue.enqueueOwned_tame (by simp [ha]) (by simp))).mono fun _ _ st =>
    st.mono (by simp)

/-- The thread of a waker comes back. -/
theorem wake_stands (g : Guards G B (n + 3) P h) (st : R.Stands O us c h)
    (sec : ∀ a ∈ c, Secure G B a) :
    Yields (wake w R.scheduler) h fun _ h' => R.Stands O us c h' := by
  obtain ⟨F, links, new, sh⟩ := st
  refine (sh.orderly.takeThread.and (g.takeChild (g.other rfl))).heap.bind
    fun t h₁ ⟨⟨o₁, l₁, waiting⟩, g₁⟩ => ?_
  have plain : ∀ a ∈ c, h₁.Plain F a := fun a ha => l₁.plain (sh.plain a ha)
  split
  · next e =>
    rw [Address.isNil_iff.1 e] at o₁
    exact .pure ⟨F, links, new, sh.later (Orderly.cons_nil.1 o₁) l₁ (fun _ _ => id) plain⟩
  · next hn =>
    obtain ⟨k, zero, counted, hK⟩ := waiting fun e => hn (Address.isNil_iff.2 e)
    have ne : ∀ u ∈ us, u ≠ t := fun u hu e => counted (e ▸ (sh.idle u hu).2.2)
    have sh₁ : R.Shows (t ::ₘ O) us c h₁ F links new :=
      sh.later o₁ l₁ (fun _ _ => Multiset.mem_cons_of_mem) plain
    refine (Yields.afterwards (sh₁.enqueue g₁.owns k zero (.inl hK)
      (fun u hu => ⟨hu, ne u hu⟩) fun a ha => g₁.live (sec a ha)) fun _ h₂ ⟨J, l, sh₂⟩ => ?_).bind
      fun _ _ st => .pure st
    refine (sh₂.orderly.free (.inl (sh₂.queued.runnable (by simp)).2)).mono fun _ h₃ ⟨o₃, l₃⟩ => ?_
    refine ⟨J, _, _, sh₂.later o₃ l₃ (fun u hu ho => ?_) fun a ha => l₃.plain (sh₂.plain a ha)⟩
    rcases hu with hu | hu
    · exact (Multiset.mem_cons.1 ho).resolve_left (ne u hu)
    · exact (sh.base u hu).1

/-- The addresses that stay are owned. -/
theorem wake_owned (own : Owns 0 (n + 3) C h) (st : R.Stands O us c h)
    (sec : ∀ a ∈ c, a = .nil ∨ a ∈ C) :
    Yields (wake w R.scheduler) h fun _ h' => R.Stands O us c h' :=
  wake_stands (Guards.none_iff.2 own) st fun a ha => Heap.secure_none.2 (sec a ha)

theorem wakeAmong_stands (ne : a ≠ R.queue) (sec : ∀ a ∈ c, a = .nil ∨ a ∈ C) :
    ∀ {k : Nat} {h : Heap},
    Owns 0 (n + 4) C h → R.Stands O us c h →
    Yields (wakeAmong a R.scheduler k) h fun _ h' => R.Stands O us c h'
  | 0, _, _, st => .pure st
  | k + 1, h, own, st => by
    refine ((Queue.dequeue_stands st ne).and (Queue.dequeue_owns own).yields).bind
      fun w h₁ ⟨st, own₁⟩ => ?_
    split
    · exact .pure (st.mono (by simp))
    have sec' : ∀ a ∈ w :: c, a = .nil ∨ a ∈ w ::ₘ C :=
      List.forall_mem_cons.2 ⟨.inr (by simp), fun a ha =>
      (sec a ha).imp_right Multiset.mem_cons_of_mem⟩
    refine ((Yields.afterwards (R := fun _ h' => R.Stands O us c h') (wake_owned own₁ st sec')
      fun _ h₂ st r h' run => ?_).and
      (Pays.releasing (K := fun _ => C) (wake_owns own₁)).yields).bind fun woken h₃ ⟨st, own₃⟩ => ?_
    · exact (st.tame (.heap (.free (by simp))) r h' (lift_heap_ok.2 run)).mono
        (List.subset_append_of_subset_right _ (List.subset_cons_self w c))
    · split
      · exact .pure st
      · exact wakeAmong_stands ne sec (own₃.tighten own.spare) st

theorem wakeOne_stands (own : Owns 0 (n + 4) C h) (st : R.Stands O us c h) (ne : a ≠ R.queue)
    (sec : ∀ a ∈ c, a = .nil ∨ a ∈ C) :
    Yields (wakeOne a R.scheduler) h fun _ h' => R.Stands O us c h' :=
  .get (wakeAmong_stands ne sec own st)

theorem wakeUpTo_stands (ne : a ≠ R.queue) (sec : ∀ a ∈ c, a = .nil ∨ a ∈ C) :
    ∀ {k : Nat} {h : Heap},
    Owns 0 (n + 4) C h → R.Stands O us c h →
    Yields (wakeUpTo a R.scheduler k) h fun _ h' => R.Stands O us c h'
  | 0, _, _, st => .pure st
  | k + 1, h, own, st => by
    refine ((wakeOne_stands own st ne sec).and (wakeOne_owns own).yields).bind
      fun woken h₁ ⟨st, own⟩ => ?_
    split
    · exact (wakeUpTo_stands ne sec own st).bind fun _ _ st => .pure st
    · exact .pure st

theorem wakeAll_stands (own : Owns 0 (n + 4) C h) (st : R.Stands O us c h) (ne : a ≠ R.queue)
    (sec : ∀ a ∈ c, a = .nil ∨ a ∈ C) :
    Yields (wakeAll a R.scheduler) h fun _ h' => R.Stands O us c h' :=
  .get (wakeUpTo_stands ne sec own st)

end Waker

/-! ## Locks -/

namespace LockKind

variable {k : LockKind}

theorem waiters_asks (hk : k.tag.isOpen) : Asks c (k.waiters a) := .child (.inl hk)

theorem setCounter_tame {m : Int64} (hk : k.tag.isInternal = false) : Tame c (k.setCounter a m) :=
  .heap (.setField (.inl hk))

theorem park_stands (hk : k.tag.isOpen) (own : Owns 0 n C h) (st : R.Stands O [R.thread] c h)
    (mine : R.thread ∈ R.parked) :
    Yields (k.park a R.thread) h fun _ h' => R.Stands O [] c h' := by
  refine .read fun waiters run => ?_
  refine (Waker.park_stands (st.asks (waiters_asks hk) run) own mine (by simp)).bind fun _ _ st =>
    ?_
  exact .pure (st.mono (by simp))

theorem grant_stands (own : Owns 0 (n + 2) C h) (st : R.Stands O [R.thread] c h)
    (mine : R.thread ∈ R.parked)
    (sec : ∀ a ∈ c, a = .nil ∨ a ∈ C) :
    Yields (grant R.thread R.scheduler) h fun _ h' => R.Stands O [] c h' :=
  (st.enqueue own mine fun a ha => own.live (sec a ha)).bind fun _ _ st => .pure st

end LockKind

namespace Mutex

theorem lock_stands (own : Owns 0 (n + 2) C h) (st : R.Stands O [R.thread] c h)
    (mine : R.thread ∈ R.parked)
    (sec : ∀ a ∈ c, a = .nil ∨ a ∈ C) :
    Yields (lock a R.thread R.scheduler) h fun _ h' => R.Stands O [] c h' := by
  refine .read fun locked _ => ?_
  split
  · exact LockKind.park_stands rfl own st mine
  · refine ((st.tame (LockKind.setCounter_tame rfl)).and own.setField.heap.yields).bind
      fun _ h₁ ⟨st, own⟩ => ?_
    exact LockKind.grant_stands own st mine sec

theorem unlock_stands (own : Owns 0 (n + 4) C h) (st : R.Stands O us c h)
    (sec : ∀ a ∈ c, a = .nil ∨ a ∈ C) :
    Yields (unlock a R.scheduler) h fun _ h' => R.Stands O us c h' := by
  refine .read fun locked _ => .guard fun _ => .read fun waiters run => ?_
  have ne := (st.asks (LockKind.waiters_asks rfl) run).ne_queue
  refine (Waker.wakeOne_stands own st ne sec).bind fun woken h₁ st => ?_
  split
  · exact (st.tame (LockKind.setCounter_tame rfl)).mono fun _ _ st => st.mono (by simp)
  · exact .pure st

end Mutex

namespace WaitGroup

theorem add_stands {delta : Int64} (own : Owns 0 (n + 4) C h) (st : R.Stands O us c h)
    (sec : ∀ a ∈ c, a = .nil ∨ a ∈ C) :
    Yields (add a delta R.scheduler) h fun _ h' => R.Stands O us c h' := by
  refine .read fun count _ => .guard fun _ => ?_
  refine ((st.tame (LockKind.setCounter_tame rfl)).and own.setField.heap.yields).bind
    fun _ h₁ ⟨st, own⟩ => ?_
  split
  · refine .read fun waiters run => ?_
    have ne := (st.asks (LockKind.waiters_asks rfl) run).ne_queue
    exact (Waker.wakeAll_stands own (st.mono (by simp)) ne sec).bind fun _ _ st => .pure st
  · exact .pure (st.mono (by simp))

theorem wait_stands (own : Owns 0 (n + 2) C h) (st : R.Stands O [R.thread] c h)
    (mine : R.thread ∈ R.parked)
    (sec : ∀ a ∈ c, a = .nil ∨ a ∈ C) :
    Yields (wait a R.thread R.scheduler) h fun _ h' => R.Stands O [] c h' := by
  refine .read fun count _ => ?_
  split
  · exact LockKind.grant_stands own st mine sec
  · exact LockKind.park_stands rfl own st mine

end WaitGroup

end GoMachine
