import GoMachine.Proofs.Counts
import GoMachine.Proofs.Schedule.Collect
import GoMachine.Proofs.Schedule.Lowering
import GoMachine.Proofs.Schedule.Turns
/-!
# Scheduling

No thread is runnable twice, nor runnable while it waits, nor does it wait in two places. The run
queue is served in order: a step takes the thread in front, and those that come to the back on the
way are the same thread again, threads that waited, and threads that were made in the step.

* `Machine.Ordered.step`: what a step does to the run queue.
* `Machine.schedules_once`: what holds of every machine that programs bring about.
-/
namespace GoMachine

open Heap (Orderly Later Exact Owns Joins laden maxSlots)

/-! ## Where threads are -/

namespace Heap

variable {K : Set Address} {F : Facts} {C O L : Multiset Address} {h : Heap} {a s q u w : Address}
  {links ts : List Address}

/-- No more records hold an address than there are slots with it. -/
theorem length_le_count_edges {l : List Address} (nodup : l.Nodup) (hl : ∀ a ∈ l, h.Points a u) :
    l.length ≤ h.edges.count u := by
  have sub : l.toFinset ⊆ h.records := fun a ha => by
    obtain ⟨c, hc, -⟩ := hl a (List.mem_toFinset.1 ha)
    exact mem_records.2 (cell?_eq_some.1 hc).1
  have one : ∀ a ∈ l.toFinset, 1 ≤ (h.cellAt a).children.count u := fun a ha => by
    obtain ⟨c, hc, hu⟩ := hl a (List.mem_toFinset.1 ha)
    obtain ⟨-, rfl⟩ := cell?_eq_some.1 hc
    exact List.count_pos_iff.2 hu
  calc l.length
    _ = ∑ _a ∈ l.toFinset, 1 := by
      rw [← Finset.card_eq_sum_ones, List.toFinset_card_of_nodup nodup]
    _ ≤ ∑ a ∈ l.toFinset, (h.cellAt a).children.count u := Finset.sum_le_sum one
    _ ≤ ∑ a ∈ h.records, (h.cellAt a).children.count u := Finset.sum_le_sum_of_subset sub
    _ = h.edges.count u := by simp [edges, Multiset.count_sum']

/-- The links that hold a thread. -/
theorem Linked.holders (k : Linked F links ts) (u : Address) : ∃ l : List Address,
    l.Sublist links ∧ l.length = ts.count u ∧ ∀ a ∈ l, ∃ next,
    F a = some ⟨.linkedList, [], [u, next]⟩ := by
  induction links generalizing ts with
  | nil =>
    cases ts with
    | nil => exact ⟨[], .slnil, rfl, by simp⟩
    | cons => exact k.elim
  | cons l links ih =>
    cases ts with
    | nil => exact k.elim
    | cons t ts =>
      obtain ⟨ls, sub, len, held⟩ := ih k.2
      by_cases ht : t = u
      · subst ht
        exact ⟨l :: ls, sub.cons_cons l, by simp [len], List.forall_mem_cons.2 ⟨⟨_, k.1⟩, held⟩⟩
      · exact ⟨ls, sub.cons l, by rw [List.count_cons_of_ne ht, len], held⟩

/-- The threads that stand in wakers. -/
def Waits (h : Heap) : Set Address :=
    {u | ∃ w c, h.cell? w = some c ∧ c.tag = .waker ∧ c.children[0]? = some u}

namespace Orderly

/-- Threads wait in wakers only. -/
theorem narrow (o : Orderly K F O L h) : Orderly h.Waits F O L h := by
  refine ⟨o.sound, o.body, o.internal, o.held, o.owned, o.count, fun {a c i b} hc hn hb => ?_,
    o.inner, o.once⟩
  have f := o.fits hc hn hb
  unfold Fits at f ⊢
  split_ifs at f ⊢ with ht
  · exact f.imp_right fun ⟨k, _, hi⟩ => ⟨k, ⟨a, c, hc, ht, hi ▸ hb⟩, hi⟩
  all_goals exact f

/-- A thread is held by the machine, it is in the run queue, or it waits. -/
theorem thread_cases (o : Orderly K F O 0 h) (exact : Exact 0 C h) (qd : Queued F s q links ts)
    (k : h.HasTag .thread u) : u ∈ O ∨ u ∈ ts ∨ u ∈ h.Waits := by
  obtain ⟨c, hc, ht⟩ := k
  have k : h.HasTag .thread u := ⟨c, hc, ht⟩
  have unknown := o.none_of_tag k rfl
  have counted := o.count (.inr (k.personal rfl)) hc
  have pinned := exact.pins hc
  have : u ∈ 0 + O + h.edges := Multiset.count_pos.1 (Nat.pos_of_ne_zero fun h0 =>
    exact.idle hc (UInt64.toNat_inj.1 (counted.trans h0)) (UInt16.toNat_inj.1 pinned))
  rw [zero_add, Multiset.mem_add] at this
  refine this.imp_right fun held => ?_
  obtain ⟨a, d, hd, hu⟩ := mem_edges.1 held
  obtain ⟨i, hi⟩ := List.getElem?_of_mem hu
  have open_slot : ¬h.Private F u → False := fun hp => hp (.inr (k.personal rfl))
  cases hF : F a with
  | none =>
    have f := o.narrow.fits hd hF hi
    unfold Fits at f
    split_ifs at f
    · rcases f with rfl | ⟨-, hw, -⟩
      · exact absurd rfl (o.sound.ne_nil k.isLive)
      · exact .inr hw
    · rcases f with rfl | k'
      · exact absurd rfl (o.sound.ne_nil k.isLive)
      · exact nomatch k'.unique k
    · rcases f with rfl | k'
      · exact absurd rfl (o.sound.ne_nil k.isLive)
      · exact nomatch k'.unique k
    · exact (open_slot f).elim
  | some B =>
    obtain ⟨d', hd', rfl⟩ := o.cell hF
    obtain rfl : d = d' := by simpa [hd] using hd'
    have apart : ∀ b, b ∈ links ∨ b = .nil ∨ F b ≠ none → u ≠ b := by
      rintro b hb rfl
      rcases hb with hb | rfl | hb
      · exact qd.link_some hb unknown
      · exact o.sound.ne_nil k.isLive rfl
      · exact hb unknown
    rcases qd.only hF with rfl | rfl | hl
    · obtain ⟨id, hs⟩ := qd.scheduler
      rw [hs, Option.some_inj] at hF
      have hu : u ∈ d.body.children := hu
      rw [← hF] at hu
      exact absurd (by simpa using hu) (apart q (by simp [qd.queue]))
    · have hF := qd.queue.symm.trans hF
      rw [Option.some_inj] at hF
      have hu : u ∈ d.body.children := hu
      rw [← hF] at hu
      have first : links.headD .nil ∈ links ∨ links.headD .nil = .nil := by cases links <;> simp
      have last : links.getLastD .nil ∈ links ∨ links.getLastD .nil = .nil := by
        rcases List.eq_nil_or_concat links with rfl | ⟨us, b, rfl⟩
        · exact .inr rfl
        · rw [List.concat_eq_append, List.getLastD_concat]
          simp
      rcases List.mem_pair.1 hu with e | e
      · exact absurd e (apart _ (first.imp_right .inl))
      · exact absurd e (apart _ (last.imp_right .inl))
    · rcases qd.linked.slots hl hF hu with hu | rfl | hu
      · exact .inl hu
      · exact absurd rfl (o.sound.ne_nil k.isLive)
      · exact absurd rfl (apart u (.inl hu))

/-- What the client owns more often than the machine holds it is not private. -/
theorem plain_of_owned (o : Orderly K F O 0 h) (exact : Exact 0 C h)
    (more : O.count a < C.count a) :
    h.Plain F a := by
  have owned : a ∈ C := Multiset.count_pos.1 (by omega)
  rcases exact.closed (a := a) (by simp [owned]) with rfl | hl
  · exact o.plain_nil
  refine ⟨?_, fun hp => ?_⟩
  · have := o.sound.serves.lt_two_pow (isLive_iff.1 hl)
    omega
  · have hc := cell?_eq_some.2 ⟨hl, rfl⟩
    have counted := o.count hp hc
    rw [exact.count hc, Multiset.count_add, zero_add, Multiset.count_add] at counted
    omega

end Orderly
end Heap

namespace Machine

variable {m m₀ m' : Machine} {K : Set Address} {F : Facts} {O : Multiset Address}
  {q t u w : Address} {links ts : List Address} {n : Nat}

section Lifted

variable {α : Type}

theorem liftHeap {x : HeapM α} {Q : α → Machine → Prop}
    (hx : Yields x m.heap fun a heap => Q a { m with heap }) : Yields (liftM x : MachineM α) m Q :=
  lift hx.heap

/-- What an action does is done to the heap of a machine. -/
theorem acts {x : Action α} {Q : α → Heap → Prop} (hx : Yields x m.heap Q) :
    Yields (liftM x : MachineM α) m fun a m' => Q a m'.heap :=
  lift hx

theorem onHeap {x : HeapM α} {Q : α → Heap → Prop} (hx : Yields x m.heap Q) :
    Yields (liftM x : MachineM α) m fun a m' => Q a m'.heap :=
  liftHeap hx

end Lifted

/-- The runnable threads, the next one first. -/
def runnable (m : Machine) : Except Fault (List Address) := Scheduler.threads m.scheduler m.heap

/-- The wakers in which a thread waits. -/
def wakers (m : Machine) (u : Address) : List Address :=
  m.heap.liveObjects.filter fun w => (Waker.thread w m.heap).toOption = some u

/-- What the scheduler of a machine and its threads look like. -/
structure Ordered (m : Machine) (K : Set Address) (F : Facts) (q : Address)
    (links ts : List Address) :
    Prop where
  orderly : Orderly K F {m.scheduler, m.mainThread} 0 m.heap
  queued : Queued F m.scheduler q links ts
  main : F m.mainThread = none

theorem mem_wakers (s : m.heap.Sound) : w ∈ m.wakers u ↔
    ∃ c, m.heap.cell? w = some c ∧ c.tag = .waker ∧ c.children[0]? = some u := by
  have reads : (Waker.thread w m.heap).toOption = some u ↔ Waker.thread w m.heap = .ok u := by
    cases Waker.thread w m.heap <;> simp [Except.toOption]
  rw [wakers, List.mem_filter, decide_eq_true_iff, reads, Waker.thread, Query.child, ofHeap_ok,
    s.child_ok]
  refine ⟨And.right, fun k => ⟨?_, k⟩⟩
  obtain ⟨c, hc, -⟩ := k
  obtain ⟨i⟩ := w
  simpa [Heap.liveObjects] using Heap.isLive_iff.1 (Heap.cell?_eq_some.1 hc).1

theorem wakers_ne_nil (s : m.heap.Sound) : m.wakers u ≠ [] ↔ u ∈ m.heap.Waits := by
  rw [ne_eq, List.eq_nil_iff_forall_not_mem, not_forall]
  exact exists_congr fun w => not_not.trans (mem_wakers s)

namespace Ordered

/-- What the run queue lists. -/
theorem runnable (ord : m.Ordered K F q links ts) : m.runnable = .ok ts :=
  Scheduler.threads_eq ord.orderly ord.queued

/-- A thread stands in one place. -/
theorem once (ord : m.Ordered K F q links ts) (hu : u ≠ .nil) :
    ts.count u + (m.wakers u).length ≤ 1 := by
  have o := ord.orderly
  by_cases k : m.heap.HasTag .thread u
  · obtain ⟨l, sub, len, held⟩ := ord.queued.linked.holders u
    have listed : (m.wakers u).Nodup := by
      refine List.Nodup.filter _ ((Heap.nodup_toList m.heap.live).map fun i j e => ?_)
      exact congrArg Address.index e
    have apart : l.Disjoint (m.wakers u) := fun a ha hw => by
      obtain ⟨next, hB⟩ := held a ha
      obtain ⟨c, hc, ht, -⟩ := (mem_wakers o.sound).1 hw
      obtain ⟨c', hc', e⟩ := o.cell hB
      obtain rfl : c = c' := by simpa [hc] using hc'
      simp [Cell.body, ht] at e
    have points : ∀ a ∈ l ++ m.wakers u, m.heap.Points a u := fun a ha => by
      rcases List.mem_append.1 ha with ha | ha
      · obtain ⟨next, hB⟩ := held a ha
        exact .of_body o hB (by simp)
      · obtain ⟨c, hc, -, hi⟩ := (mem_wakers o.sound).1 ha
        exact ⟨c, hc, List.mem_of_getElem? hi⟩
    have := Heap.length_le_count_edges ((ord.queued.nodup.sublist sub).append listed apart) points
    have := o.once k
    rw [List.length_append, len] at *
    omega
  · have out : u ∉ ts := fun hm => k (ord.queued.hasTag o hm)
    have idle : m.wakers u = [] := List.eq_nil_iff_forall_not_mem.2 fun w hw => by
      obtain ⟨c, hc, ht, hi⟩ := (mem_wakers o.sound).1 hw
      have f := o.fits hc (o.none_of_tag ⟨c, hc, ht⟩ rfl) hi
      rw [Heap.Fits, if_pos ht] at f
      exact k (f.resolve_left hu).1
    rw [List.count_eq_zero_of_not_mem out, idle, List.length_nil]
    omega

theorem nodup (ord : m.Ordered K F q links ts) : ts.Nodup := by
  refine List.nodup_iff_count_le_one.2 fun u => ?_
  by_cases hu : u ∈ ts
  · have := ord.once (ord.queued.runnable hu).1
    omega
  · rw [List.count_eq_zero_of_not_mem hu]
    omega

/-- The links of the queue are not what the machine holds. -/
theorem unowned (ord : m.Ordered K F q links ts) :
    ∀ l ∈ links, l ∉ ({m.scheduler, m.mainThread} : Multiset Address) := by
  intro l hl ho
  rcases Multiset.mem_cons.1 ho with rfl | ho
  · exact ord.queued.link_ne_scheduler hl rfl
  · obtain rfl := Multiset.mem_singleton.1 ho
    exact ord.queued.link_some hl ord.main

theorem of_eq (ord : m.Ordered K F q links ts) (scheduler : m'.scheduler = m.scheduler)
    (main : m'.mainThread = m.mainThread) (heap : m'.heap = m.heap) : m'.Ordered K F q links ts :=
  ⟨by rw [scheduler, main, heap]; exact ord.orderly, by rw [scheduler]; exact ord.queued,
    by rw [main]; exact ord.main⟩

/-- A collection releases nothing that is runnable. -/
theorem collect (ord : m.Ordered K F q links ts) (acc : m.Accounted) :
    Yields collect m fun _ m' => m'.Ordered K F q links ts := by
  refine .get (liftHeap fun k h' run => ?_)
  have roots : ∀ a ∈ ({m.scheduler, m.mainThread} : Multiset Address),
      a ∈ [m.scheduler, m.mainThread, m.globals] := fun a ha => by
    rcases Multiset.mem_cons.1 ha with rfl | ha
    · simp
    · simp [Multiset.mem_singleton.1 ha]
  have o := ord.orderly.markAndSweep acc (fun _ => mem_roots) roots
    (fun known => ⟨_, List.mem_cons_self .., ord.queued.leads ord.orderly known⟩) run
  exact ⟨o.1, ord.queued, ord.main⟩

end Ordered

/-! ## A turn -/

/-- The round in which a thread in front of the run queue has its turn. -/
def round (m : Machine) (q t : Address) (rest : List Address) : Round where
  parked := insert t m.heap.Waits
  base := t ::ₘ {m.scheduler, m.mainThread}
  scheduler := m.scheduler
  queue := q
  thread := t
  rest := rest

theorem mem_base {a : Address} {rest : List Address} : a ∈ (m.round q t rest).base ↔
    a = t ∨ a = m.scheduler ∨ a = m.mainThread := by
  simp [round]

/-- What is left of a round: the threads behind the one that had its turn, and those that came. -/
def Settled (R : Round) (m : Machine) : Prop :=
  ∃ K F links new, m.Ordered K F R.queue links (R.rest ++ new) ∧
    ∀ u ∈ new, u ∈ R.parked ∨ u ∉ R.base

theorem Ordered.dequeue {rest : List Address} (ord : m.Ordered K F q links (t :: rest)) :
    Yields (Scheduler.dequeue m.scheduler) m.heap fun r h =>
      r = t ∧ (m.round q t rest).Stands (m.round q t rest).base [t] [] h := by
  refine (Scheduler.dequeue_gives ord.orderly.narrow ord.queued ord.unowned).mono
    fun r h ⟨e, J, o, qd, l, none_of, thread⟩ => ?_
  obtain rfl : r = t := e
  obtain ⟨k, zero⟩ := thread (ord.queued.runnable (List.mem_cons_self ..)).1
  have stays : ∀ a ∈ (m.round q r rest).base, a = m.scheduler ∨ J a = none := fun a ha => by
    rcases mem_base.1 ha with rfl | rfl | rfl
    · exact .inr (o.none_of_tag k rfl)
    · exact .inl rfl
    · exact .inr (none_of _ ord.main)
  refine ⟨rfl, J, links.tail, [], o.mono (Set.subset_insert _ _), ?_, by simp, by simp, ?_,
    fun a ha => ⟨ha, stays a ha⟩⟩
  · rw [List.append_nil]
    exact qd
  · intro u hu
    obtain rfl := List.mem_singleton.1 hu
    exact ⟨mem_base.2 (.inl rfl), k, zero⟩

/-- The machine drops the thread that had its turn. -/
theorem Ordered.release {rest : List Address} {h : Heap} (ord : m.Ordered K F q links (t :: rest))
    (st : (m.round q t rest).Stands (m.round q t rest).base [] [] h) :
    Yields (HeapM.free t) h fun _ h' => Settled (m.round q t rest) { m with heap := h' } := by
  obtain ⟨J, links', new, sh⟩ := st
  have apart : ∀ {a}, F a = none → a ≠ m.scheduler := by
    rintro a unknown rfl
    obtain ⟨id, hs⟩ := ord.queued.scheduler
    simp [hs] at unknown
  have unknown : J t = none := (sh.base t (mem_base.2 (.inl rfl))).2.resolve_left
    (apart (ord.queued.runnable (List.mem_cons_self ..)).2)
  have o : Orderly _ J (t ::ₘ {m.scheduler, m.mainThread}) 0 h := sh.orderly
  refine (o.free (.inl unknown)).mono fun _ h' ⟨o, _⟩ =>
    ⟨_, J, links', new, ⟨o, sh.queued, ?_⟩, sh.joined⟩
  exact (sh.base _ (mem_base.2 (.inr (.inr rfl)))).2.resolve_left (apart ord.main)

theorem Settled.of_eq {R : Round} (st : Settled R m) (scheduler : m'.scheduler = m.scheduler)
    (main : m'.mainThread = m.mainThread) (heap : m'.heap = m.heap) : Settled R m' := by
  obtain ⟨K, F, links, new, ord, joined⟩ := st
  exact ⟨K, F, links, new, ord.of_eq scheduler main heap, joined⟩

/-- Neither a snapshot nor a collection changes who is runnable. -/
theorem Settled.finish {R : Round} (st : Settled R m) (acc : m.Accounted) :
    Yields (do record; collectIfDue) m fun _ m' => Settled R m' := by
  obtain ⟨n, -, has⟩ := acc.has
  have kept : Yields record m fun _ m' => Settled R m' := by
    refine .get ?_
    split
    · exact inspect fun _ _ => .modify (st.of_eq rfl rfl rfl)
    · exact .pure st
  refine (kept.and has.record.yields).bind fun _ m₁ ⟨⟨K, F, links, new, ord, joined⟩, has⟩ =>
    .get ?_
  split
  · exact (ord.collect has.accounted).bind fun _ m₂ ord => .pure ⟨K, F, links, new, ord, joined⟩
  · exact .pure ⟨K, F, links, new, ord, joined⟩

/-- A node runs, and then the thread and the node are dropped. -/
theorem Ordered.runTop {rest : List Address} {control : Address}
    (ord : m₀.Ordered K F q links (t :: rest))
    (has : Has m₀ (n + 3) (t ::ₘ m₀.handles) m) (room : maxSlots + 16 ≤ n)
    (st : (m₀.round q t rest).Stands (m₀.round q t rest).base [t] [] m.heap)
    (run : Thread.control t m.heap = .ok control) :
    Yields (runTop t control) m fun _ m' => Settled (m₀.round q t rest) m' := by
  refine ((acts (st.kept fun o _ => Stack.pop_keeps o (o.open_stack (i := 0) (by decide) run))).and
    (has.act (Stack.pop_owns has.owns)).yields).bind ?_
  rintro node m₁ ⟨st, has⟩
  have st := st.mono (List.nil_subset _)
  have turned : Yields (turn t (reduce node)) m₁ fun _ m' =>
      (m₀.round q t rest).Stands (m₀.round q t rest).base [] [] m'.heap := by
    intro _ m' run
    have own : Owns 0 (0 + maxSlots + 16) (node ::ₘ t ::ₘ m₀.handles) m₁.heap :=
      has.owns.weaken (by omega)
    simp only [turn] at run
    split at run
    · next e =>
      cases run
      have during : (m₀.round q t rest).During [(m₀.round q t rest).thread] []
          { heap := m₁.heap, random := m₁.random, output := m₁.output, scheduler :=
          m₁.scheduler, thread := t } :=
        ⟨st, has.scheduler, rfl⟩
      exact (reduce_turns during own (Set.mem_insert ..) (by simp [round]) (by simp) _ _ e).stands
    · cases run
  refine (Yields.attempt (E := fun r m' => r = .ok () →
    (m₀.round q t rest).Stands (m₀.round q t rest).base [] [] m'.heap ∧
      Has m₀ (n + 2) (node ::ₘ t ::ₘ m₀.handles) m') (turned.and (has.turn (by omega)).yields)
    (fun _ _ done _ => done) fun _ _ e => by cases e).bind fun result m₂ done => ?_
  cases result with
  | error e => exact Yields.any.bind fun _ _ _ => Yields.any.bind fun _ _ _ =>
      (Yields.conclude_error (Q := fun _ _ => False)).bind fun _ _ h => h.elim
  | ok _ =>
    obtain ⟨st, has⟩ := done rfl
    have plain : (m₀.round q t rest).Stands (m₀.round q t rest).base [] [node] m₂.heap := by
      obtain ⟨J, links', new, sh⟩ := st
      refine ⟨J, links', new, { sh with plain := ?_ }⟩
      refine List.forall_mem_singleton.2 (sh.orderly.plain_of_owned has.owns.exact ?_)
      have same : node ::ₘ t ::ₘ m₀.handles = node ::ₘ m₀.globals ::ₘ (m₀.round q t rest).base := by
        simp only [round, handles, Multiset.insert_eq_cons, ← Multiset.singleton_add]
        abel
      rw [same, Multiset.count_cons_self]
      exact Nat.lt_succ_of_le (Multiset.count_le_count_cons ..)
    have freed : Yields (HeapM.free node) m₂.heap fun _ h' =>
        (m₀.round q t rest).Stands (m₀.round q t rest).base [] [node] h' := fun _ h' run =>
      plain.tame (.heap (.free (by simp))) _ h' (lift_heap_ok.2 run)
    refine ((onHeap freed).and has.free.yields).bind ?_
    rintro _ m₃ ⟨st, has⟩
    have released := ord.release (st.mono (List.nil_subset _))
    refine ((onHeap released).and has.free.yields).bind ?_
    rintro _ m₄ ⟨settled, has⟩
    have settled : Settled (m₀.round q t rest) m₄ := settled.of_eq has.scheduler has.mainThread rfl
    refine (Yields.conclude (Q := fun _ m' => m' = m₄) fun _ _ => rfl).bind fun _ m₅ e => ?_
    subst e
    refine (Yields.modify (Q := fun _ m' => Settled (m₀.round q t rest) m' ∧ m'.Accounted) ?_).bind
      fun _ m₆ done => done.1.finish done.2
    exact ⟨settled.of_eq rfl rfl rfl, has.accounted⟩

/-- What a step does to the run queue. -/
theorem Ordered.step {rest : List Address} (ord : m.Ordered K F q links (t :: rest))
    (acc : m.Accounted) :
    Yields step m fun more m' => more = true ∧ Settled (m.round q t rest) m' := by
  obtain ⟨n, room, has⟩ := acc.has
  refine .get (((acts ord.dequeue).and (has.act (Scheduler.dequeue_owns has.owns)).yields).bind
    fun r m₁ ⟨⟨e, st⟩, has⟩ => ?_)
  subst e
  have live : r.isNil = false := by
    rw [Bool.eq_false_iff, ne_eq, Address.isNil_iff]
    exact (ord.queued.runnable (List.mem_cons_self ..)).1
  rw [live, if_neg Bool.false_ne_true]
  refine inspect fun control run => inspect fun empty _ => ?_
  split
  · refine (onHeap (ord.release st.stop)).and has.free.yields |>.bind
      fun _ m₂ ⟨settled, has⟩ => .pure ⟨rfl, ?_⟩
    exact settled.of_eq has.scheduler has.mainThread rfl
  · exact (ord.runTop has room st run).bind fun _ m₂ settled => .pure ⟨rfl, settled⟩

/-- A step without runnable threads. -/
theorem Ordered.step_idle (ord : m.Ordered K F q links []) :
    Yields Machine.step m fun more m' => more = false ∧ ∃ J, m'.Ordered K J q [] [] := by
  have dequeued := Scheduler.dequeue_gives ord.orderly ord.queued ord.unowned
  have emptied : links = [] := by
    cases links with
    | nil => rfl
    | cons => exact ord.queued.linked.elim
  subst emptied
  refine .get ((lift (Q := fun r m' => r = .nil ∧ ∃ J, m'.Ordered K J q [] []) (dequeued.mono
    fun r h ⟨e, J, o, qd, _, none_of, _⟩ => ?_)).bind fun r m₁ ⟨e, ord⟩ => ?_)
  · obtain rfl : r = .nil := e
    exact ⟨rfl, J, Orderly.cons_nil.1 o, qd, none_of _ ord.main⟩
  · subst e
    exact .pure ⟨rfl, ord⟩

/-! ## New machines and programs -/

/-- Nothing stands anywhere in an empty heap. -/
theorem orderly_empty {h : Heap} {words : Nat} (made : Heap.new words = .ok h) :
    Orderly ∅ (fun _ => none) 0 0 h := by
  have empty := Exact.new made
  have dead : ∀ a, h.isLive a = false := by
    obtain ⟨p, -, e⟩ := except_bind_ok.1 made
    obtain rfl := except_pure_ok.1 e
    simp [Heap.isLive]
  have noCell : ∀ {a c}, h.cell? a ≠ some c := fun {a c} hc => by
    rw [Heap.cell?_eq_none.2 (dead a)] at hc
    cases hc
  refine ⟨empty.sound, ?_, ?_, ?_, ?_, fun _ hc => absurd hc noCell, fun hc => absurd hc noCell, ?_,
    fun standing => absurd standing.choose_spec.1 noCell⟩
  · exact fun hB => by cases hB
  · exact fun hB => by cases hB
  · exact fun _ _ hB => by cases hB
  · exact fun ha => by simp at ha
  · exact fun hB => by cases hB

/-- A new scheduler has an empty queue. -/
theorem create_orderly {h : Heap} (o : Orderly K F 0 0 h) (own : Owns 0 n 0 h)
    (fresh : F = fun _ => none) :
    Yields Scheduler.create h fun s h' => ∃ J q, Orderly K J {s} 0 h' ∧ Queued J s q [] [] := by
  subst fresh
  have created : Yields (HeapM.allocate .scheduler 1 1) h fun s h' =>
    Orderly K (Function.update (fun _ => none) s
      (some ⟨.scheduler, [0], [.nil]⟩)) {s} 0 h' := fun s h' run =>
    (o.allocate own (.inr ⟨rfl, rfl⟩) run).2.2.1
  refine (created.and own.allocate.yields).heap.bind fun s h₁ ⟨o₁, own₁⟩ => ?_
  have made : Yields (Action.orRelease s Queue.create) h₁ fun q h' => q ≠ s ∧
    Orderly K (Function.update
      (Function.update (fun _ => none) s (some ⟨.scheduler, [0], [.nil]⟩)) q
      (some ⟨.queue, [0], [.nil, .nil]⟩)) (q ::ₘ {s}) 0 h' := by
    refine .orRelease (Yields.heap fun q h' run => ?_)
    obtain ⟨dead, -, o', -⟩ := o₁.allocate own₁ (.inr ⟨rfl, rfl⟩) run
    have live : h₁.isLive s := o₁.isLive_of_private (.inl (by simp))
    refine ⟨?_, o'⟩
    rintro rfl
    rw [live] at dead
    cases dead
  refine made.bind fun q h₂ ⟨ne, o₂⟩ => ?_
  have hs := Heap.known_update (o := some ⟨.queue, [0], [.nil, .nil]⟩)
    (Function.update_self s (some (⟨.scheduler, [0], [.nil]⟩ : Body)) fun _ => none) ne.symm
  refine (o₂.setChildOwned hs rfl (.inl (o₂.nil_still hs)) (.inr (.inl (by simp)))).heap.bind
    fun _ h₃ ⟨o₃, _⟩ => .pure ⟨_, q, o₃, ⟨0, Function.update_self ..⟩, ?_, trivial, List.nodup_nil,
      by simp, fun {a B} ha => ?_⟩
  · exact Heap.known_update (Function.update_self ..) ne
  · by_contra outside
    simp only [List.not_mem_nil, or_false, not_or] at outside
    simp [outside] at ha

theorem new_ordered {settings : Settings} (made : new settings = .ok m) :
    ∃ F q, m.Ordered ∅ F q [] [] := by
  obtain ⟨h, hh, made⟩ := except_bind_ok.1 made
  have made' : Heap.new settings.heapWords = .ok h := by
    cases e : Heap.new settings.heapWords <;> simp_all [Except.mapError]
  have own : Owns 0 0 0 h := ⟨.new made', by decide, fun a _ => by simp⟩
  have ran : Yields (do
    return (← Scheduler.create, ← Frame.create .nil) : Action (Address × Address)) h
      fun pair h' => ∃ J q, Orderly ∅ J {pair.1} 0 h' ∧ Queued J pair.1 q [] [] := by
    refine (create_orderly (orderly_empty made') own rfl).bind fun s h₁ ⟨J, q, o, qd⟩ => ?_
    exact (Frame.create_tame (c := []) (by simp) o (by simp)).bind fun frame h₂ k =>
      .pure ⟨J, q, k.orderly, qd⟩
  split at made
  · cases made
  · next scheduler globals h' run =>
    obtain rfl := except_pure_ok.1 made
    obtain ⟨J, q, o, qd⟩ := ran _ _ run
    refine ⟨J, q, ?_, qd, o.none_of_dead o.sound.not_isLive_nil⟩
    have swapped : ({scheduler, .nil} : Multiset Address) = .nil ::ₘ {scheduler} :=
      Multiset.cons_swap ..
    exact swapped ▸ Orderly.cons_nil.2 o

/-- A program starts behind the threads that are there. -/
theorem Ordered.load {program : Program} (ord : m.Ordered K F q links ts) (acc : m.Accounted) :
    Yields (load program) m fun _ m' => ∃ F links ts, m'.Ordered K F q links ts := by
  obtain ⟨n, -, has⟩ := acc.has
  let R : Round := ⟨K, {m.scheduler, m.mainThread}, m.scheduler, q, .nil, ts⟩
  have apart : m.mainThread ≠ m.scheduler := by
    intro e
    obtain ⟨id, hs⟩ := ord.queued.scheduler
    simp [← e, ord.main] at hs
  have plain : m.heap.Plain F m.globals := by
    refine ord.orderly.plain_of_owned acc ?_
    have same : m.handles = m.globals ::ₘ {m.scheduler, m.mainThread} := by
      simp only [handles, Multiset.insert_eq_cons, ← Multiset.singleton_add]
      abel
    rw [same, Multiset.count_cons_self]
    exact Nat.lt_succ_self _
  have st : R.Stands R.base [] [m.globals] m.heap := by
    refine ⟨F, links, [], ord.orderly, ?_, by simp, by simpa using plain, by
      simp, fun a ha => ⟨ha, ?_⟩⟩
    · rw [List.append_nil]
      exact ord.queued
    · have ha : a = m.scheduler ∨ a = m.mainThread := by simpa [R] using ha
      exact ha.imp_right (Eq.substr (p := (F · = none)) · ord.main)
  refine .get (((acts (st.tame (Lowering.load_tame (by simp)))).and
    (has.act (Lowering.load_owns has.owns)).yields).bind
    ?_)
  rintro node m₁ ⟨st, has⟩
  refine ((acts (Machine.start_stands has.owns st (by simp [handles]))).and
    (has.act (start_owns has.owns)).yields).bind
    ?_
  rintro t m₂ ⟨⟨st, thread⟩, has⟩
  obtain ⟨J, links', new, sh⟩ := st
  have o : Orderly K J (m.mainThread ::ₘ {m.scheduler, t}) 0 m₂.heap := by
    have same : t ::ₘ R.base = m.mainThread ::ₘ {m.scheduler, t} := by
      simp only [R, Multiset.insert_eq_cons, ← Multiset.singleton_add]
      abel
    exact same ▸ sh.orderly
  have unknown : J m.mainThread = none := (sh.base _ (by simp [R])).2.resolve_left apart
  refine (Yields.modify (Q := fun _ m' => m'.scheduler = m.scheduler ∧ m'.mainThread = t ∧
    m'.heap = m₂.heap)
    ⟨has.scheduler, rfl, rfl⟩).bind ?_
  rintro _ m₃ ⟨hs, ht, hh⟩
  refine liftHeap ?_
  rw [hh]
  refine (o.free (.inl unknown)).mono ?_
  rintro _ h' ⟨o', -⟩
  refine ⟨J, links', ts ++ new, ?_, ?_, ?_⟩
  · change Orderly K J {m₃.scheduler, m₃.mainThread} 0 h'
    rwa [hs, ht]
  · change Queued J m₃.scheduler q links' (ts ++ new)
    rw [hs]
    exact sh.queued
  · exact ht ▸ sh.orderly.none_of_tag thread rfl

/-! ## Runs -/

theorem Reached.ordered (reached : Reached m) : ∃ K F q links ts, m.Ordered K F q links ts := by
  induction reached with
  | new made =>
    obtain ⟨F, q, ord⟩ := new_ordered made
    exact ⟨_, F, q, _, _, ord⟩
  | load reached run ih =>
    obtain ⟨K, F, q, links, ts, ord⟩ := ih
    obtain ⟨F, links, ts, ord⟩ := ord.load reached.accounted _ _ run
    exact ⟨K, F, q, links, ts, ord⟩
  | step reached run ih =>
    obtain ⟨K, F, q, links, ts, ord⟩ := ih
    cases ts with
    | nil =>
      obtain ⟨-, F, ord⟩ := ord.step_idle _ _ run
      exact ⟨K, F, q, _, _, ord⟩
    | cons t rest =>
      obtain ⟨-, K, F, links, new, ord, -⟩ := ord.step reached.accounted _ _ run
      exact ⟨K, F, q, links, _, ord⟩
  | collect reached run ih =>
    obtain ⟨K, F, q, links, ts, ord⟩ := ih
    exact ⟨K, F, q, links, ts, ord.collect reached.accounted _ _ run⟩

/-- So many steps that each find a thread. -/
inductive Steps : Nat → Machine → Machine → Prop
  | refl {m : Machine} : Steps 0 m m
  | step {n : Nat} {m m₁ m' : Machine} : step m = .ok true m₁ → Steps n m₁ m' → Steps (n + 1) m m'

/-- What was said of more steps that were taken. -/
theorem Steps.of_stepsAfter_true {tried budget n : Nat} {m m' : Machine}
    (ran : Machine.stepsAfter tried budget m = .ok (n, true) m') : Steps budget m m' := by
  induction budget generalizing tried m with
  | zero => cases ran; exact .refl
  | succ budget ih =>
    obtain ⟨found, m₁, first, ran⟩ := bind_ok.1 ran
    split at ran
    · next e => exact .step (e ▸ first) (ih ran)
    · cases ran

/-- The thread that runs next. -/
def Next (m : Machine) (u : Address) : Prop := ∃ rest, m.runnable = .ok (u :: rest)

/-- A step made a thread. -/
def Forked (m m' : Machine) (u : Address) : Prop :=
  ¬m.heap.HasTag .thread u ∧ m'.heap.HasTag .thread u

/-- The run queue of a machine, and what becomes of it. -/
structure Scheduled (m : Machine) (ts : List Address) : Prop where
  runnable : m.runnable = .ok ts
  /-- A thread is runnable once or waits in one place. -/
  once : ∀ u, u ≠ .nil → ts.count u + (m.wakers u).length ≤ 1
  /-- A step takes the thread in front off the queue. Others come to the back. -/
  step : ∀ t rest more m', ts = t :: rest → step m = .ok more m' → more = true ∧
    (∃ h, Scheduler.dequeue m.scheduler m.heap = .ok t h) ∧
    ∃ new, m'.runnable = .ok (rest ++ new) ∧ new.Nodup ∧ rest.Disjoint new ∧
      ∀ u ∈ new, u = t ∨ m.wakers u ≠ [] ∨ Forked m m' u
  /-- The thread at position `k` has its turn after `k` steps, and no earlier. -/
  turn : ∀ k u, ts[k]? = some u → ∀ j ≤ k, ∀ m', Steps j m m' → (Next m' u ↔ j = k)

theorem Ordered.step_new {rest new : List Address} {K' : Set Address} {J : Facts}
    {links' : List Address}
    (ord : m.Ordered K F q links (t :: rest)) (acc : m.Accounted)
    (ord' : m'.Ordered K' J q links' (rest ++ new))
    (joined : ∀ u ∈ new, u ∈ (m.round q t rest).parked ∨ u ∉ (m.round q t rest).base) :
    ∀ u ∈ new, u = t ∨ m.wakers u ≠ [] ∨ Forked m m' u := by
  intro u hu
  have apart : u ∉ rest := fun hr => List.disjoint_of_nodup_append ord'.nodup hr hu
  have now : m'.heap.HasTag .thread u := ord'.queued.hasTag ord'.orderly (by simp [hu])
  rw [wakers_ne_nil ord.orderly.sound]
  rcases joined u hu with hp | hb
  · exact (Set.mem_insert_iff.1 hp).imp_right .inl
  · refine .inr (or_iff_not_imp_left.2 fun hw => ⟨fun k => ?_, now⟩)
    rw [mem_base, not_or, not_or] at hb
    rcases ord.orderly.thread_cases acc ord.queued k with ho | ht | hw'
    · simp only [Multiset.insert_eq_cons, Multiset.mem_cons, Multiset.mem_singleton] at ho
      tauto
    · exact (List.mem_cons.1 ht).elim hb.1 apart
    · exact hw hw'

/-- After some steps the threads that were behind are in front. -/
theorem Steps.runnable {k : Nat} (steps : Steps k m m') (acc : m.Accounted)
    (ord : m.Ordered K F q links ts)
    (hk : k ≤ ts.length) : ∃ new, m'.runnable = .ok (ts.drop k ++ new) := by
  induction steps generalizing K F q links ts with
  | refl => exact ⟨[], by simpa using ord.runnable⟩
  | step run _ ih =>
    cases ts with
    | nil => simp at hk
    | cons t rest =>
      obtain ⟨-, K', F', links', new, ord', -⟩ := ord.step acc _ _ run
      have ord' : Ordered _ K' F' q links' (rest ++ new) := ord'
      have hk := Nat.le_of_succ_le_succ hk
      obtain ⟨more, e⟩ := ih (step_accounted acc _ _ run) ord' (hk.trans (by simp))
      rw [List.drop_append_of_le_length hk, List.append_assoc] at e
      exact ⟨new ++ more, e⟩

/-- A step begins with the thread in front of the queue. -/
theorem step_dequeues {more : Bool} (run : step m = .ok more m') :
    ∃ t h, Scheduler.dequeue m.scheduler m.heap = .ok t h := by
  obtain ⟨m₁, m₂, got, run⟩ := bind_ok.1 run
  obtain ⟨rfl, rfl⟩ := get_ok.1 got
  obtain ⟨t, m₁, dequeued, -⟩ := bind_ok.1 run
  exact ⟨t, m₁.heap, acts (Q := fun t h => Scheduler.dequeue m.scheduler m.heap = .ok t h)
    (fun _ _ e => e) _ _ dequeued⟩

/-- No thread is scheduled twice: whatever programs are loaded and however they run. -/
theorem schedules_once (reached : Reached m) : ∃ ts, m.Scheduled ts := by
  obtain ⟨K, F, q, links, ts, ord⟩ := reached.ordered
  refine ⟨ts, ord.runnable, fun u hu => ord.once hu, fun t rest more m' e run =>
    ?_, fun k u hk j hj m' steps => ?_⟩
  · subst e
    obtain ⟨rfl, K', J, links', new, ord', joined⟩ := ord.step reached.accounted _ _ run
    obtain ⟨r, h, dequeued⟩ := step_dequeues run
    obtain ⟨rfl, -⟩ := ord.dequeue _ _ dequeued
    have split := List.nodup_append'.1 ord'.nodup
    exact ⟨rfl, ⟨h, dequeued⟩, new, ord'.runnable, split.2.1, split.2.2,
      ord.step_new reached.accounted ord' joined⟩
  · obtain ⟨hk, rfl⟩ := List.getElem?_eq_some_iff.1 hk
    have hj' : j < ts.length := by omega
    obtain ⟨new, e⟩ := steps.runnable reached.accounted ord hj'.le
    have front : Next m' ts[k] ↔ ts[j] = ts[k] := by
      rw [Next, e, List.drop_eq_getElem_cons hj', List.cons_append]
      simp
    rw [front, ord.nodup.getElem_inj_iff]

/-- What is tagged as a thread is one. -/
theorem Reached.thread {u : Address} (reached : Reached m) (tag : m.heap.tag u = .ok .thread) :
    m.heap.HasTag .thread u :=
  (reached.accounted.sound.tag_ok.1 tag).resolve_left fun e => by cases e.2

/-- The run queue in which two threads stand. -/
theorem scheduled_in_rendezvous : ∃ m₀ m₁ m₂ : Machine, ∃ n t u,
    new { heapWords := 1024 } = .ok m₀ ∧
    load rendezvousProgram m₀ = .ok () m₁ ∧ advance 22 m₁ = .ok (n, true) m₂ ∧ t ≠ u ∧
    m₂.Scheduled [t, u] := by
  obtain ⟨m₀, m₁, m₂, m₃, m₄, m₅, u, made, loaded, r⟩ := rendezvous
  obtain ⟨n, starts⟩ := r.starts
  obtain ⟨reached, -⟩ := Reached.rendezvous (.load (.new made) loaded) r
  obtain ⟨ts, scheduled⟩ := schedules_once reached
  obtain rfl : ts = [m₁.mainThread, u] := Except.ok.inj (scheduled.runnable.symm.trans r.both)
  exact ⟨m₀, m₁, m₂, n, _, u, made, loaded, starts, r.other, scheduled⟩

end Machine
end GoMachine
