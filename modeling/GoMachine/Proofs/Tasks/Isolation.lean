import GoMachine.Proofs.Tasks.Stash
/-!
# Threads among themselves

All threads live in one heap, and share frames, nodes and values. A step leaves what another thread
has left to do as it is, unless it completes what that waits for on a channel. Then the thread gets
the body of its case and a value, on top of what it has, and comes to the back of the run queue.

* `Machine.Passed.apart`: the tasks of other threads.
* `Machine.isolated`: what their records hold.
-/
namespace GoMachine

variable {m m' : Machine} {σ σ' : Address → Task} {h : Heap} {a t u w i b : Address}
    {control stash : List Address}
  {rest ts : List Address} {τ τ' : Task} {more : Bool}

/-- What the records of a thread hold. -/
structure Thread.Holds (h : Heap) (u : Address) (control stash : List Address) (frame : Address) :
    Prop where
  control : (Thread.control u >>= Stack.values) h = .ok control
  stash : (Thread.stash u >>= Stack.values) h = .ok stash
  frame : Thread.frame u h = .ok frame

/-- A thread waits on a channel by an instance with a waker and a body, and nowhere else. -/
structure Machine.Parked (m : Machine) (u i w b : Address) : Prop where
  tagged : m.heap.HasTag .waitingInstance i
  waker : Waiting.waker i m.heap = .ok w
  body : Waiting.body i m.heap = .ok b
  holds : m.wakers u = [w]

namespace Task

/-- What is added to the task of a thread by what wakes it. -/
structure Gains (τ τ' : Task) (bodies values : List Address) : Prop where
  control : τ'.control.map Entry.node = bodies ++ τ.control.map Entry.node
  stash : τ'.stash = values ++ τ.stash
  line : τ'.line = τ.line
  few : values.length ≤ 1

/-- Only a thread that waits on a channel gains anything: the body that it waits with, and a value.
-/
theorem Woken.gains (woken : τ.Woken τ') : ∃ bodies values, τ.Gains τ' bodies values ∧
    τ.waits ≠ none ∧ τ'.queued ∧
    (bodies = [] ∧ values = [] ∨ ∃ i w b, (i, w, b) ∈ τ.offers ∧ (bodies = [] ∨ bodies = [b])) := by
  cases woken with
  | turn waits => exact ⟨[], [], ⟨rfl, rfl, rfl, by simp⟩, by simp [waits], rfl, .inl ⟨rfl, rfl⟩⟩
  | @value x i w v waits offer =>
    exact ⟨[], [v], ⟨rfl, rfl, rfl, by simp⟩, by
      simp [waits], rfl, .inr ⟨i, w, .nil, offer, .inl rfl⟩⟩
  | @sent x i w b c waits _ offer =>
    exact ⟨[b], [], ⟨rfl, rfl, rfl, by simp⟩, by simp [waits], rfl, .inr ⟨i, w, b, offer, .inr rfl⟩⟩
  | @received x i w b c v waits _ offer =>
    exact ⟨[b], [v], ⟨rfl, rfl, rfl, by simp⟩, by
      simp [waits], rfl, .inr ⟨i, w, b, offer, .inr rfl⟩⟩

end Task

theorem Heap.Leaves.holds (l : h.Leaves u τ) :
    Thread.Holds h u (τ.control.map Entry.node) τ.stash (τ.line.headD .nil) := by
  obtain ⟨f, read, lines⟩ := l.frame
  exact ⟨l.control, l.stash, lines.head ▸ read⟩

namespace Machine

/-- Who may be woken by an instance waits there. -/
theorem Reached.parked (reached : m.Reached) (notNil : u ≠ .nil)
    (offer : (i, w, b) ∈ Facts.offers m.heap.body? u) : m.Parked u i w b := by
  obtain ⟨K, F, q, links, ts, ord⟩ := reached.ordered
  obtain ⟨D, E, hD, tag, hw, hb, hE, tag', hu⟩ := offer
  obtain ⟨c, hc, rfl⟩ := Heap.body?_eq_some.1 hD
  obtain ⟨d, hd, rfl⟩ := Heap.body?_eq_some.1 hE
  have sound := ord.orderly.sound
  have read : ∀ {j x}, c.children[j]? = some x → Query.child i .waitingInstance j m.heap = .ok x :=
    fun hx =>
    ofHeap_ok.2 (sound.child_ok.2 ⟨c, hc, tag, hx⟩)
  refine ⟨⟨c, hc, tag⟩, read hw, read hb, ?_⟩
  have mem : w ∈ m.wakers u := (mem_wakers sound).2 ⟨d, hd, tag', hu⟩
  have once := ord.once notNil
  have least := List.length_pos_of_mem mem
  obtain ⟨w', e⟩ := List.length_eq_one_iff.1 (show (m.wakers u).length = 1 by omega)
  rw [e, List.mem_singleton] at mem
  rw [e, mem]

/-- What a step leaves another thread to do. -/
theorem Passed.apart (passed : m.Passed σ σ' more)
    (front : Scheduler.dequeue m.scheduler m.heap = .ok t h) (other : u ≠ t)
    (thread : m.heap.HasTag .thread u) : σ' u = σ u ∨ (σ u).Woken (σ' u) := by
  cases passed with
  | idle _ e => exact .inl (by rw [e])
  | ended front' _ _ _ e =>
    cases front.symm.trans front'
    exact .inl (by rw [e, Function.update_of_ne other])
  | turn front' _ _ _ _ joined =>
    cases front.symm.trans front'
    rcases joined u other with same | woken | ⟨new, -⟩
    · exact .inl same
    · exact .inr woken
    · obtain ⟨c, hc, tag⟩ := thread
      exact absurd tag (new _ (Heap.body?_eq_some.2 ⟨c, hc, rfl⟩))

/-- A thread that is woken comes to the back of the run queue. -/
theorem Reached.joins (reached : m.Reached) (g : m.Follows σ) (run : m.runnable = .ok (t :: rest))
    (ran : Machine.step m = .ok more m')
    (g' : m'.Follows σ') (notNil : u ≠ .nil) (waits : (σ u).waits ≠ none) (queued : (σ' u).queued) :
    m'.wakers u = [] ∧ ∃ new, m'.runnable = .ok (rest ++ new) ∧ u ∈ new := by
  obtain ⟨K, F, q, links, ts, ord⟩ := reached.ordered
  obtain rfl : ts = t :: rest := by
    cases ord.runnable.symm.trans run
    rfl
  obtain ⟨-, K', F', links', new, ord', -⟩ := ord.step reached.accounted _ _ ran
  have mem : u ∈ rest ++ new := (g'.runnable ord'.runnable).2 u notNil queued
  have out : u ∉ rest := fun mem =>
    waits ((g.runnable run).1 u (List.mem_cons_of_mem t mem) notNil).2
  have once : (rest ++ new).count u + (m'.wakers u).length ≤ 1 := ord'.once notNil
  have stands := List.count_pos_iff.2 mem
  exact ⟨List.length_eq_zero_iff.1 (by omega), new, ord'.runnable,
    (List.mem_append.1 mem).resolve_left out⟩

/-- A step leaves the frame of another thread as it is, and the stacks too, unless it completes what
the thread waits for on a channel. That adds a value and the body of the case at most, and the
thread is runnable behind all others. -/
theorem isolated (reached : m.Reached) (run : m.runnable = .ok (t :: rest))
    (ran : step m = .ok more m') (other : u ≠ t)
    (before : m.heap.HasTag .thread u) (after : m'.heap.HasTag .thread u) :
    ∃ control stash frame bodies values, Thread.Holds m.heap u control stash frame ∧
      Thread.Holds m'.heap u (bodies ++ control) (values ++ stash) frame ∧
      (bodies = [] ∧ values = [] ∨ values.length ≤ 1 ∧
      (∃ i w b, m.Parked u i w b ∧ (bodies = [] ∨ bodies = [b])) ∧
        m'.wakers u = [] ∧ ∃ new, m'.runnable = .ok (rest ++ new) ∧ u ∈ new) := by
  obtain ⟨σ₀, g₀, p₀⟩ := reached.poised
  have g := g₀.narrow
  have p := narrowed_poised (F := m.heap.body?) p₀
  obtain ⟨σ', g', passed⟩ := g.step (stands_of_poised p) _ _ ran
  obtain ⟨h, front, -⟩ := reached.front run ran
  have l := (g.leaves before (p u).made).holds
  have l' := (g'.leaves after (passed.poised p u).made).holds
  have notNil : u ≠ .nil := g.sound.ne_nil before.isLive
  rcases passed.apart front other before with same | woken
  · rw [same] at l'
    exact ⟨_, _, _, [], [], l, l', .inl ⟨rfl, rfl⟩⟩
  · obtain ⟨bodies, values, gains, waits, queued, kind⟩ := woken.gains
    rw [gains.control, gains.stash, gains.line] at l'
    refine ⟨_, _, _, bodies, values, l, l', kind.imp_right fun ⟨i, w, b, offer, hb⟩ =>
      ⟨gains.few, ⟨i, w, b, ?_, hb⟩,
      reached.joins g run ran g' notNil waits queued⟩⟩
    obtain ⟨c, hc, tag⟩ := before
    rw [Facts.narrowed_of_thread ⟨_, Heap.body?_eq_some.2 ⟨c, hc, rfl⟩, tag⟩] at offer
    exact reached.parked notNil offer

/-- A thread that waits to receive while another one sends: it gets one value, was parked, and is
runnable in front of the other. -/
theorem isolated_in_rendezvous : ∃ m₀ m₁ m₂ m₃ m₄ m₅ : Machine, ∃ t u control frame bodies v i w b,
    new { heapWords := 1024 } = .ok m₀ ∧ load rendezvousProgram m₀ = .ok () m₁ ∧
    Rendezvous m₁ m₂ m₃ m₄ m₅ t ∧
    u = m₁.mainThread ∧ Thread.Holds m₃.heap u control [] frame ∧
    Thread.Holds m₄.heap u (bodies ++ control) [v] frame ∧ m₃.Parked u i w b ∧ m₄.wakers u = [] ∧
    m₄.runnable = .ok [u, t] := by
  obtain ⟨m₀, m₁, m₂, m₃, m₄, m₅, t, made, loaded, r⟩ := rendezvous
  obtain ⟨-, reached, reached'⟩ := Reached.rendezvous (.load (.new made) loaded) r
  have before := reached.thread (r.threads m₃ (by simp)).1
  have after := reached'.thread (r.threads m₄ (by simp)).1
  obtain ⟨control, stash, frame, bodies, values, l, l', woken⟩ :=
    isolated reached r.sender r.sends r.other before after
  have emptied : stash.length = 0 := by
    simpa [operandsOf, l.stash, Except.toOption] using r.before.1
  have one : (values ++ stash).length = 1 := by
    simpa [operandsOf, l'.stash, Except.toOption] using r.after.1
  obtain rfl := List.length_eq_zero_iff.1 emptied
  rw [List.append_nil] at one l'
  obtain ⟨v, rfl⟩ := List.length_eq_one_iff.1 one
  obtain ⟨-, ⟨i, w, b, parked, -⟩, spent, -⟩ := woken.resolve_left fun same => by cases same.2
  exact ⟨m₀, m₁, m₂, m₃, m₄, m₅, t, _, control, frame, bodies, v, i, w, b, made, loaded, r, rfl, l,
    l', parked, spent,
    r.woken⟩

end Machine
end GoMachine
