import GoMachine.Proofs.Heap.Reports
import GoMachine.Proofs.Schedule.Machine
import GoMachine.Proofs.Tasks.Lowered
import GoMachine.Proofs.Tasks.Rounds
/-!
# Steps of a machine

A machine follows `σ` if that tells what each of its threads has left to do. A step takes the thread
in front of the run queue and makes of what this has left to do what the code of its node says;
others are left alone, or are woken, or are new.

* `Machine.Follows.narrow`: only threads have something to do, and what may wake them is there.
* `Machine.Follows.step`: what a step makes of all threads.
-/
namespace GoMachine

open Heap (maxSlots)
open Code (Stands)

/-- There is a thread at an address. -/
def Facts.IsThread (F : Facts) (u : Address) : Prop := ∃ B, F u = some B ∧ B.tag = .thread

/-- The waiting instances by which a thread may be woken, with their wakers and bodies. -/
def Facts.offers (F : Facts) (u : Address) : Set (Address × Address × Address) :=
  {x | ∃ D E, F x.1 = some D ∧ D.tag = .waitingInstance ∧ D.children[0]? = some x.2.1 ∧
  D.children[2]? = some x.2.2 ∧
    F x.2.1 = some E ∧ E.tag = .waker ∧ E.children[0]? = some u}

/-- What nobody has left to do, as no thread is in such frames. -/
def Task.nobody : Task := { line := [.nil] }

open Classical in
/-- What threads have left to do, as far as there are such threads. -/
noncomputable def Facts.narrowed (F : Facts) (σ : Address → Task) (u : Address) : Task :=
  if F.IsThread u then { σ u with offers := F.offers u } else .nobody

variable {m m' m₀ : Machine} {σ σ' : Address → Task} {F : Facts} {ρ : Roles} {k : Known} {n : Nat}
  {O : Multiset Address} {h : Heap} {t u : Address} {τ : Task}

instance {p : Tag → Bool} : Known.Only p {} := ⟨fun h => nomatch h⟩

namespace Facts

theorem narrowed_of_thread (thread : F.IsThread u) :
    F.narrowed σ u = { σ u with offers := F.offers u } := if_pos thread

theorem narrowed_of_not (other : ¬F.IsThread u) : F.narrowed σ u = .nobody := if_neg other

end Facts

namespace Sees

/-- What has the role of a thread and is there is a thread. -/
theorem isThread (s : Sees ρ σ F) (role : ρ u = .thread) (live : F u ≠ none) : F.IsThread u := by
  obtain ⟨B, hB⟩ := Option.ne_none_iff_exists'.1 live
  have tagged := (s.conforms hB).tagged
  rw [role] at tagged
  exact ⟨B, hB, tagged⟩

/-- It is seen as well of threads only what they have left to do. -/
theorem narrow (s : Sees ρ σ F) (closed : Closed F) : Sees ρ (F.narrowed σ) F := by
  refine { nil := s.nil, dead := s.dead, conforms := s.conforms, single := s.single, shows := ?_,
           place := ?_, offered := ?_,
           queue := ?_ }
  · intro u B hu role
    rw [Facts.narrowed_of_thread (s.isThread role (by simp [hu]))]
    exact ⟨(s.shows hu role).record, (s.shows hu role).codes, (s.shows hu role).filled⟩
  · intro x B u w hx hu notNil keeps
    have role : ρ u = .thread := by
      have slot := ((s.conforms hx).slot hu).resolve_left notNil
      cases e : ρ x with
      | link c =>
        rw [e] at keeps slot
        cases c with
        | runnable => exact slot
        | _ => exact keeps.elim
      | waker => rwa [e] at slot
      | _ => rw [e] at keeps; exact keeps.elim
    rw [Facts.narrowed_of_thread
      (s.isThread role ((closed x B u hx (List.mem_of_getElem? hu)).resolve_left notNil))]
    exact s.place hx hu notNil keeps
  · rintro x w b u ⟨⟨j, waiting⟩, ⟨y, waker⟩, ⟨D, hD, hw, hb⟩, ⟨E, hE, hu⟩, notNil⟩
    have tagD := (s.conforms hD).tagged
    have tagE := (s.conforms hE).tagged
    rw [waiting] at tagD
    rw [waker] at tagE
    have slot := ((s.conforms hE).slot hu).resolve_left notNil
    rw [waker] at slot
    rw [Facts.narrowed_of_thread
      (s.isThread slot ((closed w E u hE (List.mem_of_getElem? hu)).resolve_left notNil))]
    exact ⟨D, E, hD, tagD, hw, hb, hE, tagE, hu⟩
  · intro q B hq role
    obtain ⟨w, front, back, ts, e, queue, stand⟩ := s.queue hq role
    refine ⟨w, front, back, ts, e, queue, fun u notNil queued => ?_⟩
    by_cases thread : F.IsThread u
    · rw [Facts.narrowed_of_thread thread] at queued
      exact stand u notNil queued
    · rw [Facts.narrowed_of_not thread] at queued
      cases queued

end Sees

namespace Machine

/-- What is known of a machine between its steps: it owns its global frame, which is inside of no
other, and its main thread. -/
def known (m : Machine) : Known :=
  (({} : Known).own m.globals (.frame [])).own m.mainThread
  (if m.mainThread = .nil then .loose else .thread)

instance {p : Tag → Bool} : m.known.Only p := ⟨fun h => nomatch h⟩

/-- `σ` tells what each thread of a machine has left to do. -/
def Follows (m : Machine) (σ : Address → Task) : Prop :=
  Knows m.known σ (maxSlots + 20) {m.scheduler} m.heap

/-- What a step makes of what the threads have left to do. -/
inductive Passed (m : Machine) (σ σ' : Address → Task) : Bool → Prop
  | idle {h : Heap} : Scheduler.dequeue m.scheduler m.heap = .ok .nil h → σ' = σ →
      Passed m σ σ' false
  | ended {t : Address} {h : Heap} : Scheduler.dequeue m.scheduler m.heap = .ok t h → t ≠ .nil →
      (σ t).waits = none → (σ t).control = [] →
    σ' = Function.update σ t { σ t with place := none, queued := false } → Passed m σ σ' true
  | turn {t : Address} {h : Heap} {e : Entry} {rest : List Entry} :
      Scheduler.dequeue m.scheduler m.heap = .ok t h → t ≠ .nil → (σ t).waits = none →
    (σ t).control = e :: rest →
    Task.Turns { σ t with control := rest, place := none, queued := false } e.code (σ' t) →
    Joined m.heap.body? t { σ t with control := rest, place := none, queued := false } σ σ' →
    Passed m σ σ' true

/-- The thread of a turn has what the machine has. -/
theorem turn_yields {x : TurnM Unit} {Q : Turn → Prop}
    (hx : Yields x { heap := m.heap, random := m.random, output := m.output, scheduler :=
        m.scheduler, thread := t }
      fun _ s' => Q s') :
    Yields (turn t x) m fun _ m' => ∃ s', Q s' ∧
        m' = { m with heap := s'.heap, random := s'.random, output := s'.output } := by
  intro _ m' run
  simp only [turn] at run
  split at run
  · next e =>
    cases run
    exact ⟨_, hx _ _ e, rfl⟩
  · cases run

/-- What is known is known after a collection. -/
theorem collect_knows (g : Knows m₀.known σ n O m.heap)
    (owned : ∀ a ∈ O + m₀.known.stays, a ∈ [m.scheduler, m.mainThread, m.globals]) :
    Yields collect m fun _ m' => Knows m₀.known σ n O m'.heap := by
  refine .get (liftHeap fun r h' run => ?_)
  obtain ⟨h₁, run₁, x, shrinks, -⟩ := g.owns.exact.markAndSweep owned
  obtain rfl : h₁ = h' := by
    rw [run₁] at run
    cases run
    rfl
  have sub := Heap.Shrinks.body?_sub shrinks
  exact g.still ⟨⟨x, g.owns.spare⟩, nofun, g.held, g.shaped.sub sub⟩ fun ρ seen _ =>
    seen.sub sub x.closed_body

/-- Nothing else becomes of a machine when it is recorded. -/
theorem record_heap : Yields record m fun _ m' => m'.heap = m.heap := by
  refine .get ?_
  split
  · exact inspect fun _ _ => .modify rfl
  · exact .pure rfl

end Machine

theorem Joined.anti {F' : Facts} (same : F.SameThreads F') (joined : Joined F' t τ σ σ') :
    Joined F t τ σ σ' := fun u hu =>
  (joined u hu).imp_right (.imp_right fun ⟨new, starts⟩ =>
  ⟨fun B hB tag => new B (same hB tag) tag, starts⟩)

namespace Machine

/-- A thread that was taken off the run queue is known to be one while it runs. -/
theorem runner (g : Knows m₀.known σ n (t ::ₘ O) h)
    (thread : m₀.known.Finds σ h fun ρ => ρ t = .thread) (notNil : t ≠ .nil) :
    ∃ k : Known, k.KeptByTurns ∧ k.Runner t ∧ Knows k σ n O h ∧
      (m₀.known.own t .thread).Within k ∧ k.stays = (m₀.known.own t .thread).stays := by
  have g₁ := g.own thread
  obtain ⟨⟨_, fs, cs⟩, hD, tag⟩ : Facts.IsThread h.body? t := by
    obtain ⟨ρ, seen, -, role⟩ := thread
    exact seen.isThread role ((g.live_of_mem (Multiset.mem_cons_self ..)).resolve_left notNil)
  obtain rfl : _ = Tag.thread := tag
  have kept : t ∈ (m₀.known.own t .thread).stays := Multiset.mem_cons_self t m₀.known.stays
  exact ⟨(m₀.known.own t .thread).learn t ⟨.thread, fs, cs⟩, Known.Only.learn rfl,
    ⟨⟨fs, cs, Function.update_self ..⟩, .inr (.inl kept)⟩, g₁.learn hD (.inr (.inl kept)),
    g₁.within_learn hD, rfl⟩

/-- The node in front comes off the control of the thread that runs. -/
theorem popTop [k.KeptByTurns] [k.Runner t] {control : Address} {e : Entry} {rest : List Entry}
    (g : Knows k σ (n + 3) O m.heap) (read : Thread.control t m.heap = .ok control)
    (first : (σ t).control = e :: rest) :
    Yields (Stack.pop control) m.heap fun node h₁ =>
      Knows k (Function.update σ t { σ t with control := rest }) (n + 2) (node ::ₘ O) h₁ ∧
      k.Finds (Function.update σ t { σ t with control := rest }) h₁
        (fun ρ => ρ node = .code e.code) ∧
      Facts.SameThreads m.heap.body? h₁.body? := by
  let s : Turn := { heap := m.heap, random := m.random, output := m.output,
                    scheduler := m.scheduler, thread := t }
  have p : Plays t k σ (σ t) (n + 3) O s := ⟨rfl, by rwa [Function.update_eq_self]⟩
  obtain ⟨_, _, -, ht, hst⟩ := p.pile_read (i := 0) read
  intro node h₁ run
  have ran : (liftM (Stack.pop control) : TurnM Address) s = .ok node { s with heap := h₁ } := by
    simp only [liftM, monadLift, MonadLift.monadLift, s, run]
  have same := p.knows.pop_threads (p := .control) ht hst _ _ run
  obtain ⟨-, ended⟩ | ⟨-, e', rest', hτ, -, p₁, role⟩ := p.popNode read _ _ ran
  · simp [first] at ended
  · obtain ⟨rfl, rfl⟩ : e = e' ∧ rest = rest' := by simpa [first] using hτ
    exact ⟨p₁.knows, role, same⟩

/-- The node runs. -/
theorem reduceTop [k.KeptByTurns] [k.Runner t] {node : Address} {c : Code}
    (g : Knows k (Function.update σ t τ) (maxSlots + 18) (node ::ₘ O) m.heap)
    (role : k.Finds (Function.update σ t τ) m.heap fun ρ => ρ node = .code c) (st : Stands c)
    (free : τ.place = none) (runs : τ.waits = none) :
    Yields (turn t (reduce node)) m fun _ m' => ∃ σ' τ',
      Knows (k.own node (.code c)) (Function.update σ' t τ') (maxSlots + 16) O m'.heap ∧
      Joined m.heap.body? t τ σ σ' ∧ Task.Turns τ c τ' := by
  have contains : (k.own node (.code c)).Contains node c := .noted (List.mem_cons_self ..)
  have plays : Plays t (k.own node (.code c)) σ τ (0 + maxSlots + 16) O
      { heap := m.heap, random := m.random, output := m.output, scheduler := m.scheduler,
        thread := t } := ⟨rfl, (g.own role).weaken (by omega)⟩
  refine (turn_yields (reduce_schedules st plays contains free runs)).mono ?_
  rintro _ m' ⟨s', ⟨σ', τ', p', joined, turns⟩, rfl⟩
  exact ⟨σ', τ', p'.knows.weaken (by omega), joined, turns⟩

/-- What the machine does behind a turn changes nothing of what is known. -/
theorem endTop {j : Nat} (g : Knows m₀.known σ j {m₀.scheduler} m.heap)
    (has : Has m₀ n m₀.handles m) :
    Yields (do
        modify fun m => { m with steps := m.steps + 1 }
        record
        collectIfDue : MachineM Unit) m fun _ m' =>
      Knows m₀.known σ j {m₀.scheduler} m'.heap := by
  refine (Yields.modify (Q := fun _ m' => m'.heap = m.heap ∧ Has m₀ n m₀.handles m') ?_).bind
    fun _ m₁ ⟨same, has₁⟩ => ?_
  · exact ⟨rfl, has.scheduler, has.globals, has.mainThread, has.owns⟩
  refine (record_heap.and has₁.record.yields).bind fun _ m₂ ⟨same', has₂⟩ => .get ?_
  rw [← same, ← same'] at g
  split
  · refine (collect_knows g fun a ha => ?_).bind fun _ _ g => .pure g
    rw [has₂.scheduler, has₂.mainThread, has₂.globals]
    simp only [known, Known.own, Known.hold, Known.note, Multiset.mem_add, Multiset.mem_cons,
      Multiset.mem_singleton] at ha
    simp only [List.mem_cons, List.not_mem_nil, or_false]
    tauto
  · exact .pure g

/-- The thread in front has its turn. -/
theorem runTop_follows {control : Address} {e : Entry} {rest : List Entry}
    (has : Has m₀ (n + 3) (t ::ₘ m₀.handles) m) (room : maxSlots + 16 ≤ n)
    (g : Knows m₀.known σ (maxSlots + 19) (t ::ₘ {m₀.scheduler}) m.heap)
    (thread : m₀.known.Finds σ m.heap fun ρ => ρ t = .thread) (notNil : t ≠ .nil)
    (read : Thread.control t m.heap = .ok control) (first : (σ t).control = e :: rest)
    (st : Stands e.code)
    (free : (σ t).place = none) (runs : (σ t).waits = none) :
    Yields (runTop t control) m fun _ m' =>
    ∃ σ', Knows m₀.known σ' (maxSlots + 16) {m₀.scheduler} m'.heap ∧
      Task.Turns { σ t with control := rest } e.code (σ' t) ∧
      Joined m.heap.body? t { σ t with control := rest } σ σ' := by
  obtain ⟨k, _, _, g₁, within, stays⟩ := runner g thread notNil
  refine ((acts (popTop (n := maxSlots + 16) g₁ read first)).and
    (has.act (Stack.pop_owns has.owns)).yields).bind fun node m₁ ⟨⟨g₂, role, same⟩, has⟩ => ?_
  have reduced := (reduceTop g₂ role st free runs).and (has.turn (by omega)).yields
  refine (Yields.attempt (E := fun r m' => r = .ok () → (∃ σ' τ',
      Knows (k.own node (.code e.code)) (Function.update σ' t τ') (maxSlots + 16)
        {m₀.scheduler} m'.heap ∧
      Joined m₁.heap.body? t { σ t with control := rest } σ σ' ∧
      Task.Turns { σ t with control := rest } e.code τ') ∧
        Has m₀ (n + 2) (node ::ₘ t ::ₘ m₀.handles) m') reduced
    (fun _ _ done _ => done) fun _ _ e => nomatch e).bind fun result m₂ done => ?_
  cases result with
  | error e => exact Yields.any.bind fun _ _ _ => Yields.any.bind fun _ _ _ =>
      (Yields.conclude_error (Q := fun _ _ => False)).bind fun _ _ h => h.elim
  | ok _ =>
    obtain ⟨⟨σ', τ', g₃, joined, turns⟩, has⟩ := done rfl
    have freed : Yields (HeapM.free node) m₂.heap fun _ h' =>
        Knows m₀.known (Function.update σ' t τ') (maxSlots + 16) (t ::ₘ {m₀.scheduler}) h' := by
      refine (g₃.disown g₂.wf).free.mono fun _ _ g₄ => ?_
      exact (g₄.forget within stays (g.own thread).wf).disown g.wf
    refine ((onHeap freed).and has.free.yields).bind fun _ m₃ ⟨g₄, has⟩ => ?_
    refine ((onHeap g₄.free).and has.free.yields).bind fun _ m₄ ⟨g₅, has⟩ => ?_
    refine (Yields.conclude (Q := fun _ m' => m' = m₄) fun _ _ => rfl).bind fun _ m₅ e => ?_
    subst e
    refine (endTop g₅ has).mono fun _ m₆ g₆ => ⟨_, g₆, ?_, fun u hu => ?_⟩
    · rwa [Function.update_self]
    · rw [Function.update_of_ne hu]
      exact joined.anti same u hu

/-- What a machine owns, be it known or not. -/
theorem known_handles : {m.scheduler} + m.known.stays = m.handles := by
  simp only [handles, known, Known.own, Known.hold, Known.note, Multiset.insert_eq_cons,
    ← Multiset.singleton_add]
  abel

theorem Follows.accounted (g : m.Follows σ) : m.Accounted := by
  have exact := g.owns.exact
  rwa [known_handles] at exact

theorem Follows.narrow (g : m.Follows σ) : m.Follows (Facts.narrowed m.heap.body? σ) :=
  Knows.still g g.toRetains fun _ seen _ => seen.narrow g.closed

/-- The handles of the machine have not changed, and as much is known as before. -/
theorem Follows.renew {j : Nat} (g : m.Follows σ) (has : Has m n O m')
    (g' : Knows m.known σ' j {m.scheduler} m'.heap) :
    m'.Follows σ' := by
  have same : m'.known = m.known := by rw [known, known, has.globals, has.mainThread]
  rw [Follows, same, has.scheduler]
  exact Knows.restore g g'

/-- A step makes of what the thread in front has left to do what its code says. -/
theorem Follows.step (g : m.Follows σ) (stands : ∀ t e rest, (σ t).control = e :: rest →
    Stands e.code) :
    Yields step m fun more m' => ∃ σ', m'.Follows σ' ∧ m.Passed σ σ' more := by
  obtain ⟨n, room, has⟩ := g.accounted.has
  have apart : m.handles = 0 + m.handles := (zero_add _).symm
  have kept : Yields Machine.step m fun _ m' => ∃ j O, Has m j O m' := by
    rw [apart] at has
    refine (Ends.yields (has.step room)).mono ?_
    rintro _ _ ⟨_, _, has⟩
    exact ⟨_, _, has⟩
  suffices steps : Yields Machine.step m fun more m' =>
    ∃ σ' j, Knows m.known σ' j {m.scheduler} m'.heap ∧
      m.Passed σ σ' more by
    refine (steps.and kept).mono ?_
    rintro _ _ ⟨⟨σ', j, g', passed⟩, _, _, has⟩
    exact ⟨σ', g.renew has g', passed⟩
  have wide : Knows m.known σ (maxSlots + 16 + 4) {m.scheduler} m.heap := g
  have front : Yields (Scheduler.dequeue m.scheduler) m.heap fun t h =>
    Scheduler.dequeue m.scheduler m.heap = .ok t h :=
    fun _ _ run => run
  refine .get (((acts (wide.scheduled.and (wide.scheduled_threads.and front))).and
    (has.act (Scheduler.dequeue_owns has.owns)).yields).bind ?_)
  rintro t m₁ ⟨⟨came, same, front⟩, has⟩
  rcases came with ⟨rfl, g₁⟩ | ⟨notNil, runs, g₁, thread⟩
  · exact .pure ⟨σ, _, g₁, .idle front rfl⟩
  rw [if_neg (by simpa [← Address.isNil_iff] using notNil)]
  refine inspect fun control read => inspect fun empty isEmpty => ?_
  obtain ⟨_, fs, cs, ht, hst⟩ : ∃ B fs cs, m₁.heap.body? t = some ⟨.thread, fs, cs⟩ ∧
    cs[0]? = some control := by
    obtain ⟨D, hD, tag, hst⟩ := g₁.sound.child_read read
    exact ⟨D, D.fields, D.children, by rw [hD, ← tag], hst⟩
  have first := g₁.isEmpty (p := .control) ht hst isEmpty
  rw [Function.update_self, Task.pile, List.isEmpty_map] at first
  cases hτ : (σ t).control with
  | nil =>
    rw [hτ] at first
    rw [first, List.isEmpty_nil, if_pos rfl]
    exact (onHeap g₁.free).bind fun _ _ g₂ => .pure ⟨_, _, g₂, .ended front notNil runs hτ rfl⟩
  | cons e rest =>
    rw [hτ] at first
    rw [first, List.isEmpty_cons, if_neg Bool.false_ne_true]
    let τ : Task := { σ t with place := none, queued := false }
    have now : Function.update σ t τ t = τ := Function.update_self ..
    have first : (Function.update σ t τ t).control = e :: rest := by rw [now]; exact hτ
    refine (runTop_follows has room g₁ thread notNil read first (stands t e rest hτ) (by rw [now])
      (by rw [now]; exact runs)).bind ?_
    rintro _ m₂ ⟨σ', g₂, turned, joined⟩
    refine .pure ⟨σ', _, g₂, ?_⟩
    rw [now] at turned joined
    refine .turn front notNil runs hτ turned fun u hu => ?_
    have := joined.anti same u hu
    rwa [Function.update_of_ne hu] at this

end Machine
end GoMachine
