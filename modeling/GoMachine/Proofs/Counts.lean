import GoMachine.Proofs.Heap.Collect
import GoMachine.Proofs.Owns.Machine
/-!
# Reference counts of a machine

A machine owns three references: its scheduler, its global frame and its main thread. Whatever
programs it loads and however it runs, the count of each record is the number of child slots that
hold its address plus the number of these handles that do.

* `Machine.step_accounted`: a step that succeeds keeps the counts exact.
* `Machine.counts_exact`: the counts of a machine are exact after any run of successful steps, so
  what is lost is on or behind a cycle of references, and without cycles there is nothing to
  collect.
-/
namespace GoMachine

open Heap (Owns Exact Leaks Within laden maxSlots)

variable {m m' m₀ : Machine} {O : Multiset Address} {n : Nat}

namespace Machine

/-- The references that a machine owns. -/
def handles (m : Machine) : Multiset Address := {m.scheduler, m.globals, m.mainThread}

/-- The counts of a machine are exact. -/
def Accounted (m : Machine) : Prop := Exact 0 m.handles m.heap

/-- A machine has the handles of another one and owns `O`. -/
structure Has (m₀ : Machine) (n : Nat) (O : Multiset Address) (m : Machine) : Prop where
  scheduler : m.scheduler = m₀.scheduler
  globals : m.globals = m₀.globals
  mainThread : m.mainThread = m₀.mainThread
  owns : Owns 0 n O m.heap

theorem Has.handles_eq (has : Has m₀ n O m) : m.handles = m₀.handles := by
  rw [handles, handles, has.scheduler, has.globals, has.mainThread]

/-- A machine has room for whatever a step does. -/
theorem Accounted.has (acc : m.Accounted) : ∃ n, maxSlots + 16 ≤ n ∧ Has m (n + 4) m.handles m := by
  refine ⟨maxSlots + 16, le_rfl, rfl, rfl, rfl, acc, by simp [maxSlots, Heap.limit], fun a _ => ?_⟩
  have := m.handles.count_le_card a
  simp only [handles, Multiset.insert_eq_cons, Multiset.card_cons, Multiset.card_singleton,
    Heap.limit, maxSlots] at *
  omega

theorem Has.accounted (has : Has m₀ n m₀.handles m) : m.Accounted := by
  rw [Accounted, has.handles_eq]
  exact has.owns.exact

/-- A machine has the handles of another one, and nobody has dropped the references `F`. -/
structure Spared (m₀ : Machine) (F : Multiset Address) (m : Machine) : Prop where
  scheduler : m.scheduler = m₀.scheduler
  globals : m.globals = m₀.globals
  mainThread : m.mainThread = m₀.mainThread
  leaks : Leaks 0 F m.heap

/-- A computation ends as `Q` says, or fails and leaves the handles and the references `F` alone. -/
def Spares {α : Type} (m₀ : Machine) (F : Multiset Address) (x : MachineM α) (m : Machine)
    (Q : α → Machine → Prop) : Prop := Ends (fun _ => Spared m₀ F) x m Q

theorem Spares.yields {α : Type} {x : MachineM α} {Q : α → Machine → Prop}
    (hx : Spares m₀ 0 x m Q) :
    Yields x m Q := Ends.yields hx

/-! ## One step -/

section Rules

variable {α β : Type} {F L : Multiset Address} {R : β → Machine → Prop} {k : Nat}

theorem lift {x : Action α} {Q : α → Machine → Prop}
    (hx : Yields x m.heap fun a heap => Q a { m with heap }) :
    Yields (liftM x : MachineM α) m Q := by
  intro a m' run
  simp only [liftM, monadLift, MonadLift.monadLift] at run
  split at run
  · next e =>
    cases run
    exact hx _ _ e
  · cases run

theorem liftHeap_ok {x : HeapM α} {a : α} {h : Heap} (e : x m.heap = .ok a h) :
    (liftM x : MachineM α) m = .ok a { m with heap := h } := by
  have e : (liftM x : Action α) m.heap = .ok a h := lift_heap_ok.2 e
  simp only [liftM, monadLift, MonadLift.monadLift] at e ⊢
  rw [e]

/-- A question in front of other things. -/
theorem inspect {q : Query α} {f : α → MachineM β} (hf : ∀ a, q m.heap = .ok a → Yields (f a) m R) :
    Yields (liftM q >>= f) m R := by
  refine (lift (x := liftM q) (Q := fun a m' => q m.heap = .ok a ∧ m' = m)
    (.query fun a e => ⟨e, rfl⟩)).bind fun a m' ⟨e, same⟩ => ?_
  subst same
  exact hf a e

theorem Has.spared [Within F O] (has : Has m₀ n O m) : Spared m₀ F m :=
  ⟨has.scheduler, has.globals, has.mainThread, .of has.owns⟩

/-- What an action on the heap does is all that it does to the machine. -/
theorem Has.act {x : Action α} {K : α → Multiset Address} (has : Has m₀ n O m)
    (hx : Pays 0 F x m.heap fun a h => Owns 0 k (K a) h) :
    Spares m₀ F (liftM x) m fun a m' => Has m₀ k (K a) m' := by
  rcases hx with ⟨a, h, run, owns⟩ | ⟨e, h, run, leaks⟩
  · refine .inl ⟨a, { m with heap := h }, ?_, has.scheduler, has.globals, has.mainThread, owns⟩
    simp only [liftM, monadLift, MonadLift.monadLift, run]
  · refine .inr ⟨e, { m with heap := h }, ?_, has.scheduler, has.globals, has.mainThread, leaks⟩
    simp only [liftM, monadLift, MonadLift.monadLift, run]

theorem Has.onHeap {x : HeapM α} {K : α → Multiset Address} (has : Has m₀ n O m)
    (hx : Pays 0 F x m.heap fun a h => Owns 0 k (K a) h) :
    Spares m₀ F (liftM x) m fun a m' => Has m₀ k (K a) m' :=
  has.act hx.heap

theorem Has.free {a : Address} (has : Has m₀ n (a ::ₘ O) m) :
    Spares m₀ F (HeapM.free a) m fun _ m' => Has m₀ n O m' :=
  has.onHeap (K := fun _ => O) has.owns.free

/-- A reference is dropped after something has failed. -/
theorem Spared.free {a : Address} (spared : Spared m₀ (a ::ₘ F) m) :
    Gives (liftM (HeapM.free a) : MachineM Unit) m fun _ m' => Spared m₀ F m' := by
  obtain ⟨u, h, run, leaks⟩ := spared.leaks.free
  exact ⟨u, _, liftHeap_ok run, spared.scheduler, spared.globals, spared.mainThread, leaks⟩

/-- A question in front of other things. -/
theorem Has.inspect [Within F O] {q : Query α} {f : α → MachineM β} (has : Has m₀ n O m)
    (hf : ∀ a, q m.heap = .ok a → Spares m₀ F (f a) m R) : Spares m₀ F (liftM q >>= f) m R := by
  refine Ends.bind (Q := fun a m' => q m.heap = .ok a ∧ m' = m) ?_ fun a m' ⟨e, same⟩ =>
    same ▸ hf a e
  unfold Ends Gives
  cases e : q m.heap with
  | ok a => exact .inl ⟨a, m, by simp [liftM, monadLift, MonadLift.monadLift, e], rfl, rfl⟩
  | error e' => exact .inr ⟨e', m, by simp [liftM, monadLift, MonadLift.monadLift, e], has.spared⟩

end Rules

variable {F L : Multiset Address}

theorem reduce_keeps {P : Multiset Address} {node : Address} : Keeps P (reduce node) := by
  intro n F O s _ own
  refine .look own fun tag _ => ?_
  have keeps := @Rule.keeps P node tag
  split
  · exact .get (.throw own)
  · next e =>
    rw [e] at keeps
    exact (keeps own).bind fun _ _ own => TurnM.enqueueCurrent_owns own
  · next e =>
    rw [e] at keeps
    exact keeps own

theorem Has.turn {t node : Address} [Within F O] (has : Has m₀ n O m) (room : maxSlots + 16 ≤ n) :
    Spares m₀ F (turn t (reduce node)) m fun _ m' => Has m₀ n O m' := by
  have own : Owns 0 (0 + maxSlots + 16) O m.heap := has.owns.weaken (by omega)
  let s : Turn := {
    heap := m.heap, random := m.random, output := m.output, scheduler := m.scheduler, thread := t }
  have keeps : Keeps 0 (reduce node) := reduce_keeps
  rcases keeps (F := F) (s := s) own with ⟨u, s', run, own'⟩ | ⟨e, s', run, leaks⟩
  · refine .inl ⟨⟨⟩, { m with heap := s'.heap, random := s'.random, output := s'.output }, ?_,
      has.scheduler,
      has.globals, has.mainThread, own'.tighten has.owns.spare⟩
    simp only [Machine.turn, s] at run ⊢
    rw [run]
  · refine .inr ⟨e, { m with heap := s'.heap, random := s'.random, output := s'.output }, ?_,
      has.scheduler,
      has.globals, has.mainThread, leaks⟩
    simp only [Machine.turn, s] at run ⊢
    rw [run]

theorem mem_roots {a : Address} (ha : a ∈ m.handles) :
    a ∈ [m.scheduler, m.mainThread, m.globals] := by
  simp only [handles, Multiset.insert_eq_cons, Multiset.mem_cons, Multiset.mem_singleton] at ha
  simp only [List.mem_cons, List.not_mem_nil, or_false]
  tauto

/-- A collection drops what the handles do not lead to, be it owned by somebody or not. -/
theorem Has.collect (has : Has m₀ n (L + m₀.handles) m) :
    Gives collect m fun _ m' => ∃ L' ≤ L, Has m₀ n (L' + m₀.handles) m' := by
  refine .get ?_
  obtain ⟨h', run, x, -⟩ := has.owns.exact.collects (R := [m.scheduler, m.mainThread, m.globals])
  have kept : ∀ a ∈ m₀.handles, a.index ∉ m.heap.unreached m.heap.live
      (m.heap.pinned ++ [m.scheduler, m.mainThread, m.globals]) := fun a ha =>
    Heap.not_mem_unreached (mem_roots (has.handles_eq ▸ ha))
  rw [Multiset.filter_add, Multiset.filter_eq_self.2 kept] at x
  refine ⟨_, _, liftHeap_ok run, _, Multiset.filter_le _ L, has.scheduler, has.globals,
    has.mainThread, x, ?_⟩
  exact has.owns.spare.anti (add_le_add_left (Multiset.filter_le _ L) _)

theorem Has.record [Within F O] (has : Has m₀ n O m) : Spares m₀ F record m fun _ m' =>
    Has m₀ n O m' := by
  refine Ends.get ?_
  split
  · exact has.inspect fun _ _ =>
      (Gives.modify ⟨has.scheduler, has.globals, has.mainThread, has.owns⟩).ends
  · exact Ends.pure has

theorem Has.collectIfDue (has : Has m₀ n (L + m₀.handles) m) :
    Gives collectIfDue m fun _ m' => ∃ L' ≤ L, Has m₀ n (L' + m₀.handles) m' := by
  refine .get ?_
  split
  · exact has.collect.bind fun _ _ has => .pure has
  · exact .pure ⟨L, le_rfl, has⟩

/-- The thread and the node that were taken out of their queues are dropped again. -/
theorem Has.runTop {t control : Address} (has : Has m₀ (n + 3) (t ::ₘ (L + m₀.handles)) m)
    (room : maxSlots + 16 ≤ n) :
    Spares m₀ m₀.handles (runTop t control) m fun _ m' => ∃ L' ≤ L,
    Has m₀ (n + 2) (L' + m₀.handles) m' := by
  refine Ends.bind (has.act (Stack.pop_owns has.owns)) fun node m₁ has => ?_
  have turned : Spares m₀ (node ::ₘ t ::ₘ m₀.handles) (Machine.turn t (reduce node)) m₁ _ :=
    has.turn (by omega)
  refine turned.attempt.before ?_
  rintro _ m₂ (⟨_, rfl, has⟩ | ⟨e, rfl, spared⟩)
  · refine Ends.bind has.free fun _ m₃ has => Ends.bind has.free fun _ m₄ has => ?_
    refine Gives.before (Q := fun _ m' => Has m₀ (n + 2) (L + m₀.handles) m') ⟨_, m₄, rfl, has⟩
      fun _ m₅ has => ?_
    refine Gives.before (Q := fun _ m' => Has m₀ (n + 2) (L + m₀.handles) m')
      (.modify ⟨has.scheduler, has.globals, has.mainThread, has.owns⟩) fun _ m₆ has => ?_
    exact Ends.bind has.record fun _ m₇ has => has.collectIfDue.ends
  · refine spared.free.before fun _ m₃ spared => spared.free.before fun _ m₄ spared => ?_
    exact Ends.bind (Q := fun _ _ => False) (.inr ⟨e, m₄, rfl, spared⟩) fun _ _ h => h.elim

/-- A step uses up nothing that somebody owns. If it fails, it may leave more references behind. -/
theorem Has.step (has : Has m₀ (n + 4) (L + m₀.handles) m) (room : maxSlots + 16 ≤ n) :
    Spares m₀ m₀.handles step m fun _ m' => ∃ L' ≤ L, Has m₀ (n + 4) (L' + m₀.handles) m' := by
  have spare := has.owns.spare
  have renew : ∀ {m' : Machine} {k : Nat} {L' : Multiset Address}, L' ≤ L →
    Has m₀ k (L' + m₀.handles) m' →
      Has m₀ (n + 4) (L' + m₀.handles) m' := fun le has =>
    ⟨has.scheduler, has.globals, has.mainThread,
    has.owns.tighten (spare.anti (add_le_add_left le _))⟩
  refine Ends.get (Ends.bind (has.act (Scheduler.dequeue_owns has.owns)) fun t m₁ has => ?_)
  split
  · next e =>
    rw [Address.isNil_iff.1 e] at has
    exact Ends.pure ⟨L, le_rfl, renew le_rfl
      ⟨has.scheduler, has.globals, has.mainThread, Owns.cons_nil.1 has.owns⟩⟩
  refine has.inspect fun control _ => has.inspect fun empty _ => ?_
  split
  · exact Ends.bind has.free fun _ m₂ has => Ends.pure ⟨L, le_rfl, renew le_rfl has⟩
  · exact Ends.bind (has.runTop room) fun _ m₂ ⟨L', le, has⟩ => Ends.pure ⟨L', le, renew le has⟩

/-- A step that succeeds keeps the counts exact. -/
theorem step_accounted (acc : m.Accounted) : Yields step m fun _ m' => m'.Accounted := by
  obtain ⟨n, room, has⟩ := acc.has
  have unowned : m.handles = 0 + m.handles := (zero_add _).symm
  rw [unowned] at has
  refine (Ends.yields (has.step room)).mono fun _ m' ⟨L', le, has⟩ => ?_
  rw [nonpos_iff_eq_zero.1 le, zero_add] at has
  exact has.accounted

/-- So does a collection at any time. -/
theorem collect_accounted (acc : m.Accounted) : Yields collect m fun _ m' => m'.Accounted := by
  obtain ⟨n, -, has⟩ := acc.has
  have unowned : m.handles = 0 + m.handles := (zero_add _).symm
  rw [unowned] at has
  refine has.collect.yields.mono fun _ m' ⟨L', le, has⟩ => ?_
  rw [nonpos_iff_eq_zero.1 le, zero_add] at has
  exact has.accounted

/-! ## New machines and programs -/

theorem start_owns {scheduler globals node : Address} {P F O : Multiset Address} {h : Heap}
    [Within F O]
    (own : Owns P (n + 2) (node ::ₘ O) h) :
    Pays P F (start scheduler globals node) h fun t h' => Owns P (n + 2) (t ::ₘ O) h' := by
  refine (Scheduler.nextId_owns own).bind fun id h₁ own => ?_
  refine (Thread.create_owns own).bind fun main h₂ own => .read own fun control _ => ?_
  refine (Stack.pushOwned_owns own.swap).bind fun _ h₃ own => ?_
  exact (Scheduler.enqueue_owns own).bind fun _ h₄ own => .pure own

/-- The new main thread takes the place of the old one. -/
theorem Has.load {program : Program} (has : Has m (n + 4) (L + m.handles) m) :
    Spares m m.handles (load program) m fun _ m' => Has m' (n + 4) (L + m'.handles) m' := by
  refine Ends.get (Ends.bind (has.act (Lowering.load_owns has.owns)) fun node m₁ has => ?_)
  refine Ends.bind (has.act (start_owns has.owns)) fun main m₂ has => ?_
  let renewed : Machine := { m with mainThread := main }
  have rotated : main ::ₘ (L + m.handles) = m.mainThread ::ₘ (L + renewed.handles) := by
    simp only [handles, renewed, Multiset.insert_eq_cons, ← Multiset.singleton_add]
    abel
  have owned := rotated ▸ has.owns
  refine Gives.before (Q := fun _ m' =>
    Has renewed (n + 4) (m.mainThread ::ₘ (L + renewed.handles)) m')
    (.modify ⟨has.scheduler, has.globals, rfl, owned⟩) fun _ m₃ has => ?_
  obtain ⟨u, h', run, owned⟩ := has.owns.frees
  refine .inl ⟨u, _, liftHeap_ok run, rfl, rfl, rfl, ?_⟩
  have same : handles { m₃ with heap := h' } = renewed.handles := by
    simp only [handles, has.scheduler, has.globals, has.mainThread]
  rw [same]
  exact owned

theorem load_accounted {program : Program} (acc : m.Accounted) :
    Yields (load program) m fun _ m' => m'.Accounted := by
  obtain ⟨n, -, has⟩ := acc.has
  have unowned : m.handles = 0 + m.handles := (zero_add _).symm
  rw [unowned] at has
  refine (Ends.yields has.load).mono fun _ m' has => ?_
  rw [zero_add] at has
  exact has.accounted

theorem new_accounted {settings : Settings} (e : new settings = .ok m) : m.Accounted := by
  obtain ⟨h, hh, e⟩ := except_bind_ok.1 e
  have x : Exact 0 0 h := by
    cases made : Heap.new settings.heapWords with
    | error _ => simp [made, Except.mapError] at hh
    | ok h' =>
      simp only [made, Except.mapError, Except.ok.injEq] at hh
      exact hh ▸ .new made
  have own : Owns 0 1 0 h := ⟨x, by decide, fun a _ => by simp [Heap.limit]⟩
  have made : Pays 0 0
    (do return (← Scheduler.create, ← Frame.create .nil) : Action (Address × Address)) h
      fun pair h' => Owns 0 1 (pair.2 ::ₘ pair.1 ::ₘ 0) h' :=
    (Scheduler.create_owns own).bind fun _ _ own => (Frame.create_owns own).bind
      fun _ _ own => .pure own
  split at e
  · cases e
  · next scheduler globals h' run =>
    obtain rfl := except_pure_ok.1 e
    refine (made.yields _ _ run).exact.congr fun a ha => ?_
    simp only [handles, Multiset.insert_eq_cons, ← Multiset.singleton_add, Multiset.count_add,
      Multiset.count_zero, Multiset.count_singleton, if_neg ha]
    omega

/-! ## Runs -/

/-- A machine that comes about by loading programs, by steps and by collections that all succeed, in
any order. -/
inductive Reached : Machine → Prop
  | new {settings : Settings} {m : Machine} : Machine.new settings = .ok m → Reached m
  | load {m m' : Machine} {program : Program} : Reached m → load program m = .ok () m' → Reached m'
  | step {m m' : Machine} {more : Bool} : Reached m → step m = .ok more m' → Reached m'
  | collect {m m' : Machine} {k : Nat} : Reached m → collect m = .ok k m' → Reached m'

theorem Reached.accounted (reached : Reached m) : m.Accounted := by
  induction reached with
  | new made => exact new_accounted made
  | load _ run ih => exact load_accounted ih _ _ run
  | step _ run ih => exact step_accounted ih _ _ run
  | collect _ run ih => exact collect_accounted ih _ _ run

/-- What exact counts come to. -/
structure Counted (m : Machine) : Prop where
  /-- Each count is the number of child slots and of handles that hold the address. -/
  refCount : ∀ a, m.heap.isLive a → ∃ w, m.heap.refCount a = .ok w ∧ w ≠ 0 ∧
    w.toNat = m.heap.edges.count a + m.handles.count a
  slots : ∀ a c b, m.heap.cell? a = some c → b ∈ c.children → b = .nil ∨ m.heap.isLive b
  lost : ∀ a, m.heap.isLive a → (∀ b ∈ m.handles, ¬m.heap.Leads b a) →
    ∃ b, Relation.TransGen m.heap.Points b b ∧ m.heap.Leads b a
  acyclic : (∀ a, ¬Relation.TransGen m.heap.Points a a) → ∃ m', collect m = .ok 0 m'

theorem counts_exact (reached : Reached m) : m.Counted := by
  have x : Exact 0 m.handles m.heap := reached.accounted
  refine ⟨fun a hl => ?_, fun a c b hc hb => ?_, fun a hl lost =>
      x.behind_cycle hl (by simpa using lost),
    fun acyclic => ?_⟩
  · have hc := Heap.cell?_eq_some.2 ⟨hl, rfl⟩
    have idle := x.idle hc
    have pins := x.pins hc
    refine ⟨_, x.sound.refCount_ok.2 (.inr ⟨_, hc, rfl⟩), fun h0 => idle h0 ?_, ?_⟩
    · exact UInt16.toNat_inj.1 pins
    · rw [x.count hc, Multiset.count_add, Nat.add_comm]
  · exact x.closed (by simp [Heap.mem_edges.2 ⟨a, c, hc, hb⟩])
  · have cover : ∀ a ∈ m.handles, a ∈ [m.scheduler, m.mainThread, m.globals] := fun _ => mem_roots
    obtain ⟨h', run, -⟩ := x.markAndSweep cover
    rw [x.unreached_eq_zero acyclic cover] at run
    exact ⟨_, bind_ok.2 ⟨m, m, get_ok.2 ⟨rfl, rfl⟩, liftHeap_ok run⟩⟩

/-! ## A rendezvous -/

/-- In a block, the main thread wants two values from a channel, and another thread sends one. -/
def rendezvousProgram : Program :=
  ⟨[], [.func { name := "main", params := [], result := none, body := [.block [
    .declare "c" (.chan .int32) (some (.make (.chan .int32) [])),
    .go (.func [] none [.send (.name "c") (.literal (.int32 1))]) [],
    .expr (.receive (.name "c")),
    .expr (.receive (.name "c"))]] }]⟩

/-- Where the runnable threads are. -/
def queueOf (m : Machine) : Option (List Nat) :=
  (Scheduler.threads m.scheduler m.heap).toOption.map (List.map Address.index)

/-- How many operands a thread has. -/
def operandsOf (m : Machine) (u : Address) : Option Nat :=
  ((Thread.stash u >>= Stack.values) m.heap).toOption.map List.length

/-- The tags of the nodes that a thread has left to run. -/
def tagsOf (m : Machine) (u : Address) : List Tag :=
  (((Thread.control u >>= Stack.values) m.heap).toOption.getD []).filterMap fun a =>
  (m.heap.tag a).toOption

/-- Machines along the run: when the program is loaded, with both threads in the run queue, with the
main thread waiting, once it got the value, and when no thread is runnable any more. -/
structure Rendezvous (m₁ m₂ m₃ m₄ m₅ : Machine) (u : Address) : Prop where
  starts : ∃ n, advance 22 m₁ = .ok (n, true) m₂
  waits : ∃ n, advance 2 m₂ = .ok (n, true) m₃
  sends : step m₃ = .ok true m₄
  ends : ∃ n, advance 16 m₄ = .ok (n, false) m₅
  both : Scheduler.threads m₂.scheduler m₂.heap = .ok [m₁.mainThread, u]
  sender : Scheduler.threads m₃.scheduler m₃.heap = .ok [u]
  woken : Scheduler.threads m₄.scheduler m₄.heap = .ok [m₁.mainThread, u]
  other : m₁.mainThread ≠ u
  threads : ∀ m ∈ [m₂, m₃, m₄], m.heap.tag m₁.mainThread = .ok .thread ∧ m.heap.tag u = .ok .thread
  inside : m₂.tagsOf m₁.mainThread =
    [.chanReceiveI, .popI, .exprStmt, .exitScopeI, .returnFrom, .restoreEnvI, .popI]
  operands : m₂.operandsOf m₁.mainThread = some 1 ∧ m₂.operandsOf u = some 1
  before : m₃.operandsOf m₁.mainThread = some 0 ∧ m₃.operandsOf u = some 2
  after : m₄.operandsOf m₁.mainThread = some 1 ∧ m₄.operandsOf u = some 0
  unfinished : Thread.isFinished m₁.mainThread m₅.heap = .ok false

/-- What is seen on the way, where the threads in the run queue are told by their addresses alone.
-/
def seesRendezvous (t : Address) (m₂ m₃ m₄ m₅ : Machine) : Bool :=
  match Scheduler.threads m₂.scheduler m₂.heap with
  | .ok [_, u] =>
    m₂.queueOf = some [t.index, u.index] ∧ m₃.queueOf = some [u.index] ∧
    m₄.queueOf = some [t.index, u.index] ∧
    t.index ≠ u.index ∧ (∀ m ∈ [m₂, m₃, m₄], m.heap.tag t = .ok .thread ∧
    m.heap.tag u = .ok .thread) ∧
    m₂.tagsOf t = [.chanReceiveI, .popI, .exprStmt, .exitScopeI, .returnFrom, .restoreEnvI, .popI] ∧
    (m₂.operandsOf t = some 1 ∧ m₂.operandsOf u = some 1) ∧
    (m₃.operandsOf t = some 0 ∧ m₃.operandsOf u = some 2) ∧
    (m₄.operandsOf t = some 1 ∧ m₄.operandsOf u = some 0) ∧
    (Thread.isFinished t m₅.heap).toOption = some false
  | _ => false

/-- The program is loaded into a new machine and runs until no thread is runnable any more. -/
def rendezvousRun (made : Except Fault Machine) : Bool :=
  match made with
  | .error _ => false
  | .ok m₀ => match load rendezvousProgram m₀ with
    | .error _ _ => false
    | .ok _ m₁ => match advance 22 m₁ with
      | .ok (_, true) m₂ => match advance 2 m₂ with
        | .ok (_, true) m₃ => match step m₃ with
          | .ok true m₄ => match advance 16 m₄ with
            | .ok (_, false) m₅ => seesRendezvous m₁.mainThread m₂ m₃ m₄ m₅
            | _ => false
          | _ => false
        | _ => false
      | _ => false

theorem eq_ok_of_toOption {α : Type} {x : Except Fault α} {a : α} (e : x.toOption = some a) :
    x = .ok a := by
  cases x with
  | ok b => cases e; rfl
  | error e' => cases e

theorem threads_of_queueOf {ts : List Address} (e : m.queueOf = some (ts.map Address.index)) :
    Scheduler.threads m.scheduler m.heap = .ok ts := by
  obtain ⟨us, read, same⟩ := Option.map_eq_some_iff.1 e
  have injective : Function.Injective Address.index := fun a b e => by
    cases a
    cases b
    cases e
    rfl
  rw [eq_ok_of_toOption read, List.map_injective_iff.2 injective same]

/-- What the run passes through. -/
theorem rendezvous_runs {made : Except Fault Machine} (ran : rendezvousRun made) :
    ∃ m₀ m₁ m₂ m₃ m₄ m₅ : Machine,
    ∃ u, made = .ok m₀ ∧ load rendezvousProgram m₀ = .ok () m₁ ∧ Rendezvous m₁ m₂ m₃ m₄ m₅ u := by
  unfold rendezvousRun at ran
  split at ran
  · cases ran
  next m₀ =>
  split at ran
  · cases ran
  next m₁ loaded =>
  split at ran
  case h_2 => cases ran
  next n₂ m₂ starts =>
  split at ran
  case h_2 => cases ran
  next n₃ m₃ waits =>
  split at ran
  case h_2 => cases ran
  next m₄ sends =>
  split at ran
  case h_2 => cases ran
  next n₅ m₅ ends =>
  unfold seesRendezvous at ran
  split at ran
  case h_2 => cases ran
  next _ u _ =>
  obtain ⟨both, sender, woken, other, threads, inside, operands, before, after, unfinished⟩ :=
    of_decide_eq_true ran
  exact ⟨m₀, m₁, m₂, m₃, m₄, m₅, u, rfl, loaded, ⟨n₂, starts⟩, ⟨n₃, waits⟩, sends, ⟨n₅, ends⟩,
    threads_of_queueOf both, threads_of_queueOf sender, threads_of_queueOf woken, fun e =>
    other (congrArg _ e),
    threads, inside, operands, before, after, eq_ok_of_toOption unfinished⟩

-- The new machine is a variable of `rendezvous_runs`: where it stands there itself, the kernel runs
-- the program again.
/-- The program runs until the main thread waits for a value that nobody sends. -/
theorem rendezvous : ∃ m₀ m₁ m₂ m₃ m₄ m₅ : Machine, ∃ u, new { heapWords := 1024 } = .ok m₀ ∧
    load rendezvousProgram m₀ = .ok () m₁ ∧ Rendezvous m₁ m₂ m₃ m₄ m₅ u := by
  have ran : rendezvousRun (new { heapWords := 1024 }) := by decide +kernel
  exact rendezvous_runs ran

/-- What was reached is reached after more steps. -/
theorem Reached.stepsAfter {k tried n : Nat} {more : Bool} (reached : Reached m)
    (ran : Machine.stepsAfter k tried m = .ok (n, more) m') : Reached m' := by
  induction tried generalizing m k with
  | zero => cases ran; exact reached
  | succ tried ih =>
    obtain ⟨found, m₁, first, ran⟩ := bind_ok.1 ran
    split at ran
    · exact ih (reached.step first) ran
    · cases ran
      exact reached.step first

theorem Reached.rendezvous {m₁ m₂ m₃ m₄ m₅ : Machine} {u : Address} (reached : Reached m₁)
    (r : Rendezvous m₁ m₂ m₃ m₄ m₅ u) : Reached m₂ ∧ Reached m₃ ∧ Reached m₄ := by
  obtain ⟨n₂, starts⟩ := r.starts
  obtain ⟨n₃, waits⟩ := r.waits
  have reached₂ : Reached m₂ := reached.stepsAfter starts
  have reached₃ : Reached m₃ := reached₂.stepsAfter waits
  exact ⟨reached₂, reached₃, reached₃.step r.sends⟩

/-- The machine in which both threads are runnable. -/
theorem counted_in_rendezvous : ∃ m₀ m₁ m₂ : Machine, ∃ n t u, new { heapWords := 1024 } = .ok m₀ ∧
    load rendezvousProgram m₀ = .ok () m₁ ∧ advance 22 m₁ = .ok (n, true) m₂ ∧
    Scheduler.threads m₂.scheduler m₂.heap = .ok [t, u] ∧ t ≠ u ∧ m₂.Counted := by
  obtain ⟨m₀, m₁, m₂, m₃, m₄, m₅, u, made, loaded, r⟩ := rendezvous
  obtain ⟨n, starts⟩ := r.starts
  obtain ⟨reached, -⟩ := Reached.rendezvous (.load (.new made) loaded) r
  exact ⟨m₀, m₁, m₂, n, _, u, made, loaded, starts, r.both, r.other, counts_exact reached⟩

end Machine
end GoMachine
