import GoMachine.Proofs.Owns.Machine
import GoMachine.Proofs.Schedule.Channels
import GoMachine.Proofs.Schedule.Composite
import GoMachine.Proofs.Schedule.Threads
/-!
# The run queue after a turn

Whatever node a thread runs in its turn, it is taken care of once: a sequential rule leaves that to
the machine, and a rule that sees to it itself does so in one place, or leaves the thread to a
waker. The threads that come to the back of the queue on the way are those that were woken and those
that were started.

* `Round.During.tame`: what programs do leaves the queue and the thread as they are.
* `Machine.Turns`: the property of the rules that see to the thread themselves.
* `Machine.reduce_turns`: what holds of every node.
-/
namespace GoMachine

open Heap (Orderly Owns Guarded Guards Secure laden maxSlots)

variable {R : Round} {O B C : Multiset Address} {G : Facts} {us vs c d : List Address} {s : Turn}
  {n : Nat} {a b v node : Address}

namespace Round

/-- How things stand while the running thread has its turn. -/
structure During (R : Round) (us c : List Address) (s : Turn) : Prop where
  stands : R.Stands R.base us c s.heap
  scheduler : s.scheduler = R.scheduler
  thread : s.thread = R.thread

namespace During

theorem mono (d : R.During us vs s) (sub : c ⊆ vs) : R.During us c s :=
  ⟨d.stands.mono sub, d.scheduler, d.thread⟩

theorem stop (d : R.During us c s) : R.During [] c s := ⟨d.stands.stop, d.scheduler, d.thread⟩

/-- What is done to the heap. -/
theorem act {α : Type} {x : Action α} {f g : α → List Address} (d : R.During us c s)
    (hx : Yields x s.heap fun a h' => R.Stands R.base (f a) (g a) h') :
    Yields (liftM x : TurnM α) s fun a s' => R.During (f a) (g a) s' :=
  .lift (hx.mono fun _ _ st => ⟨st, d.scheduler, d.thread⟩)

/-- What keeps to what is not private leaves the scheduler alone. -/
theorem kept {α : Type} [Mentions α] {x : TurnM α} (d : R.During us c s)
    (hx : ∀ {F}, Orderly R.parked F R.base 0 s.heap → (∀ a ∈ c, s.heap.Plain F a) →
      Yields x s fun r => Kept R.parked F R.base s (addresses r)) :
    Yields x s fun r s' => R.During us (addresses r ++ c) s' := by
  obtain ⟨F, links, new, sh⟩ := d.stands
  refine (hx sh.orderly sh.plain).mono fun r s' k => ?_
  have same : s'.scheduler = s.scheduler ∧ s'.thread = s.thread := by simpa [fixed] using k.fixed
  refine ⟨⟨F, links, new, sh.later k.orderly k.later (fun _ _ => id) fun a ha => ?_⟩,
    same.1.trans d.scheduler, same.2.trans d.thread⟩
  exact (List.mem_append.1 ha).elim (k.plain a) fun ha => k.later.plain (sh.plain a ha)

theorem tame {α : Type} [Mentions α] {x : TurnM α} (d : R.During us c s) (hx : Tame c x) :
    Yields x s fun r s' => R.During us (addresses r ++ c) s' :=
  d.kept fun o hc => hx o hc

theorem runs {t : Tag} {run : Address → TurnM Unit} (d : R.During us [] s)
    (hx : Machine.RunsTame t run) (k : s.heap.HasTag t node) :
    Yields (run node) s fun _ s' => R.During us [] s' :=
  d.kept fun o _ => hx o k

/-- The running thread goes to the back of the queue. -/
theorem enqueue (d : R.During [R.thread] c s) (own : Owns 0 (n + 2) C s.heap)
    (mine : R.thread ∈ R.parked) (safe : ∀ a ∈ c, a = .nil ∨ a ∈ C) :
    Yields TurnM.enqueueCurrent s fun _ s' => R.During [] c s' := by
  refine .get (.get ?_)
  rw [d.scheduler, d.thread]
  exact d.act (d.stands.enqueue own mine fun a ha => own.live (safe a ha))

/-- References are dropped afterwards. -/
theorem releasing {α : Type} {l : List Address} {x : TurnM α} {f g : α → List Address}
    (hx : Yields x s fun b s' => R.During (f b) (g b) s') (hl : ∀ b, l ⊆ g b) :
    Yields (TurnM.releasing l x) s fun b s' => R.During (f b) (g b) s' := by
  refine (Yields.attempt (E := fun r s' => ∀ b, r = .ok b → R.During (f b) (g b) s') hx ?_ ?_).bind
    fun r s₁ done => ?_
  · rintro b s' d _ ⟨⟩
    exact d
  · rintro e s' b ⟨⟩
  cases r with
  | error e => exact Yields.any.bind fun _ _ _ => .conclude_error
  | ok b =>
    refine (Yields.forIn (I := fun rest s' => rest ⊆ g b ∧ R.During (f b) (g b) s')
      ⟨hl b, done b rfl⟩ ?_).bind fun _ s₂ ⟨_, d⟩ => .conclude fun b e => ?_
    · intro a rest s ⟨sub, d⟩
      refine (d.tame (.turnHeap (.free (by simp [sub (List.mem_cons_self ..)])))).bind
        fun _ _ d => .pure ?_
      exact ⟨rfl, fun b hb => sub (List.mem_cons_of_mem a hb), d⟩
    · cases e
      exact d

/-- A value comes off the stash, and what is steady stays. -/
theorem popValue (d : R.During us c s) (g : Guarded G B O s.heap) :
    Yields TurnM.popValue s fun v s' => R.During us (v :: c) s' ∧
    Guarded G B (v ::ₘ O) s'.heap := by
  refine (d.tame TurnM.popValue_tame).and (.ofThread fun stash run => (Stack.pop_guarded g ?_).turn)
  intro tag tagged
  rcases d.stands.stack_tag (i := 1) (by decide) run tagged with rfl | rfl | rfl <;> rfl

end During
end Round

open Round

/-! ## Builtins -/

/-- A thread that still has to be taken care of. -/
def Flow.idle (t : Address) : Flow → List Address
  | .returned _ => [t]
  | .yielded => []

@[simp]
theorem addresses_returned {v : Address} : addresses (Flow.returned v) = [v] := rfl

@[simp]
theorem addresses_yielded : addresses Flow.yielded = [] := rfl

namespace Builtin

/-- A builtin that yields has taken care of the thread; the others have not. The addresses `d` are
kept for later. -/
def Settles (R : Round) (args : List Address) (x : TurnM Flow) : Prop :=
  ∀ ⦃n C c d s⦄, R.During [R.thread] c s → Owns 0 (n + 6) C s.heap → R.thread ∈ R.parked →
    args ⊆ .nil :: c → d ⊆ c → (∀ a ∈ d, a = .nil ∨ a ∈ C) →
    Yields x s fun flow s' => R.During (flow.idle R.thread) (addresses flow ++ d) s'

variable {args : List Address}

theorem settles_of_tame {x : TurnM Flow} (hx : ∀ {c}, args ⊆ .nil :: c → Tame c x) :
    Settles R args x := by
  intro n C c d s st own mine ha sub safe
  refine (st.tame (hx ha)).mono fun flow s' st => ?_
  have st := st.mono (c := addresses flow ++ d) (by grind)
  cases flow with
  | returned value => exact st
  | yielded => exact st.stop

theorem runClose_settles : Settles R args (runClose args) := by
  intro n C c d s st own mine ha sub safe
  refine .quiet (single_same own).yields fun ch => .ofThread fun structs _ => .get ?_
  rw [st.scheduler]
  exact (st.act (Channel.close_stands own (st.stands.mono sub) safe)).bind fun _ _ st =>
    .pure ⟨st.stands.nil, st.scheduler, st.thread⟩

theorem runLock_settles : Settles R args (runLock args) := by
  intro n C c d s st own mine ha sub safe
  refine .quiet (mutexOf_same own).yields fun m => ?_
  refine ((st.tame (TurnM.pushValue_tame (by simp))).and (TurnM.pushValue_owns own).yields).bind
    fun _ s₁ ⟨st, own⟩ => .get (.get ?_)
  rw [st.scheduler, st.thread]
  exact (st.act (Mutex.lock_stands own (st.stands.mono sub) mine safe)).bind fun _ _ st => .pure st

theorem runUnlock_settles : Settles R args (runUnlock args) := by
  intro n C c d s st own mine ha sub safe
  refine .quiet (mutexOf_same own).yields fun m => .get ?_
  rw [st.scheduler]
  exact (st.act (Mutex.unlock_stands own (st.stands.mono sub) safe)).bind fun _ _ st =>
    .pure ⟨st.stands.nil, st.scheduler, st.thread⟩

theorem runAdd_settles : Settles R args (runAdd args) := by
  intro n C c d s st own mine ha sub safe
  refine .quiet (waitGroupOf_same own).yields fun wg => .look fun delta _ => .get ?_
  rw [st.scheduler]
  exact (st.act (WaitGroup.add_stands own (st.stands.mono sub) safe)).bind fun _ _ st =>
    .pure ⟨st.stands.nil, st.scheduler, st.thread⟩

theorem runDone_settles : Settles R args (runDone args) := by
  intro n C c d s st own mine ha sub safe
  refine .quiet (waitGroupOf_same own).yields fun wg => .get ?_
  rw [st.scheduler]
  exact (st.act (WaitGroup.add_stands own (st.stands.mono sub) safe)).bind fun _ _ st =>
    .pure ⟨st.stands.nil, st.scheduler, st.thread⟩

theorem runWait_settles : Settles R args (runWait args) := by
  intro n C c d s st own mine ha sub safe
  refine .quiet (waitGroupOf_same own).yields fun wg => ?_
  refine ((st.tame (TurnM.pushValue_tame (by simp))).and (TurnM.pushValue_owns own).yields).bind
    fun _ s₁ ⟨st, own⟩ => .get (.get ?_)
  rw [st.scheduler, st.thread]
  exact (st.act (WaitGroup.wait_stands own (st.stands.mono sub) mine safe)).bind fun _ _ st =>
    .pure st

theorem run_settles : ∀ {b : Builtin}, Settles R args (b.run args)
  | .append => settles_of_tame runAppend_tame
  | .cap => settles_of_tame runCap_tame
  | .close => runClose_settles
  | .len => settles_of_tame runLen_tame
  | .print => settles_of_tame fun _ => runPrint_tame
  | .println => settles_of_tame fun _ => runPrintln_tame
  | .sprint => settles_of_tame fun _ => runSprint_tame
  | .lock => runLock_settles
  | .unlock => runUnlock_settles
  | .add => runAdd_settles
  | .done => runDone_settles
  | .wait => runWait_settles

end Builtin

/-! ## Calls -/

instance : Mentions Machine.Applied where
  addresses
    | .entered => []
    | .ran flow => addresses flow

@[simp, grind =]
theorem addresses_entered : addresses Machine.Applied.entered = [] := rfl

@[simp, grind =]
theorem addresses_ran {flow : Flow} : addresses (Machine.Applied.ran flow) = addresses flow := rfl

/-- A thread that still has to be taken care of. -/
def Machine.Applied.idle (t : Address) : Machine.Applied → List Address
  | .entered => [t]
  | .ran flow => flow.idle t

namespace Machine

variable {args : List Address} {callee : Address}

theorem callBuiltin_settles : Builtin.Settles R args (callBuiltin b args) := by
  intro n C c d s st own mine ha sub safe
  refine .look fun name _ => ?_
  split
  · exact Builtin.run_settles st own mine ha sub safe
  · exact .throw

/-- The callee was entered, or what it is has run. -/
theorem apply_settles (st : R.During [R.thread] c s) (own : Owns 0 (n + 6) C s.heap)
    (mine : R.thread ∈ R.parked) (ha : args ⊆ c) (safe : ∀ a ∈ c, a = .nil ∨ a ∈ C) :
    Yields (apply callee args) s fun applied s' =>
      R.During (applied.idle R.thread) (addresses applied ++ c) s' := by
  have entered : ∀ {f r d s}, R.During [R.thread] d s → c ⊆ d → addresses r ⊆ d →
      Yields (do enter f r args; return Applied.entered) s fun applied s' =>
        R.During (applied.idle R.thread) (addresses applied ++ c) s' := fun st sub hr =>
    (st.tame (enter_tame (by grind) (by grind))).bind fun _ _ st => .pure (st.mono (by grind))
  have ran : ∀ {b l d s}, R.During [R.thread] d s → Owns 0 (n + 6) C s.heap → c ⊆ d → l ⊆ d →
      Yields (do return Applied.ran (← callBuiltin b l)) s fun applied s' =>
        R.During (applied.idle R.thread) (addresses applied ++ c) s' := fun st own sub hl =>
    (callBuiltin_settles st own mine (by grind) sub safe).bind fun _ _ st => .pure st
  refine .look fun view run => ?_
  split
  · exact entered st (List.Subset.refl c) (List.nil_subset _)
  · next m =>
    refine .look fun target _ => .look fun receiver run => .look fun view _ => ?_
    have st : R.During [R.thread] (receiver :: c) s :=
      ⟨st.stands.asks BoundMethod.receiver_asks run, st.scheduler, st.thread⟩
    split
    · exact entered st (by simp) (by simp)
    · exact ran st own (by simp) (by grind)
    · exact .throw
  · exact ran st own (List.Subset.refl c) ha
  · exact .throw
  · exact .throw

/-- What a rule that sees to the thread itself does at a node. -/
def Turns (R : Round) (t : Tag) (run : Address → TurnM Unit) : Prop :=
  ∀ ⦃n C s node⦄, R.During [R.thread] [] s → Owns 0 (n + maxSlots + 16) C s.heap →
    R.thread ∈ R.parked → R.thread ∈ C → node ∈ C → s.heap.HasTag t node →
    Yields (run node) s fun _ s' => R.During [] [] s'

/-- The operands of a call are taken off the stash. -/
theorem popOperands_turns {k : Nat} {α : Type} {f : List Address → Address → TurnM α}
    {Q : α → Turn → Prop} (st : R.During [R.thread] [] s)
    (own : Owns 0 (n + maxSlots + 16) C s.heap)
    (hf : ∀ args callee s, R.During [R.thread] (args ++ [callee]) s →
      Owns 0 (n + 15) (laden (args ++ [callee]) C) s.heap → Yields (f args callee) s Q) :
    Yields (do f (← TurnM.popValues k) (← TurnM.popValue)) s Q := by
  have own : Owns 0 (n + 16 + maxSlots) C s.heap := own.weaken (by omega)
  refine ((st.tame TurnM.popValues_tame).and (TurnM.popValues_owns own).yields).bind
    fun args s₁ ⟨st, owned⟩ => ?_
  refine ((st.tame TurnM.popValue_tame).and (TurnM.popValue_owns owned).yields).bind
    fun callee s₂ ⟨st, owned⟩ => hf args callee s₂ (st.mono (by simp)) ?_
  rw [Heap.laden_append, Heap.laden_comm, ← Heap.stacked_eq_laden (l := args)]
  exact owned

theorem callI_turns : Turns R .callI callI := by
  intro n C s node st own mine _ _ _
  refine .look fun argc _ => popOperands_turns st own fun args callee s₁ st owned => ?_
  have applied : Yields (apply callee args) s₁ _ := apply_settles st (n := n + 9) owned mine
    (List.subset_append_left _ _) fun a ha => .inr (Heap.mem_laden.2 (.inl ha))
  refine ((During.releasing applied fun _ => List.subset_append_right _ _).and
    (TurnM.releasing_owns (P := 0) (F := 0) (n := n + 15)
    (K := fun applied => laden applied.owned C)
    ((apply_owns owned).mono fun _ _ owned => by rwa [Heap.laden_comm])).yields).bind
    fun applied s₂ ⟨st, owned⟩ => ?_
  split
  · exact (st.mono (List.nil_subset _)).enqueue owned mine (by simp)
  · refine ((st.tame (TurnM.pushValueOwned_tame (by simp))).and
      (TurnM.pushValueOwned_owns owned).yields).bind
      fun _ s₃ ⟨st, owned⟩ => (st.mono (List.nil_subset _)).enqueue owned mine (by simp)
  · exact .pure (st.mono (List.nil_subset _))

theorem goCallI_turns : Turns R .goCallI goCallI := by
  intro n C s node st own mine ht _ _
  refine .look fun argc _ => popOperands_turns st own fun args callee s₁ st owned => .get (.get ?_)
  rw [Heap.laden_append, Heap.laden_comm, ← Heap.laden_append] at owned
  rw [st.scheduler, st.thread]
  have st : R.During [R.thread] (callee :: args) s₁ := st.mono (by simp)
  refine ((st.act (spawn_stands (n := n + 13) owned st.stands ht)).and
    (spawn_owns owned).turn.yields).bind
    fun _ s₂ ⟨st, owned⟩ => st.enqueue owned mine (by simp)

/-! ## Channel operations -/

theorem chanSendI_turns : Turns R .chanSendI chanSendI := by
  intro n C s node st own mine _ _ _
  refine ((st.tame TurnM.popValue_tame).and (TurnM.popValue_owns own).yields).bind
    fun value s₁ ⟨st, owned⟩ => ?_
  refine ((st.tame TurnM.popValue_tame).and (TurnM.popValue_owns owned).yields).bind
    fun ch s₂ ⟨st, owned⟩ => ?_
  have st : R.During [R.thread] [value, ch] s₂ := st.mono (by simp)
  refine (During.releasing (f := fun _ => []) (g := fun _ => [value, ch]) ?_ (by simp)).mono
    fun _ _ st => st.mono (List.nil_subset _)
  refine .get (.get ?_)
  rw [st.scheduler, st.thread]
  exact (st.act (Channel.send_stands (n := n + maxSlots + 8) owned st.stands mine (by simp)
    (by simp))).bind
    fun _ _ st => .pure st

theorem chanReceiveI_turns : Turns R .chanReceiveI chanReceiveI := by
  intro n C s node st own mine _ _ _
  refine ((st.tame TurnM.popValue_tame).and (TurnM.popValue_owns own).yields).bind
    fun ch s₁ ⟨st, owned⟩ => .ofThread fun structs _ => ?_
  refine (During.releasing (f := fun _ => []) (g := fun _ => [ch]) ?_ (by simp)).mono
    fun _ _ st => st.mono (List.nil_subset _)
  refine .get (.get ?_)
  rw [st.scheduler, st.thread]
  exact (st.act (Channel.recv_stands (n := n + maxSlots + 9) owned st.stands mine (by simp))).bind
    fun _ _ st => .pure st

/-- The body of a case is scheduled, and the thread goes on. -/
theorem continueWith_turns {body : Address} (st : R.During [R.thread] c s)
    (own : Owns 0 (n + 2) C s.heap)
    (mine : R.thread ∈ R.parked) (hb : body ∈ .nil :: c) (sub : d ⊆ c) (safe : ∀ a ∈ d, a = .nil ∨
    a ∈ C) :
    Yields (continueWith body) s fun _ s' => R.During [] d s' := by
  unfold continueWith
  split
  · exact ((st.tame (TurnM.push_tame hb)).and (TurnM.push_owns own).yields).bind
      fun _ _ ⟨st, own⟩ => (st.mono (by grind)).enqueue own mine safe
  · exact (st.mono sub).enqueue own mine safe

end Machine

/-! ## Select -/

instance : Mentions Machine.Clauses where
  addresses found := found.default :: found.operands ++ addresses found.cases

@[simp, grind =]
theorem addresses_clauses {found : Machine.Clauses} :
    addresses found = found.default :: found.operands ++ addresses found.cases := rfl

theorem Case.body_mem : ∀ k : Case, k.body ∈ addresses k
  | .send .. => by simp [Case.body]
  | .receive .. => by simp [Case.body]

/-- While the cases of a `select` are gathered, their operands are among what the machine owns, and
the rest of the cases stays with the node. -/
def Round.Gathers (R : Round) (B : Multiset Address) (c : List Address) (s : Turn) : Prop :=
  ∃ G, R.During [R.thread] c s ∧ Guarded G B 0 s.heap ∧ ∀ a ∈ c, Secure G B a

namespace Round.Gathers

variable {t : Tag} {i : Nat}

theorem mono (ga : R.Gathers B c s) (sub : d ⊆ c) : R.Gathers B d s := by
  obtain ⟨G, st, g, sec⟩ := ga
  exact ⟨G, st.mono sub, g, fun a ha => sec a (sub ha)⟩

theorem nil (ga : R.Gathers B c s) : R.Gathers B (.nil :: c) s := by
  obtain ⟨G, st, g, sec⟩ := ga
  exact ⟨G, ⟨st.stands.nil, st.scheduler, st.thread⟩, g, List.forall_mem_cons.2 ⟨.inl rfl, sec⟩⟩

theorem popValue (ga : R.Gathers B c s) :
    Yields TurnM.popValue s fun v s' => R.Gathers (v ::ₘ B) (v :: c) s' := by
  obtain ⟨G, st, g, sec⟩ := ga
  exact (st.popValue g).mono fun v s' ⟨st, g⟩ => ⟨G, st, g.stay,
    List.forall_mem_cons.2 ⟨.inr (.inl (by simp)), fun a ha => (sec a ha).cons⟩⟩

/-- What a steady node refers to stays with it. -/
theorem child (ga : R.Gathers B c s) (ha : a ∈ c) (ht : t.isSteady) (ht' : t.isOpen)
    (run : Query.child a t i s.heap = .ok b) : R.Gathers B (b :: c) s := by
  obtain ⟨G, st, g, sec⟩ := ga
  obtain ⟨G', g, hold, stays⟩ := g.learn_child (sec a ha) ht run
  exact ⟨G', ⟨st.stands.asks (.child (.inl ht')) run, st.scheduler, st.thread⟩, g,
    List.forall_mem_cons.2 ⟨hold, fun a ha => stays (sec a ha)⟩⟩

theorem children (st : R.During [R.thread] [] s) (own : Owns 0 n B s.heap) (ha : a ∈ B)
    (k : s.heap.HasTag t a) (ht : t.isSteady) (ht' : t.isOpen) {l : List Address}
    (run : Query.children a s.heap = .ok l) : R.Gathers B l s := by
  obtain ⟨e, he, rfl⟩ := k
  obtain ⟨G, g, hold, -⟩ := (Guards.none_iff.2 own).learn (Heap.secure_none.2 (.inr ha)) he ht
  obtain ⟨F, links, new, sh⟩ := st.stands
  refine ⟨G, ⟨⟨F, links, new, { sh with plain := ?_ }⟩, st.scheduler, st.thread⟩, g, ?_⟩
  · exact sh.orderly.plain_children ⟨e, he, rfl⟩ ht' run
  · rcases own.exact.sound.children_ok.1 (ofHeap_ok.1 run) with ⟨rfl, -⟩ | ⟨e', he', rfl⟩
    · exact absurd rfl (own.exact.sound.ne_nil (Heap.cell?_eq_some.1 he).1)
    · obtain rfl : e = e' := by simpa [he] using he'
      exact hold

end Round.Gathers

namespace Machine

theorem popClauses_gathers : ∀ {clauses : List Address} {found : Clauses} {s : Turn},
    R.Gathers (laden found.operands C) (addresses found ++ clauses) s →
    Yields (popClauses found clauses) s fun found s' =>
      R.Gathers (laden found.operands C) (addresses found) s'
  | [], _, _, ga => .pure (ga.mono (by simp))
  | clause :: clauses, found, s, ga => by
    refine .look fun tag _ => ?_
    split
    · refine ga.popValue.bind fun value s₁ ga => ?_
      refine ga.popValue.bind fun ch s₂ ga =>
        .look fun body run => ?_
      refine popClauses_gathers ?_
      rw [Heap.laden_append, Heap.laden_comm, ← Heap.stacked_eq_laden]
      refine (ga.child (a := clause) (by simp) rfl rfl run).mono fun x => ?_
      simp only [addresses_clauses, addresses_cons, addresses_send, List.mem_append, List.mem_cons]
      tauto
    · refine ga.popValue.bind fun ch s₁ ga => .look fun body run => ?_
      refine popClauses_gathers ?_
      rw [Heap.laden_append, Heap.laden_comm]
      refine (ga.child (a := clause) (by simp) rfl rfl run).mono fun x => ?_
      simp only [addresses_clauses, addresses_cons, addresses_receive, List.mem_append,
        List.mem_cons]
      tauto
    · refine .look fun default run => popClauses_gathers ?_
      exact (ga.child (a := clause) (by simp) rfl rfl run).mono (by grind)

theorem selectI_turns : Turns R .selectI selectI := by
  intro n C s node st own mine _ hn k
  refine .look fun hasDefault _ => .look fun clauses run => ?_
  have ga := (Round.Gathers.children st own hn k rfl rfl run).nil.mono
    (d := .nil :: clauses.reverse)
    (by grind)
  have wide : Owns 0 (n + 16 + maxSlots) C s.heap := own.weaken (by omega)
  refine ((popClauses_gathers ga).and (popClauses_capped (f := {}) wide.capped).yields).bind
    fun found s₁ ⟨⟨G, st, g, sec⟩, cp⟩ => .ofThread fun structs _ => ?_
  have owned := cp.owns ((Nat.le_add_right (n + 16) _).trans_lt wide.spare.lt)
  have g : Guards G (laden found.operands C) (n + 10 + 6) 0 s₁.heap :=
    ⟨g, by simpa using owned.spare⟩
  refine (During.releasing (f := fun _ => []) (g := fun _ => found.operands) ?_
    (fun _ => List.Subset.refl _)).mono fun _ _ st => st.mono (List.nil_subset _)
  refine (Yields.modifyGet (Q := fun _ s' => R.During [R.thread] (addresses found) s' ∧
    s'.heap = s₁.heap)
    ⟨⟨st.stands, st.scheduler, st.thread⟩, rfl⟩).bind fun order s₂ ⟨st, e⟩ => .get (.get ?_)
  rw [← e] at g owned
  rw [st.scheduler, st.thread]
  have operands : addresses found.cases ⊆ addresses found := List.subset_append_right _ _
  have ran : Yields (Select.run found.cases order
    (hasDefault ≠ 0) R.thread structs R.scheduler) _ _ :=
    Select.run_stands g st.stands mine operands sec
  refine ((st.act ran).and (Select.run_owns (n := n + 10) owned).turn.yields).bind
    fun outcome s₃ ⟨st, owned⟩ => ?_
  have sub : found.operands ⊆ addresses found := by simp
  have safe : ∀ a ∈ found.operands, a = .nil ∨ a ∈ laden found.operands C := fun a ha =>
    .inr (Heap.mem_laden.2 (.inl ha))
  cases outcome with
  | ready i =>
    refine continueWith_turns st owned mine ?_ sub safe
    cases hi : found.cases[i]? with
    | none => simp
    | some k =>
      have hk := mem_addresses_list.2 ⟨k, List.mem_of_getElem? hi, k.body_mem⟩
      exact List.mem_cons_of_mem _ (operands hk)
  | default => exact continueWith_turns st owned mine (by simp) sub safe
  | blocked => exact .pure (st.mono sub)

/-! ## Every node -/

theorem runsTame_of_tame {t : Tag} {run : Address → TurnM Unit}
    (ht : t.isInternal = false ∧ t.isPersonal = false) (hx : ∀ {c node}, node ∈ .nil :: c →
    Tame c (run node)) :
    RunsTame t run := by
  intro K F O s node o k
  have live := Heap.isLive_iff.1 k.isLive
  have plain : s.heap.Plain F node :=
    ⟨by have := o.sound.serves.lt_two_pow live; omega, o.not_private_of_tag k ht.1 ht.2⟩
  exact hx (c := [node]) (by simp) o (by simpa using plain)

end Machine

/-- A rule is tame, or it sees to the thread itself. -/
def Rule.Behaves (t : Tag) : Rule → Prop
  | .sequential run => Machine.RunsTame t run
  | .scheduling run => ∀ R, Machine.Turns R t run

open Machine in
theorem Rule.behaves {tag : Tag} {rule : Rule} (e : ofTag? tag = some rule) : rule.Behaves tag := by
  have tame {t run} (ht : t.isInternal = false ∧ t.isPersonal = false)
      (hx : ∀ {c node}, node ∈ .nil :: c → Tame c (run node)) :
      (Rule.sequential run).Behaves t := runsTame_of_tame ht hx
  unfold ofTag? at e
  split at e
  all_goals cases e
  exacts [tame (by decide) fun _ => literal_tame, tame (by decide) fun _ => name_tame,
    tame (by decide) fun _ => nameAddress_tame, tame (by decide) fun _ => var_tame,
    tame (by decide) fun _ => varI_tame, tame (by decide) fun _ => assign_tame,
    tame (by decide) fun _ => assignI_tame, tame (by decide) fun _ => unary_tame,
    tame (by decide) fun _ => unaryI_tame, tame (by decide) fun _ => binary_tame,
    tame (by decide) fun _ => binaryI_tame, tame (by decide) fun _ => logicalI_tame,
    tame (by decide) fun _ => postfixOp_tame, tame (by decide) fun _ => postfixOpI_tame,
    sequence_runs, tame (by decide) fun _ => block_tame, tame (by decide) fun _ => exitScopeI_tame,
    tame (by decide) fun _ => ifElse_tame, tame (by decide) fun _ => ifElseI_tame,
    tame (by decide) fun _ => forLoop_tame, tame (by decide) forLoopI_tame,
    tame (by decide) fun _ => markerI_tame, tame (by decide) fun _ => breakLoop_tame,
    tame (by decide) fun _ => continueLoop_tame, tame (by decide) fun _ => exprStmt_tame,
    tame (by decide) fun _ => popI_tame, tame (by decide) functionLit_tame, call_runs,
    fun R => callI_turns, tame (by decide) fun _ => returnFrom_tame,
    tame (by decide) fun _ => returnFromI_tame, tame (by decide) fun _ => restoreEnvI_tame,
    goCall_runs, fun R => goCallI_turns, tame (by decide) fun _ => selectFrom_tame rfl rfl rfl,
    tame (by decide) fun _ => memberI_tame, tame (by decide) fun _ => selectFrom_tame rfl rfl rfl,
    tame (by decide) fun _ => memberAddressI_tame, tame (by decide) fun _ =>
    selectFrom_tame rfl rfl rfl,
    tame (by decide) fun _ => methodMemberI_tame, tame (by decide) fun _ =>
    evaluateAt_tame rfl rfl rfl,
    tame (by decide) fun _ => indexWith_tame, tame (by decide) fun _ => evaluateAt_tame rfl rfl rfl,
    tame (by decide) fun _ => indexWith_tame, sliceExpr_runs, tame (by decide) fun _ =>
    sliceExprI_tame,
    make_runs, tame (by decide) fun _ => makeI_tame, tame (by decide) fun _ => zero_tame,
    constructor_runs, tame (by decide) fun _ => constructorI_tame, structLiteral_runs,
    tame (by decide) fun _ => structLiteralI_tame, tame (by decide) fun _ => addressOf_tame,
    tame (by decide) fun _ => addressOfI_tame, tame (by decide) fun _ => derefWith_tame rfl rfl rfl,
    tame (by decide) fun _ => derefI_tame, tame (by decide) fun _ => derefWith_tame rfl rfl rfl,
    tame (by decide) fun _ => derefAddressI_tame, chanSend_runs, fun R => chanSendI_turns,
    tame (by decide) fun _ => chanReceive_tame, fun R => chanReceiveI_turns, select_runs,
    fun R => selectI_turns]

namespace Machine

/-- However the node of a turn runs, the running thread is taken care of. -/
theorem reduce_turns (st : R.During [R.thread] [] s) (own : Owns 0 (n + maxSlots + 16) C s.heap)
    (mine : R.thread ∈ R.parked) (ht : R.thread ∈ C) (hn : node ∈ C) :
    Yields (reduce node) s fun _ s' => R.During [] [] s' := by
  refine .look fun tag tagged => ?_
  have keeps := @Rule.keeps 0 node tag
  have tag_of_rule {rule : Rule} (e : Rule.ofTag? tag = some rule) : s.heap.HasTag tag node := by
    rcases own.exact.sound.tag_ok.1 (ofHeap_ok.1 tagged) with ⟨-, rfl⟩ | ⟨c, hc, rfl⟩
    · cases e
    · exact ⟨c, hc, rfl⟩
  split
  · exact .get .throw
  · next run e =>
    rw [e] at keeps
    exact ((st.runs (Rule.behaves e) (tag_of_rule e)).and (keeps own).yields).bind
      fun _ _ ⟨st, own⟩ => st.enqueue own mine (by simp)
  · next run e =>
    exact Rule.behaves e R st own mine ht hn (tag_of_rule e)

end Machine
end GoMachine
