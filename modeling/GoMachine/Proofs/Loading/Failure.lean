import GoMachine.Proofs.Loading.Starting
import GoMachine.Proofs.Teardown
/-!
# What a load that fails leaves behind

Loading takes nothing back when it fails. What was bound by then stays in the global frame, in front
of what was bound before, and the records that were made for it stay as well. The thread that was to
be the main one may have got its number. But nothing else becomes of what was there, whatever the
machine was used for and whoever is in its queues, and a program without `main` or that imports an
unknown package is refused before anything is done.

* `Machine.Used.load_leftover`: what becomes of a machine.
* `Machine.load_not_atomic`: a later program can tell that a load has failed.
-/
namespace GoMachine

open Ground (Bears Left)
open Heap (Owns Exact Leaks)

variable {F F' : Facts} {O : Multiset Address} {h : Heap} {a b : Address} {cs : List Char}
    {names : List String}

/-! ## Facts beside a scheduler -/

/-- What is known of records other than schedulers is known still. -/
def Facts.SubButSchedulers (F F' : Facts) : Prop := ∀ ⦃a B⦄, F a = some B → B.tag ≠ .scheduler →
    F' a = some B

theorem Facts.Spells.ofSubButSchedulers (spells : F.Spells a cs) (sub : F.SubButSchedulers F') :
    F'.Spells a cs := by
  obtain ⟨runes, here, each⟩ := spells
  exact ⟨runes, sub here nofun, each.imp fun _ _ rune => sub rune (by simp)⟩

theorem Ahead.ofSubButSchedulers (k : Ahead F names a b) (sub : F.SubButSchedulers F') :
    Ahead F' names a b := by
  induction k with
  | here => exact .here
  | entry known spells mem _ ih =>
    exact .entry (sub known nofun) (spells.ofSubButSchedulers sub) mem ih

theorem Ground.Numbers.subButSchedulers {G G' : Ground} {s : Address} (k : G.Numbers s G') :
    G.facts.SubButSchedulers G'.facts := fun a B hB other => by
  by_cases same : a = s
  · subst same
    exact (k.number B hB).resolve_right fun scheduler => other scheduler.1
  · exact k.rest (Facts.without_some.2 ⟨same, hB⟩)

/-- Whatever is live is held. -/
theorem Heap.Exact.held (x : Exact 0 O h) : Heap.Held h.body? O := fun a B hB => by
  obtain ⟨c, hc, -⟩ := Heap.body?_eq_some.1 hB
  have counted : (O + h.edges).count a ≠ 0 := by
    rw [← x.count hc]
    exact fun zero => x.idle hc (UInt64.toNat_inj.1 zero) (UInt16.toNat_inj.1 (x.pins hc))
  refine (Multiset.mem_add.1 (Multiset.count_ne_zero.1 counted)).imp_right fun edge => ?_
  obtain ⟨d, c', hc', mem⟩ := Heap.mem_edges.1 edge
  exact ⟨d, c'.body, Heap.body?_eq_some.2 ⟨c', hc', rfl⟩, mem⟩

/-- What is known of a state after a computation that failed. -/
theorem Ends.failed {ε σ α : Type} {x : EStateM ε σ α} {s s' : σ} {e : ε} {E : ε → σ → Prop}
    {Q : α → σ → Prop}
    (hx : Ends E x s Q) (run : x s = .error e s') : E e s' := by
  rcases hx with ⟨_, _, ended, -⟩ | ⟨_, _, failed, left⟩
  · cases run.symm.trans ended
  · cases run.symm.trans failed
    exact left

namespace Machine

variable {m m' : Machine} {p : Program} {e : Fault} {L : Multiset Address} {n : Nat}

/-! ## The frame and the scheduler of a machine -/

/-- The handles to the scheduler and to the global frame. -/
def Steady (s g : Address) (m : Machine) : Prop := m.scheduler = s ∧ m.globals = g

section

variable {α : Type} {s g : Address}

theorem steady_act {x : Action α} : Upholds (Steady s g) (liftM x : MachineM α) := fun m k => by
  cases run : x m.heap with
  | ok a h => exact .inl ⟨a, { m with heap := h }, by
    simp only [liftM, monadLift, MonadLift.monadLift, run], k⟩
  | error e h => exact .inr ⟨e, { m with heap := h }, by
    simp only [liftM, monadLift, MonadLift.monadLift, run], k⟩

theorem steady_query {q : Query α} : Upholds (Steady s g) (liftM q : MachineM α) :=
    steady_act (x := liftM q)

theorem steady_heap {x : HeapM α} : Upholds (Steady s g) (liftM x : MachineM α) :=
    steady_act (x := liftM x)

theorem steady_get {f : Machine → MachineM α} (hf : ∀ m, Upholds (Steady s g) (f m)) :
    Upholds (Steady s g) (get >>= f) := fun m k => Ends.get (hf m m k)

theorem steady_modify {f : Machine → Machine} (hf : ∀ m, Steady s g m → Steady s g (f m)) :
    Upholds (Steady s g) (modify f : MachineM PUnit) := fun m k => (Gives.modify (hf m k)).ends

theorem steady_load : Upholds (Steady s g) (load p) :=
  steady_get fun _ => .bind steady_act fun _ => .bind steady_act fun _ =>
  .bind (steady_modify fun _ k => k) fun _ =>
    steady_heap

theorem steady_collect : Upholds (Steady s g) collect := steady_get fun _ => steady_heap

theorem steady_record : Upholds (Steady s g) record :=
  steady_get fun _ => .ite (.bind steady_query fun _ => steady_modify fun _ k => k) .pure

theorem steady_collectIfDue : Upholds (Steady s g) collectIfDue :=
  steady_get fun _ => .ite (.bind steady_collect fun _ => .pure) .pure

theorem steady_turn {t : Address} {x : TurnM Unit} : Upholds (Steady s g) (turn t x) := fun m k =>
    by
  unfold Ends Gives
  cases run : x { heap := m.heap, random := m.random, output := m.output, scheduler :=
      m.scheduler, thread := t } with
  | ok _ r =>
    exact .inl ⟨(), { m with heap := r.heap, random := r.random, output := r.output }, by
      simp only [turn, run], k⟩
  | error e r =>
    exact .inr ⟨e, { m with heap := r.heap, random := r.random, output := r.output }, by
      simp only [turn, run], k⟩

theorem steady_runTop {t control : Address} : Upholds (Steady s g) (runTop t control) := by
  refine .bind steady_act fun node => .bind (fun m k => ?_) fun r => .bind steady_heap fun _ =>
    .bind steady_heap fun _ =>
    .bind (fun m k => ?_) fun _ => .bind (steady_modify fun _ k => k) fun _ =>
    .bind steady_record fun _ => steady_collectIfDue
  · exact ((steady_turn m k).attempt.mono fun _ _ ended => by
      rcases ended with ⟨_, _, k⟩ | ⟨_, _, k⟩ <;> exact k).ends
  · cases r with
    | ok a => exact .pure k
    | error e => exact .throw k

theorem steady_step : Upholds (Steady s g) step := by
  refine steady_get fun _ => .bind steady_act fun t =>
    .ite .pure (.bind steady_query fun control => .bind steady_query fun _ => ?_)
  exact .ite (.bind steady_heap fun _ => .pure) (.bind steady_runTop fun _ => .pure)

theorem steady_stepsAfter {k n : Nat} : Upholds (Steady s g) (stepsAfter k n) := by
  induction n generalizing k with
  | zero => exact .pure
  | succ n ih => exact .bind steady_step fun _ => .ite ih .pure

theorem steady_run {budget : Nat} : Upholds (Steady s g) (run budget) := by
  refine steady_get fun m => ?_
  extract_lets done rest
  have rest_steady : Upholds (Steady s g) (rest ⟨⟩) := by
    refine .bind steady_stepsAfter fun _ =>
      .ite .pure (steady_get fun _ => .bind steady_query fun _ =>
      .bind steady_query fun _ => .ite (.bind .throw fun _ => .pure) .pure)
  split
  · exact .bind .throw fun _ => rest_steady
  · exact rest_steady

theorem Call.steady (c : Call) : Upholds (Steady s g) c.perform := by
  cases c with
  | load => exact steady_load
  | step => exact .bind steady_step fun _ => .pure
  | run => exact .bind steady_run fun _ => .pure
  | collect => exact .bind steady_collect fun _ => .pure

theorem new_apart {settings : Settings} (made : new settings = .ok m) :
    m.scheduler ≠ m.globals ∧ m.scheduler ≠ .nil ∧ m.globals ≠ .nil := by
  obtain ⟨h, hh, made⟩ := except_bind_ok.1 made
  have made' : Heap.new settings.heapWords = .ok h := by
    cases e : Heap.new settings.heapWords <;> simp_all [Except.mapError]
  have own : Owns 0 1 0 h := ⟨.new made', by decide, fun a _ => by simp [Heap.limit]⟩
  have ran : Yields (do
    return (← Scheduler.create, ← Frame.create .nil) : Action (Address × Address)) h
      fun pair _ => pair.1 ≠ pair.2 ∧ pair.1 ≠ .nil ∧ pair.2 ≠ .nil := by
    have created : Yields Scheduler.create h fun s _ => s ≠ .nil :=
      (Heap.Reports.of own).allocate.heap.bind fun s _ made => Yields.any.bind fun _ _ _ =>
      Yields.any.bind
        fun _ _ _ => .pure (made.2.ne_nil (Function.update_self ..))
    refine ((Scheduler.create_owns (F := 0) own).yields.and created).bind fun s h₁ found => ?_
    obtain ⟨own, created⟩ := found
    refine (Frame.create_reports (.of own)).bind ?_
    rintro f h₂ ⟨new, g⟩
    refine .pure ⟨?_, created, g.ne_nil (Function.update_self ..)⟩
    rintro (rfl : s = f)
    have live := own.exact.isLive_of_mem (Multiset.mem_cons_self ..)
      (g.ne_nil (Function.update_self ..))
    exact (Heap.Reports.of own).isLive.1 live new
  split at made
  · cases made
  · next run =>
    obtain rfl := except_pure_ok.1 made
    exact ran _ _ run

/-- The scheduler and the global frame are two records. -/
theorem Used.apart (used : Used m) : m.scheduler ≠ m.globals ∧ m.scheduler ≠ .nil ∧
    m.globals ≠ .nil := by
  induction used with
  | new made => exact new_apart made
  | @call m m' c used few run ih =>
    have steady : Steady m.scheduler m.globals m' := by
      have kept := c.steady m ⟨rfl, rfl⟩
      rcases run with run | ⟨e, run⟩
      · exact kept.yields _ _ run
      · exact Ends.failed (E := fun _ => Steady m.scheduler m.globals) kept run
    rwa [steady.1, steady.2]

end

/-! ## Loads that fail -/

/-- What an action does to the heap is all that it does to the machine. -/
theorem act_runs {α : Type} {x : Action α} : Ends (fun e m' => ∃ h, m' = { m with heap := h } ∧
    x m.heap = .error e h)
    (liftM x : MachineM α) m fun a m' => ∃ h, m' = { m with heap := h } ∧ x m.heap = .ok a h := by
  cases run : x m.heap with
  | ok a h => exact .inl ⟨a, { m with heap := h }, by
    simp only [liftM, monadLift, MonadLift.monadLift, run], h, rfl, rfl⟩
  | error e h => exact .inr ⟨e, { m with heap := h }, by
    simp only [liftM, monadLift, MonadLift.monadLift, run], h, rfl, rfl⟩

/-- A heap in which a load of the machine failed. -/
def Breaks (m : Machine) (p : Program) (e : Fault) (h : Heap) : Prop :=
  Lowering.load m.globals p m.heap = .error e h ∨
    ∃ node h₁, Lowering.load m.globals p m.heap = .ok node h₁ ∧
    start m.scheduler m.globals node h₁ = .error e h

/-- A load fails while the program is lowered or while its main thread is made, and has touched
nothing but the heap. -/
theorem load_error (x : Exact 0 (L + m.handles) m.heap) (few : m.Few)
    (failed : load p m = .error e m') :
    ∃ h, m' = { m with heap := h } ∧ m.Breaks p e h := by
  obtain ⟨n, -, has⟩ := few.has x
  refine Ends.failed (E := fun e m' => ∃ h, m' = { m with heap := h } ∧ m.Breaks p e h)
    (Q := fun _ _ => True)
    (Ends.get ?_) failed
  refine Ends.bind (act_runs.weaken fun _ _ ⟨h, same, run⟩ => ⟨h, same, .inl run⟩) ?_
  rintro node _ ⟨h₁, rfl, run⟩
  refine Ends.bind (act_runs.weaken fun _ _ ⟨h, same, run'⟩ =>
    ⟨h, same, .inr ⟨node, h₁, run, run'⟩⟩) ?_
  rintro t _ ⟨h₂, rfl, run'⟩
  -- nothing goes wrong any more when the old main thread is dropped
  have own := (start_owns (F := 0)
    ((Lowering.load_owns (F := 0) has.owns).yields _ _ run)).yields _ _ run'
  have order : t ::ₘ (L + m.handles) = m.mainThread ::ₘ t ::ₘ (L + {m.scheduler, m.globals}) := by
    simp only [handles, Multiset.insert_eq_cons, ← Multiset.singleton_add]
    abel
  rw [order] at own
  obtain ⟨h', freed, -⟩ := own.exact.free
  exact Ends.bind (Q := fun _ m' => m'.heap = h₂) (Gives.modify rfl).ends fun _ m₃ same =>
    .inl ⟨(), _, liftHeap_ok (same ▸ freed), trivial⟩

/-- What a load that failed leaves of a machine. -/
structure Leftover (m : Machine) (p : Program) (m' : Machine) : Prop where
  /-- Handles, output, random numbers, steps and pictures are as they were. -/
  machine : m' = { m with heap := m'.heap }
  /-- A program without `main` and one that imports an unknown package are refused at once. -/
  refused : p.main? = none ∨ (∃ package ∈ p.imports, Builtin.isPackage package = false) → m' = m
  /-- Records stay, and say the same. -/
  records : ∀ a B, a ≠ m.globals → a ≠ m.scheduler → m.heap.body? a = some B →
  m'.heap.body? a = some B
  /-- The global frame may have new bindings in front of the others. -/
  globals : ∀ B, m.heap.body? m.globals = some B → ∃ first', m'.heap.body? m.globals =
    some { B with children := B.children.set 1 first' } ∧
      ∀ first, B.children[1]? = some first → Ahead m'.heap.body? p.keys first first'
  /-- A thread number may be used up. -/
  scheduler : ∀ B, m.heap.body? m.scheduler = some B → m'.heap.body? m.scheduler = some B ∨
    B.tag = .scheduler ∧ ∃ w, B.fields[0]? = some w ∧
      m'.heap.body? m.scheduler = some { B with fields := B.fields.set 0 (w + 1) }

/-- What becomes of the ground in a load that fails. -/
theorem Breaks.left {G : Ground} {h : Heap} (broke : m.Breaks p e h)
    (b : G.Bears 0 (n + 2) 0 m.heap)
    (apart : m.scheduler ≠ m.globals) (frame : G.facts m.globals ≠ none)
    (scheduler : G.facts m.scheduler ≠ none)
    (lawful : e.isProtocol = false) :
    ∃ G₁ G₂, G.Opens m.globals p.keys G₁ ∧ G₁.Numbers m.scheduler G₂ ∧ G₂.Left 0 0 h := by
  have loads : Crafts (OpenedLeft 0 m.globals p.keys G) 0
    (Lowering.load m.globals p) m.heap fun node h' =>
    Opened 0 m.globals p.keys G (n + 2) (node ::ₘ 0) h' := Lowering.load_opens ⟨G, .refl, b⟩ frame
  rcases broke with failed | ⟨node, h₁, run, failed⟩
  · obtain ⟨G₁, opens, left⟩ :=
      Ends.failed (E := fun _ h' => OpenedLeft 0 m.globals p.keys G 0 h') loads failed
    exact ⟨G₁, G₁, opens, .refl, left⟩
  · obtain ⟨G₁, opens, b⟩ := Ends.yields loads _ _ run
    have known : G₁.facts m.scheduler ≠ none := by
      obtain ⟨B, hB⟩ := Option.ne_none_iff_exists'.1 scheduler
      simp [opens.facts.rest (Facts.without_some.2 ⟨apart, hB⟩)]
    obtain ⟨G₂, numbers, left⟩ := Ends.failed (start_tries (D := 0) b known) failed lawful
    exact ⟨G₁, G₂, opens, numbers, left⟩

theorem Lowering.visible_error {imports : List String} {package : String} (mem : package ∈ imports)
    (unknown : Builtin.isPackage package = false) : ∃ e, Lowering.visible imports = .error e := by
  induction imports with
  | nil => cases mem
  | cons q imports ih =>
    rw [Lowering.visible]
    split
    · exact ⟨_, rfl⟩
    · next k =>
      have other : package ≠ q := by
        rintro rfl
        simp [unknown] at k
      obtain ⟨e, failed⟩ := ih ((List.mem_cons.1 mem).resolve_left other)
      exact ⟨e, by rw [failed]; rfl⟩

/-- Some programs are refused at once. -/
theorem Breaks.refused {h : Heap} (broke : m.Breaks p e h)
    (refused : p.main? = none ∨ ∃ package ∈ p.imports, Builtin.isPackage package = false) :
    h = m.heap := by
  have failed : ∃ e, Lowering.load m.globals p m.heap = .error e m.heap := by
    unfold Lowering.load
    split
    · exact ⟨_, rfl⟩
    · next main =>
      obtain ⟨package, mem, unknown⟩ :=
        refused.resolve_left fun mainless => main (by simp [mainless])
      obtain ⟨e, failed⟩ := Lowering.visible_error mem unknown
      refine ⟨e, bind_error (bind_error ?_)⟩
      rw [failed]
      rfl
  obtain ⟨e', failed⟩ := failed
  rcases broke with run | ⟨_, _, run, -⟩
  · cases run.symm.trans failed
    rfl
  · cases run.symm.trans failed

/-- What a load that fails leaves of a machine, unless it fails against the rules of the heap. -/
theorem Used.load_leftover (used : Used m) (few : m.Few) (failed : load p m = .error e m')
    (lawful : e.isProtocol = false) :
    Leftover m p m' := by
  obtain ⟨L, x⟩ := used.leaks
  obtain ⟨apart, created, present⟩ := used.apart
  obtain ⟨n, -, has⟩ := few.has x
  obtain ⟨h, rfl, broke⟩ := load_error x few failed
  let G : Ground := ⟨m.heap.body?, L + m.handles, x.held⟩
  have b : G.Bears 0 (n + 2 + 2) 0 m.heap :=
    ⟨(zero_add (L + m.handles)).symm ▸ has.owns, fun _ _ hB => hB⟩
  have known {a : Address} (handle : a ∈ m.handles) (ha : a ≠ .nil) : G.facts a ≠ none :=
    (Heap.Reports.of has.owns).isLive.1 (x.isLive_of_mem (Multiset.mem_add.2 (.inr handle)) ha)
  obtain ⟨G₁, G₂, opens, numbers, left⟩ := broke.left b apart (known (by simp [handles]) present)
    (known (by simp [handles]) created) lawful
  refine ⟨rfl, fun refused => by
    rw [broke.refused refused], fun a B ha ha' hB => ?_, fun B hB => ?_, fun B hB => ?_⟩
  · exact left.body (numbers.rest
      (Facts.without_some.2 ⟨ha', opens.facts.rest (Facts.without_some.2 ⟨ha, hB⟩)⟩))
  · obtain ⟨first', here, ahead⟩ := opens.facts.frame B hB
    refine ⟨first', left.body (numbers.rest (Facts.without_some.2 ⟨apart.symm, here⟩)),
      fun first slot => ?_⟩
    refine (ahead first slot).ofSubButSchedulers fun a C hC other => ?_
    exact left.body (numbers.subButSchedulers (Facts.without_some.1 hC).2 other)
  · refine (numbers.number B (opens.facts.rest (Facts.without_some.2 ⟨apart, hB⟩))).imp
      (fun here => left.body here) ?_
    rintro ⟨tagged, w, number, here⟩
    exact ⟨tagged, w, number, left.body here⟩

/-- A function `f`, and then a body that cannot be lowered. -/
def brokenProgram : Program :=
  ⟨[], [.func { name := "f", params := [], result := none, body := [] },
    .func {
      name := "main", params := [], result := none
      body := [.assign (.call (.name "f") []) (.literal (.int32 1))] }]⟩

/-- The load fails, and the function before the broken one is bound. -/
def brokenRun (made : Except Fault Machine) : Bool :=
  match made with
  | .error _ => false
  | .ok m₀ => match load brokenProgram m₀, Frame.lookupText? m₀.globals "f" m₀.heap with
    | .error e m₁, .ok none => match Frame.lookupText? m₁.globals "f" m₁.heap with
      | .ok (some _) => !e.isProtocol ∧ m₀.heap.liveCount < m₁.heap.liveCount
      | _ => false
    | _, _ => false

/-- The machines before and after. -/
theorem broken_runs {made : Except Fault Machine} (ran : brokenRun made) :
    ∃ m₀ m₁ : Machine, ∃ e v, made = .ok m₀ ∧
    load brokenProgram m₀ = .error e m₁ ∧ Frame.lookupText? m₀.globals "f" m₀.heap = .ok none ∧
    Frame.lookupText? m₁.globals "f" m₁.heap = .ok (some v) ∧ e.isProtocol = false ∧
    m₀.heap.liveCount < m₁.heap.liveCount := by
  unfold brokenRun at ran
  split at ran
  · cases ran
  next m₀ =>
  split at ran
  case h_2 => cases ran
  next e m₁ failed before =>
  split at ran
  case h_2 => cases ran
  next v after => exact ⟨m₀, m₁, e, v, rfl, failed, before, after, by simpa using ran⟩

/-- The load fails when there are more records than before and `f` is bound. -/
theorem brokenProgram_fails : ∃ m₀ m₁ : Machine, ∃ e v, new { heapWords := 1024 } = .ok m₀ ∧
    load brokenProgram m₀ = .error e m₁ ∧ Frame.lookupText? m₀.globals "f" m₀.heap = .ok none ∧
    Frame.lookupText? m₁.globals "f" m₁.heap = .ok (some v) ∧ e.isProtocol = false ∧
    m₀.heap.liveCount < m₁.heap.liveCount := by
  have ran : brokenRun (new { heapWords := 1024 }) := by decide +kernel
  exact broken_runs ran

/-- The body of `main` cannot be lowered when `f` is bound. -/
theorem load_leftover_broken : ∃ m₀ m₁ : Machine, ∃ e, Used m₀ ∧ m₀.Few ∧
    load brokenProgram m₀ = .error e m₁ ∧
    e.isProtocol = false ∧ Leftover m₀ brokenProgram m₁ := by
  obtain ⟨m₀, m₁, e, -, made, failed, -, -, lawful, -⟩ := brokenProgram_fails
  have few := (new_accounted made).few
  exact ⟨m₀, m₁, e, .new made, few, failed, lawful, (Used.new made).load_leftover few failed lawful⟩

/-- A load that has failed can be told from one that was never tried: there are more records, and
the global frame has one binding more. -/
theorem load_not_atomic : ∃ m₀ m₁ : Machine, ∃ e, new { heapWords := 1024 } = .ok m₀ ∧
    load brokenProgram m₀ = .error e m₁ ∧ m₀.heap.liveCount < m₁.heap.liveCount ∧
    Frame.lookupText? m₀.globals "f" m₀.heap = .ok none ∧
    ∃ v, Frame.lookupText? m₁.globals "f" m₁.heap = .ok (some v) := by
  obtain ⟨m₀, m₁, e, v, made, failed, before, after, -, more⟩ := brokenProgram_fails
  exact ⟨m₀, m₁, e, made, failed, more, before, v, after⟩

end Machine
end GoMachine
