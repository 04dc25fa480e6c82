import GoMachine.Proofs.Tasks.Isolation
/-!
# Deadlocks

A program has come to its end when no thread is runnable, and `run` looks only at whether the main
thread has nodes left then. It has, exactly if it waits: whatever may wait leaves something to do
below itself.

* `Machine.Passed.departs`: how a thread comes out of the run queue.
* `Machine.Steps.traces`: a thread that is not in the run queue came out of it in one of the steps,
  and is as it was left then.
* `Machine.deadlock_exact`: when `run` reports a deadlock.
-/
namespace GoMachine

variable {m m' m₀ m₁ m₂ : Machine} {σ σ' : Address → Task} {h : Heap} {t u : Address}
    {rest ts : List Address}
  {τ : Task} {j k n : Nat} {more : Bool}

/-- How a thread comes out of the run queue. -/
inductive Departure where
  | parked | ended
  deriving DecidableEq

/-- What may leave a thread waiting: a call of a builtin, and the second halves of what is done to
channels. -/
def Tag.mayWait (t : Tag) : Bool := t ∈ [.callI, .chanSendI, .chanReceiveI, .selectI]

namespace Task

/-- What a thread has left to do that came out of the run queue. -/
def Left (τ : Task) : Departure → Prop
  | .parked => τ.waits ≠ none
  | .ended => τ.waits = none ∧ τ.control = []

theorem Left.finished {d : Departure} (l : τ.Left d) (p : τ.Poised) :
    τ.control.isEmpty = decide (d = .ended) := by
  cases d with
  | parked => simpa using p.busy l
  | ended => simp [l.2]

/-- A turn after which a thread is not in the run queue leaves it waiting. -/
theorem Turns.waits {c : Code} {τ' : Task} (turns : τ.Turns c τ') : τ'.queued ∨ τ'.waits ≠ none ∧
    c.tag.mayWait := by
  cases turns with
  | goes _ goes =>
    obtain ⟨p, rfl⟩ := goes
    exact .inl rfl
  | parks ht => exact .inr ⟨by simp, by rcases ht with ht | ht <;> rw [ht] <;> rfl⟩
  | receives ht => exact .inr ⟨by simp, by rw [ht]; rfl⟩
  | selects hc => exact .inr ⟨by simp, by rw [hc]; rfl⟩

end Task

theorem Facts.Says.tagged {F : Facts} {a : Address} {c : Code} (s : F.Says a c)
    (notNil : c.tag ≠ .nil) :
    ∃ B, F a = some B ∧ B.tag = c.tag := by
  cases s with
  | node ha => exact ⟨_, ha, rfl⟩
  | _ => exact absurd rfl notNil

/-- The node on top of the control stack. -/
theorem Heap.Leaves.top {e : Entry} {es : List Entry} (l : h.Leaves u τ)
    (first : τ.control = e :: es) :
    (Thread.control u >>= Stack.peek) h = .ok e.node := by
  have values := l.control
  rw [first, List.map_cons] at values
  obtain ⟨st, read, values⟩ := query_bind_ok.1 values
  obtain ⟨t, tagged, values⟩ := query_bind_ok.1 values
  obtain ⟨top, child, values⟩ := query_bind_ok.1 values
  obtain ⟨n, -, values⟩ := query_bind_ok.1 values
  refine query_bind_ok.2 ⟨st, read, query_bind_ok.2 ⟨t, tagged, query_bind_ok.2 ⟨top, child, ?_⟩⟩⟩
  rw [Chain.take] at values
  split at values
  · cases values
  · next live =>
    obtain ⟨v, first, values⟩ := query_bind_ok.1 values
    obtain ⟨next, -, values⟩ := query_bind_ok.1 values
    obtain ⟨vs, -, values⟩ := query_bind_ok.1 values
    obtain ⟨rfl, -⟩ := List.cons_eq_cons.1 (query_pure_ok.1 values)
    rw [if_neg live]
    exact first

namespace Machine

/-- A step takes the thread in front out of the run queue: it had nothing left to do, or its node
leaves it waiting. -/
structure Departs (u : Address) (d : Departure) (m m' : Machine) : Prop where
  next : Next m u
  out : ∀ ts, m'.runnable = .ok ts → u ∉ ts
  finished : Thread.isFinished u m.heap = .ok (d = .ended)
  waits : d = .parked → ∃ node tag, (Thread.control u >>= Stack.peek) m.heap = .ok node ∧
    m.heap.tag node = .ok tag ∧ tag.mayWait

/-- How a thread came out of the run queue last in so many steps. -/
inductive LeftLast (u : Address) (d : Departure) : Nat → Machine → Machine → Prop
  | now {n : Nat} {m m₁ m₂ : Machine} : Steps n m m₁ → step m₁ = .ok true m₂ → Departs u d m₁ m₂ →
      LeftLast u d (n + 1) m m₂
  | later {n : Nat} {m m₁ m₂ : Machine} : LeftLast u d n m m₁ → step m₁ = .ok true m₂ →
      (∀ d', ¬Departs u d' m₁ m₂) →
    LeftLast u d (n + 1) m m₂

theorem Departs.unique {d d' : Departure} (l : Departs u d m m') (l' : Departs u d' m m₁) :
    d = d' := by
  have e := l.finished.symm.trans l'.finished
  simp only [Except.ok.injEq, decide_eq_decide] at e
  cases d <;> cases d' <;> simp_all

/-! ## Steps -/

namespace Steps

theorem unique (steps : Steps n m m₁) (steps' : Steps n m m₂) : m₁ = m₂ := by
  induction steps with
  | refl =>
    cases steps'
    rfl
  | step run _ ih =>
    cases steps' with
    | step run' steps' =>
      obtain rfl : _ = _ := by
        have := run.symm.trans run'
        simpa using this
      exact ih steps'

theorem trans (steps : Steps j m m₁) (more : Steps k m₁ m₂) : Steps (j + k) m m₂ := by
  induction steps with
  | refl => simpa using more
  | step run _ ih =>
    rw [Nat.add_right_comm]
    exact .step run (ih more)

/-- The last of the steps, and those before. -/
theorem last (steps : Steps (n + 1) m m') : ∃ m₁, Steps n m m₁ ∧ Machine.step m₁ = .ok true m' := by
  induction n generalizing m with
  | zero =>
    cases steps with
    | step run steps =>
      cases steps
      exact ⟨m, .refl, run⟩
  | succ n ih =>
    cases steps with
    | step run steps =>
      obtain ⟨m₁, steps, run'⟩ := ih steps
      exact ⟨m₁, .step run steps, run'⟩

theorem one (run : Machine.step m = .ok true m₁) : Steps 1 m m₁ := .step run .refl

end Steps

namespace LeftLast

variable {d d' : Departure}

theorem steps (l : LeftLast u d n m m') : Steps n m m' := by
  induction l with
  | now steps run => exact steps.trans (.one run)
  | later _ run _ ih => exact ih.trans (.one run)

/-- There is only one last time. -/
theorem unique (l : LeftLast u d n m m') (l' : LeftLast u d' n m m') : d = d' := by
  induction l with
  | now steps _ departs =>
    cases l' with
    | now steps' _ departs' =>
      obtain rfl := steps.unique steps'
      exact departs.unique departs'
    | later l' _ stays =>
      obtain rfl := steps.unique l'.steps
      exact absurd departs (stays d)
  | later l _ stays ih =>
    cases l' with
    | now steps' _ departs' =>
      obtain rfl := l.steps.unique steps'
      exact absurd departs' (stays d')
    | later l' =>
      obtain rfl := l.steps.unique l'.steps
      exact ih l'

end LeftLast

/-- The thread in front comes back to the run queue, or comes out of it in this step. -/
theorem Passed.departs (g : m.Follows σ) (p : ∀ u, (σ u).Poised) (g' : m'.Follows σ')
    (passed : m.Passed σ σ' true) (front : Scheduler.dequeue m.scheduler m.heap = .ok u h)
    (next : Next m u)
    (thread : m.heap.HasTag .thread u) (run : m'.runnable = .ok ts) : u ∈ ts ∨
    ∃ d, Departs u d m m' ∧ (σ' u).Left d := by
  have notNil : u ≠ .nil := g.sound.ne_nil thread.isLive
  have l := g.leaves thread (p u).made
  obtain ⟨standing, queued⟩ := g'.runnable run
  have out : u ∉ ts → ∀ ts', m'.runnable = .ok ts' → u ∉ ts' := fun out ts' run' => by
    cases run.symm.trans run'
    exact out
  cases passed with
  | ended front' _ runs finished e =>
    cases front.symm.trans front'
    have after : σ' u = { σ u with place := Option.none, queued := false } := by
      rw [e, Function.update_self]
    refine .inr ⟨.ended, ⟨next, out fun mem => (standing u mem notNil).1 (by rw [after]), ?_,
      nofun⟩, ?_⟩
    · simpa [finished] using l.finished
    · rw [after]
      exact ⟨runs, finished⟩
  | @turn _ _ e es front' _ runs first turns _ =>
    cases front.symm.trans front'
    rcases turns.waits with stands | ⟨waits, may⟩
    · exact .inl (queued u notNil stands)
    · refine .inr ⟨.parked, ⟨next, out fun mem => waits (standing u mem notNil).2, ?_, fun _ => ?_⟩,
        waits⟩
      · simpa [first] using l.finished
      · obtain ⟨B, hB, tag⟩ := (l.codes e (by simp [first])).tagged fun absent => by
          simp [absent, Tag.mayWait] at may
        obtain ⟨c, hc, rfl⟩ := Heap.body?_eq_some.1 hB
        exact ⟨e.node, _, l.top first, g.sound.tag_ok.2 (.inr ⟨c, hc, tag⟩), may⟩

/-- A thread is in the run queue after a step, or came out of it, or was not in it and is left
alone. -/
theorem Passed.traces {ts' : List Address} (reached : m.Reached) (g : m.Follows σ)
    (p : ∀ u, (σ u).Poised)
    (ran : step m = .ok true m') (g' : m'.Follows σ') (passed : m.Passed σ σ' true)
    (thread : m.heap.HasTag .thread u)
    (run : m.runnable = .ok ts) (run' : m'.runnable = .ok ts') :
    u ∈ ts' ∨ (∃ d, Departs u d m m' ∧ (σ' u).Left d) ∨ u ∉ ts ∧ σ' u = σ u := by
  obtain ⟨K, F, q, links, ts₀, ord⟩ := reached.ordered
  obtain rfl : ts₀ = ts := by
    cases ord.runnable.symm.trans run
    rfl
  cases ts₀ with
  | nil => cases (ord.step_idle _ _ ran).1
  | cons t rest =>
    obtain ⟨h, front, -⟩ := reached.front run ran
    by_cases e : u = t
    · subst e
      exact (passed.departs g p g' front ⟨rest, run⟩ thread run').imp_right .inl
    · rcases passed.apart front e thread with same | woken
      · refine or_iff_not_imp_left.2 fun out => .inr ⟨fun mem => out ?_, same⟩
        obtain ⟨-, K', F', links', new, ord', -⟩ := ord.step reached.accounted _ _ ran
        cases ord'.runnable.symm.trans run'
        exact List.mem_append_left new ((List.mem_cons.1 mem).resolve_left e)
      · obtain ⟨_, _, -, -, queued, -⟩ := woken.gains
        exact .inl ((g'.runnable run').2 u (g.sound.ne_nil thread.isLive) queued)

/-- The main thread is there as long as the machine is. -/
theorem Follows.main (g : m.Follows σ) (notNil : m.mainThread ≠ .nil) :
    m.heap.HasTag .thread m.mainThread := by
  obtain ⟨ρ, seen, noted⟩ := g.sees
  have note : (m.mainThread, Role.thread) ∈ m.known.notes := by
    simp [known, Known.own, Known.hold, Known.note, notNil]
  have live := (g.live (g.kept _ note)).resolve_left notNil
  obtain ⟨B, hB, tag⟩ := seen.isThread (noted _ note) live
  obtain ⟨c, hc, rfl⟩ := Heap.body?_eq_some.1 hB
  exact ⟨c, hc, tag⟩

/-- No step exchanges the main thread. -/
theorem step_main (acc : m.Accounted) : Yields step m fun _ m' => m'.mainThread = m.mainThread := by
  obtain ⟨n, room, has⟩ := acc.has
  rw [← zero_add m.handles] at has
  exact (Ends.yields (has.step room)).mono fun _ _ ⟨_, _, has⟩ => has.mainThread

/-- A main thread that is not in the run queue came out of it in one of the steps, and is as it was
left then. -/
theorem Steps.traces (steps : Steps n m m') (reached : m.Reached) (notNil : m.mainThread ≠ .nil)
    (stands : ∀ ts, m.runnable = .ok ts → m.mainThread ∈ ts) : m'.Reached ∧
    m'.mainThread = m.mainThread ∧
    ∃ σ, m'.Follows σ ∧ (∀ u, (σ u).Poised) ∧ ∀ ts, m'.runnable = .ok ts →
      m.mainThread ∈ ts ∨ ∃ d, LeftLast m.mainThread d n m m' ∧ (σ m.mainThread).Left d := by
  induction n generalizing m' with
  | zero =>
    cases steps
    obtain ⟨σ, g, p⟩ := reached.poised
    exact ⟨reached, rfl, σ, g, p, fun ts run => .inl (stands ts run)⟩
  | succ n ih =>
    obtain ⟨m₁, steps, ran⟩ := steps.last
    obtain ⟨reached₁, same, σ, g, p, before⟩ := ih steps
    obtain ⟨σ', g', passed⟩ := g.step (stands_of_poised p) _ _ ran
    refine ⟨reached₁.step ran, (step_main reached₁.accounted _ _ ran).trans same, σ', g',
      passed.poised p, fun ts run => ?_⟩
    have thread := g.main (by rwa [same])
    rw [same] at thread
    obtain ⟨K, F, q, links, ts₁, ord⟩ := reached₁.ordered
    rcases passed.traces reached₁ g p ran g' thread ord.runnable
      run with mem | ⟨d, departs, left⟩ | ⟨out, alone⟩
    · exact .inl mem
    · exact .inr ⟨d, .now steps ran departs, left⟩
    · obtain ⟨d, last, left⟩ := (before ts₁ ord.runnable).resolve_left out
      refine .inr ⟨d, .later last ran fun d' departs => out ?_, alone ▸ left⟩
      obtain ⟨rest, run'⟩ := departs.next
      cases ord.runnable.symm.trans run'
      exact List.mem_cons_self ..

/-- A program that was loaded can run. -/
theorem load_runnable {program : Program} (reached : m₀.Reached)
    (loaded : load program m₀ = .ok () m) :
    m.mainThread ≠ .nil ∧ ∀ ts, m.runnable = .ok ts → m.mainThread ∈ ts := by
  obtain ⟨σ, g, -⟩ := reached.poised
  obtain ⟨σ', g', ⟨-, notNil, e⟩⟩ := g.load _ _ loaded
  exact ⟨notNil, fun ts run => (g'.runnable run).2 _ notNil (by rw [e, Function.update_self]; rfl)⟩

/-- The steps of a run. -/
theorem Steps.stepsAfter {tried : Nat} (steps : Steps k m m₁)
    (idle : Machine.step m₁ = .ok false m') {budget : Nat}
    (hk : k < budget) : stepsAfter tried budget m = .ok (tried + k + 1, false) m' := by
  induction steps generalizing tried budget with
  | refl =>
    obtain ⟨b, rfl⟩ := Nat.exists_eq_succ_of_ne_zero (Nat.ne_of_gt hk)
    exact bind_ok.2 ⟨false, m', idle, rfl⟩
  | @step k m m₂ _ run _ ih =>
    obtain ⟨b, rfl⟩ := Nat.exists_eq_succ_of_ne_zero (Nat.ne_of_gt (Nat.zero_lt_of_lt hk))
    refine bind_ok.2 ⟨true, m₂, run, ?_⟩
    rw [if_pos rfl, ih idle (Nat.lt_of_succ_lt_succ hk), Nat.add_right_comm tried 1 k]
    rfl

/-- What comes first has succeeded. -/
theorem bind_of_ok {ε S α β : Type} {x : EStateM ε S α} {f : α → EStateM ε S β} {s s' : S} {a : α}
    (e : x s = .ok a s') :
    (x >>= f) s = f a s' := by
  change EStateM.bind x f s = _
  rw [EStateM.bind, e]

/-- A question leaves a machine as it is. -/
theorem ask_ok {α : Type} {q : Query α} {a : α} (e : q m.heap = .ok a) :
    (liftM q : MachineM α) m = .ok a m := by
  simp only [liftM, monadLift, MonadLift.monadLift, e]

/-- What a run comes to when no thread is runnable any more. -/
theorem run_of_idle {b : Bool} {tried budget : Nat} (notNil : m.mainThread ≠ .nil)
    (ran : advance budget m = .ok (tried, false) m')
    (finished : Thread.isFinished m'.mainThread m'.heap = .ok b) :
    run budget m = if b then .ok true m' else .error .deadlock m' := by
  obtain ⟨control, read, empty⟩ := query_bind_ok.1 finished
  have there : m.mainThread.isNil = false := by
    rwa [Bool.eq_false_iff, ne_eq, Address.isNil_iff]
  refine (bind_of_ok (get_ok.2 ⟨rfl, rfl⟩)).trans ?_
  rw [there, if_neg Bool.false_ne_true]
  refine (bind_of_ok ran).trans
    ((bind_of_ok (get_ok.2 ⟨rfl, rfl⟩)).trans ((bind_of_ok (ask_ok read)).trans
    ((bind_of_ok (ask_ok empty)).trans ?_)))
  cases b <;> rfl

/-- A run that finds no thread in the end takes steps that find one before. -/
theorem Steps.of_stepsAfter {budget tried : Nat}
    (ran : Machine.stepsAfter tried budget m = .ok (n, false) m') :
    ∃ k m₁, k < budget ∧ Steps k m m₁ ∧ Machine.step m₁ = .ok false m' := by
  induction budget generalizing m tried with
  | zero => cases ran
  | succ budget ih =>
    obtain ⟨more, m₂, first, ran⟩ := bind_ok.1 ran
    split at ran
    · next e =>
      subst e
      obtain ⟨k, m₁, hk, steps, idle⟩ := ih ran
      exact ⟨k + 1, m₁, Nat.succ_lt_succ hk, .step first steps, idle⟩
    · next e =>
      obtain rfl : more = false := by simpa using e
      cases ran
      exact ⟨0, m, Nat.succ_pos _, .refl, first⟩

/-- When no thread is runnable any more, `run` reports a deadlock exactly if the main thread came
out of the run queue waiting, and an end of the program exactly if it had nothing left to do. -/
theorem deadlock_exact {program : Program} {budget : Nat} (reached : m₀.Reached)
    (loaded : load program m₀ = .ok () m)
    (before : Steps j m m₁) (steps : Steps k m₁ m₂) (idle : step m₂ = .ok false m')
    (hk : k < budget) :
    (run budget m₁ = .error .deadlock m' ↔ LeftLast m.mainThread .parked (j + k) m m₂) ∧
    (run budget m₁ = .ok true m' ↔ LeftLast m.mainThread .ended (j + k) m m₂) := by
  obtain ⟨notNil, stands⟩ := load_runnable reached loaded
  have reached : m.Reached := reached.load loaded
  obtain ⟨-, same₁, -⟩ := before.traces reached notNil stands
  obtain ⟨reached₂, same₂, σ, g, p, traced⟩ := (before.trans steps).traces reached notNil stands
  obtain ⟨d, last, left⟩ : ∃ d, LeftLast m.mainThread d (j + k) m m₂ ∧ (σ m.mainThread).Left d := by
    obtain ⟨K, F, q, links, ts, ord⟩ := reached₂.ordered
    cases ts with
    | nil => exact (traced [] ord.runnable).resolve_left (by simp)
    | cons => cases (ord.step reached₂.accounted _ _ idle).1
  obtain ⟨σ', g', passed⟩ := g.step (stands_of_poised p) _ _ idle
  obtain rfl : σ' = σ := by
    cases passed
    assumption
  have same' : m'.mainThread = m.mainThread := (step_main reached₂.accounted _ _ idle).trans same₂
  have finished := (g'.leaves (g'.main (by rwa [same'])) (p _).made).finished
  rw [same', left.finished (p _), ← same'] at finished
  rw [run_of_idle (by rwa [same₁]) (steps.stepsAfter idle hk) finished]
  have only : ∀ d', LeftLast m.mainThread d' (j + k) m m₂ ↔ d = d' := fun d' =>
    ⟨last.unique, fun e => e ▸ last⟩
  rw [only, only]
  cases d <;> simp

/-- The main thread waits for a second value that nobody sends: the run ends in a deadlock, and the
main thread came out of the run queue waiting. -/
theorem deadlocked_in_rendezvous : ∃ m₀ m₁ m₂ m' : Machine, ∃ k,
    new { heapWords := 1024 } = .ok m₀ ∧
    load rendezvousProgram m₀ = .ok () m₁ ∧ Steps k m₁ m₂ ∧ step m₂ = .ok false m' ∧
    run 64 m₁ = .error .deadlock m' ∧ LeftLast m₁.mainThread .parked k m₁ m₂ := by
  obtain ⟨m₀, m₁, m₂, m₃, m₄, m₅, u, made, loaded, r⟩ := rendezvous
  obtain ⟨n₂, starts⟩ := r.starts
  obtain ⟨n₃, waits⟩ := r.waits
  obtain ⟨n₅, ends⟩ := r.ends
  obtain ⟨k, m, hk, last, idle⟩ := Steps.of_stepsAfter ends
  have steps : Steps (22 + (2 + (k + 1))) m₁ m :=
    (Steps.of_stepsAfter_true starts).trans
    ((Steps.of_stepsAfter_true waits).trans (.step r.sends last))
  have budget : 22 + (2 + (k + 1)) < 64 := by omega
  obtain ⟨notNil, stands⟩ := load_runnable (.new made) loaded
  obtain ⟨reached, same, -⟩ := steps.traces (.load (.new made) loaded) notNil stands
  have same' : m₅.mainThread = m₁.mainThread := (step_main reached.accounted _ _ idle).trans same
  have ran : run 64 m₁ = .error .deadlock m₅ :=
    run_of_idle (b := false) notNil (steps.stepsAfter idle budget) (same' ▸ r.unfinished)
  have left := (deadlock_exact (.new made) loaded .refl steps idle budget).1.1 ran
  rw [Nat.zero_add] at left
  exact ⟨m₀, m₁, m, m₅, _, made, loaded, steps, idle, ran, left⟩

end Machine
end GoMachine
