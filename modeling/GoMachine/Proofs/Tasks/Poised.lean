import GoMachine.Proofs.Tasks.Loads
/-!
# What threads have on their stashes

A thread has as many operands as the nodes on its control stack take, but for the one it may wait
for. So each node finds its operands, no thread ends with operands left, and none waits that has
nothing left to do.

* `Task.Turns.poised`, `Task.Woken.poised`, `Task.Starts.poised`: what is done to a thread keeps it
  so.
* `Machine.Reached.poised`: all threads are so, whatever programs are loaded and however they run.
-/
namespace GoMachine

variable {τ τ' : Task} {c : Code} {cs : List Code} {ds : List Nat} {x : Nat} {fs : List UInt64}
    {ks : List Address}
  {ps : List Code} {m m' : Machine} {σ σ' : Address → Task}

theorem Fits.of_exit (f : Fits (.node .exitScopeI fs ks ps :: cs) (x :: ds)) :
    Fits cs (x :: ds) := by
  cases f with
  | eval e => cases e <;> simp_all [Tag.operands?, Tag.split?]
  | stmt s => cases s
  | exit f => exact f
  | loop l => cases l

/-- A node with a tag. -/
theorem Code.of_tag {t : Tag} (h : c.tag = t) (notNil : t ≠ .nil) : ∃ fs ks ps,
    c = .node t fs ks ps := by
  cases c <;> simp_all [tag]

/-- What is left of a loop that is left, or of its turn, takes nothing yet. -/
theorem Fits.leave {pre : List Code} {d : Nat} (f : Fits (pre ++ c :: cs) (x :: d :: ds))
    (inner : ∀ p ∈ pre, p.tag ≠ .restoreEnvI) (h : c.tag = .forLoopI ∨ c.tag = .markerI) :
    Fits cs (0 :: d :: ds) := by
  obtain ⟨y, f⟩ := f.drop inner
  rcases h with h | h
  · obtain ⟨fs, ks, ps, rfl⟩ := Code.of_tag h (by simp)
    obtain ⟨_, _, e, -, -, f⟩ := f.of_loop
    cases e
    exact f
  · obtain ⟨fs, ks, ps, rfl⟩ := Code.of_tag h (by simp)
    obtain ⟨_, _, e, -, f⟩ := f.of_marker
    cases e
    exact f

namespace Task

/-- The nodes of a thread take so many operands, call by call. -/
def Takes (τ : Task) (ds : List Nat) : Prop := Fits (τ.control.map Entry.code) ds

/-- A thread has the operands that its nodes take. -/
def Level (τ : Task) : Prop := ∃ d ds, τ.Takes (d :: ds) ∧ τ.stash.length = (d :: ds).sum

/-- How many operands a thread has, by what it waits for. A body that comes by a `select` takes
none. -/
def Supplied (τ : Task) (d : Nat) (ds : List Nat) : Prop :=
  match τ.waits with
  | none | some .turn => τ.stash.length = d + ds.sum
  | some .value => τ.stash.length + 1 = d + ds.sum
  | some .case => d = 0 ∧ ds ≠ [] ∧ τ.stash.length = ds.sum

/-- A thread has the operands that it needs, has something to do while it waits, and nothing else
when it neither waits nor stands in the run queue. -/
structure Poised (τ : Task) : Prop where
  made : τ.made
  supplied : ∃ d ds, τ.Takes (d :: ds) ∧ τ.Supplied d ds
  busy : τ.waits ≠ none → τ.control ≠ []
  done : τ.waits = none → ¬τ.queued → τ.control = []

theorem poised_nobody : Poised .nobody :=
    ⟨rfl, ⟨0, [], .done, rfl⟩, by simp [nobody], by simp [nobody]⟩

/-- What a node makes of its thread leaves it the operands that are left to take. -/
theorem Makes.level (made : τ.Makes c τ') (f : Fits (c :: τ.control.map Entry.code) (x :: ds))
    (full : τ.stash.length = (x :: ds).sum) : τ'.Level := by
  rw [List.sum_cons] at full
  cases made with
  | @expands m E V e =>
    obtain ⟨d, rfl, -, g⟩ := e.fits f
    refine ⟨d + V.length, ds, by simpa [Takes] using g, ?_⟩
    simp only [List.length_append, List.length_drop, List.sum_cons, full]
    omega
  | @opens m f' A B y o closes new =>
    obtain ⟨node, code⟩ := y
    obtain ⟨fs, ks, ps, rfl⟩ := Code.of_tag closes (by simp)
    obtain ⟨d, rfl, -, g⟩ := o.fits f
    refine ⟨d, ds, by simpa [Takes] using g, ?_⟩
    simp only [List.length_drop, List.sum_cons, full]
    omega
  | closes ht =>
    obtain ⟨fs, ks, ps, rfl⟩ := Code.of_tag ht (by simp)
    exact ⟨x, ds, f.of_exit, full⟩
  | @unwinds pre e rest line t kind split at' skip =>
    have inner : ∀ p ∈ pre.map Entry.code, p.tag ≠ .restoreEnvI := by
      simpa using fun p hp => (skip p hp).2
    have at' : e.code.tag = .forLoopI ∨ e.code.tag = .markerI := at' ▸ kind.imp And.right And.right
    obtain ⟨d, ds', rfl, rfl, g⟩ : ∃ d ds', ds = d :: ds' ∧ x = 0 ∧
      Fits (τ.control.map Entry.code) (0 :: d :: ds') := by
      rcases kind with ⟨hc, -⟩ | ⟨hc, -⟩ <;>
      · obtain ⟨fs, ks, ps, rfl⟩ := Code.of_tag hc (by simp)
        obtain ⟨d, ds', rfl, acts, g⟩ := f.of_stmt rfl rfl (by simp)
        cases acts
        exact ⟨d, ds', rfl, rfl, g⟩
    rw [split, List.map_append, List.map_cons] at g
    exact ⟨0, d :: ds', g.leave inner at', by simpa using full⟩
  | @enters argc fs ks ps body b r e f' line' y hc runs new =>
    subst hc
    obtain ⟨w, e'⟩ := Code.Stands.counted ⟨_, x, ds, f⟩ (by simp)
    cases e'
    obtain ⟨d, rfl, g⟩ := f.enter runs
    refine ⟨0, d :: ds, g, ?_⟩
    simp only [List.length_drop, List.sum_cons, full]
    omega
  | @returns pre e rest ht split at' inner =>
    obtain ⟨fs, ks, ps, rfl⟩ := Code.of_tag ht (by simp)
    obtain ⟨y, d, ds', rfl, rfl, g⟩ := f.of_returnFromI
    rw [split, List.map_append, List.map_cons] at g
    obtain ⟨z, g⟩ := g.drop (by simpa using inner)
    obtain ⟨node, code⟩ := e
    obtain ⟨fs', ks', ps', rfl⟩ := Code.of_tag at' (by simp)
    obtain ⟨_, _, e, rfl, -⟩ := g.of_restore
    exact ⟨1, d :: ds', g, full⟩
  | restores hc =>
    subst hc
    obtain ⟨d, ds', rfl, rfl, g⟩ := f.of_restore
    refine ⟨d + 1, ds', g, ?_⟩
    simp only [List.sum_cons] at full ⊢
    omega

/-- A thread that goes on has what it needs. -/
theorem Level.poised (l : τ.Level) (made : τ.made) (runs : τ.waits = none) (queued : τ.queued) :
    τ.Poised := by
  obtain ⟨d, ds, takes, full⟩ := l
  exact ⟨made, ⟨d, ds, takes, by rw [Supplied, runs]; exact full⟩, fun h =>
    absurd runs h, fun _ h => absurd queued h⟩

/-- A thread that runs has what its nodes take. -/
theorem Poised.level (p : τ.Poised) (runs : τ.waits = none) : τ.Level := by
  obtain ⟨d, ds, takes, supplied⟩ := p.supplied
  rw [Supplied, runs] at supplied
  exact ⟨d, ds, takes, supplied⟩

/-- A call or a send leaves something to do. -/
theorem Makes.busy (made : τ.Makes c τ') (ht : c.tag = .callI ∨ c.tag = .chanSendI)
    (f : Fits (c :: τ.control.map Entry.code) (x :: ds)) : τ'.control ≠ [] := by
  have kept : τ.control ≠ [] := by
    rintro e
    rw [e, List.map_nil] at f
    rcases ht with ht | ht
    · obtain ⟨fs, ks, ps, rfl⟩ := Code.of_tag ht (by simp)
      obtain ⟨w, rfl⟩ := Code.Stands.counted ⟨_, x, ds, f⟩ (by simp)
      obtain ⟨d, -, g⟩ := f.of_simple rfl
      cases g
    · obtain ⟨fs, ks, ps, rfl⟩ := Code.of_tag ht (by simp)
      obtain ⟨d, ds', rfl, -, g⟩ := f.of_stmt rfl rfl (by simp)
      cases g
  cases made with
  | expands e => exact List.append_ne_nil_of_right_ne_nil _ kept
  | opens | enters => simp
  | closes h | returns h => rcases ht with ht | ht <;> simp [ht] at h
  | unwinds t kind => rcases ht with ht | ht <;> simp [ht] at kind
  | restores h => rcases ht with ht | ht <;> simp [h, Code.tag] at ht

/-- A turn leaves a thread what it needs. -/
theorem Turns.poised (turns : τ.Turns c τ') (f : Fits (c :: τ.control.map Entry.code) (x :: ds))
    (full : τ.stash.length = (x :: ds).sum) (whole : τ.made) : τ'.Poised := by
  have kept : ∀ {τ₁}, τ.Makes c τ₁ → τ₁.made := fun made => by
    cases made <;> exact whole
  cases turns with
  | goes made goes =>
    obtain ⟨p, rfl⟩ := goes
    have whole := kept made
    exact Level.poised (made.level f full) whole rfl rfl
  | parks ht made =>
    obtain ⟨d, ds, takes, supplied⟩ := made.level f full
    have whole := kept made
    exact ⟨whole, ⟨d, ds, takes, supplied⟩, fun _ => made.busy ht f, nofun⟩
  | receives ht =>
    obtain ⟨fs, ks, ps, rfl⟩ := Code.of_tag ht (by simp)
    obtain ⟨d, rfl, g⟩ := f.of_simple rfl
    refine ⟨whole, ⟨d + 1, ds, g, ?_⟩, fun _ e => ?_, nofun⟩
    · simp only [Supplied, List.length_drop, full, List.sum_cons]
      omega
    · rw [show τ.control = [] from e] at g
      cases g
  | selects hc =>
    subst hc
    obtain ⟨d, ds', rfl, rfl, -, g⟩ := f.of_selectI
    refine ⟨whole, ⟨0, d :: ds', g, rfl, by simp, ?_⟩, fun _ e => ?_, nofun⟩
    · simp [full]
    · rw [show τ.control = [] from e] at g
      cases g

/-- What wakes a thread brings what it waits for. -/
theorem Woken.poised (woken : τ.Woken τ') (p : τ.Poised) : τ'.Poised := by
  obtain ⟨whole, ⟨d, ds, takes, supplied⟩, -, -⟩ := p
  cases woken with
  | turn waits =>
    rw [Supplied, waits] at supplied
    exact Level.poised ⟨d, ds, takes, supplied⟩ whole rfl rfl
  | value waits =>
    rw [Supplied, waits] at supplied
    exact Level.poised ⟨d, ds, takes, supplied⟩ whole rfl rfl
  | sent waits runs =>
    rw [Supplied, waits] at supplied
    obtain ⟨rfl, notNil, full⟩ := supplied
    obtain ⟨d, ds, rfl⟩ := List.exists_cons_of_ne_nil notNil
    exact Level.poised ⟨0, d :: ds, .runs runs takes, by simpa using full⟩ whole rfl rfl
  | received waits runs =>
    rw [Supplied, waits] at supplied
    obtain ⟨rfl, notNil, full⟩ := supplied
    obtain ⟨d, ds, rfl⟩ := List.exists_cons_of_ne_nil notNil
    refine Level.poised ⟨1, d :: ds, .runs runs takes, ?_⟩ whole rfl rfl
    simp only [List.length_cons, full, List.sum_cons]
    omega

/-- A new thread has the operands of the call that it starts with. -/
theorem Starts.poised (starts : τ.Starts τ') : τ'.Poised := by
  obtain ⟨⟨a, b, argc, control, len⟩, -, runs, queued, made⟩ := starts
  refine Level.poised ⟨argc.toNat + 1, [], ?_, by simpa using len⟩ made runs queued
  have called : Fits [.node .callI [argc] [] [], .node .popI [] [] []] [0 + (argc.toNat + 1)] :=
    .eval (.simple rfl) (.eval (d := 0) (.simple rfl) .done)
  rw [Takes, control]
  simpa using called

end Task

namespace Machine

variable {more : Bool}

/-- What stands in front of a thread has a place there. -/
theorem stands_of_poised (p : ∀ u, (σ u).Poised) (t : Address) (e : Entry) (rest : List Entry)
    (hτ : (σ t).control = e :: rest) : e.code.Stands := by
  obtain ⟨d, ds, takes, -⟩ := (p t).supplied
  rw [Task.Takes, hτ] at takes
  exact ⟨_, d, ds, takes⟩

/-- A step leaves all threads what they need. -/
theorem Passed.poised (passed : m.Passed σ σ' more) (p : ∀ u, (σ u).Poised) (u : Address) :
    (σ' u).Poised := by
  cases passed with
  | idle _ e => exact e ▸ p u
  | @ended t _ _ _ runs finished e =>
    rw [e]
    by_cases h : u = t
    · subst h
      rw [Function.update_self]
      exact ⟨(p u).made, by
        simpa [Task.Takes, Task.Supplied] using (p u).supplied, fun h => absurd runs h, fun _ _ =>
          finished⟩
    · rw [Function.update_of_ne h]
      exact p u
  | @turn t _ e rest _ _ runs hτ turns joined =>
    by_cases h : u = t
    · subst h
      obtain ⟨d, ds, takes, full⟩ := (p u).level runs
      rw [Task.Takes, hτ] at takes
      exact turns.poised takes full (p u).made
    · rcases joined u h with e | woken | ⟨-, starts⟩
      · exact e ▸ p u
      · exact woken.poised (p u)
      · exact starts.poised

theorem narrowed_poised {F : Facts} (p : ∀ u, (σ u).Poised) (u : Address) :
    (F.narrowed σ u).Poised := by
  unfold Facts.narrowed
  split
  · exact ⟨(p u).made, (p u).supplied, (p u).busy, (p u).done⟩
  · exact Task.poised_nobody

/-- A loaded program starts with what it needs. -/
theorem Loaded.poised (loaded : m.Loaded m' σ σ') (p : ∀ u, (σ u).Poised) (u : Address) :
    (σ' u).Poised := by
  obtain ⟨run, -, rfl⟩ := loaded
  by_cases h : u = m'.mainThread
  · subst h
    rw [Function.update_self]
    exact Task.Level.poised ⟨0, [], .eval (d := 0) run .done, rfl⟩ rfl rfl rfl
  · rw [Function.update_of_ne h]
    exact p u

theorem Reached.poised (reached : m.Reached) : ∃ σ, m.Follows σ ∧ ∀ u, (σ u).Poised := by
  induction reached with
  | new made => exact ⟨_, new_follows made, fun _ => Task.poised_nobody⟩
  | load _ run ih =>
    obtain ⟨σ, g, p⟩ := ih
    obtain ⟨σ', g', loaded⟩ := g.load _ _ run
    exact ⟨σ', g', loaded.poised p⟩
  | step _ run ih =>
    obtain ⟨σ, g, p⟩ := ih
    obtain ⟨σ', g', passed⟩ := g.step (stands_of_poised p) _ _ run
    exact ⟨σ', g', passed.poised p⟩
  | collect _ run ih =>
    obtain ⟨σ, g, p⟩ := ih
    exact ⟨σ, g.collect _ _ run, p⟩

end Machine
end GoMachine
