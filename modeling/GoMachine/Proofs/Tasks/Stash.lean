import GoMachine.Proofs.Tasks.Poised
/-!
# The discipline of the stash

What a thread has left to do can be read off its records: the nodes on its control stack with what
they say, the values on its stash, and the frames it is in. The values are those that the nodes
take. A step takes as many values off the stash of the running thread as its node takes, and leaves
those below.

* `Machine.Follows.leaves`: what is read off the records of a thread.
* `Machine.Follows.runnable`: a thread with something to do waits, or stands in the run queue.
* `Machine.stash_balanced`: the values on all stashes, and what a step does to them.
-/
namespace GoMachine

variable {F : Facts} {ρ : Roles} {σ σ' : Address → Task} {h : Heap} {a u v x : Address}
    {vs ts line : List Address}
  {k : Class} {c : Code} {cs : List Code} {ds : List Nat} {B : Body} {m m' : Machine} {τ τ' : Task}
  {n : Nat} {K : Known}
  {O : Multiset Address} {t : Tag}

namespace Facts

/-- What a node and those below it say. -/
inductive Says (F : Facts) : Address → Code → Prop
  | data {a : Address} : Says F a .data
  | nothing : Says F .nil .nothing
  | scope {a : Address} {line : List Address} : F.Lines a line → Says F a (.scope line)
  | node {a : Address} {t : Tag} {fs : List UInt64} {ks : List Address} {ps : List Code} :
      F a = some ⟨t, fs, ks⟩ →
    List.Forall₂ (Says F) ks ps → Says F a (.node t fs ks ps)

end Facts

/-- What the records of a thread say that it has left to do. -/
structure Heap.Leaves (h : Heap) (u : Address) (τ : Task) : Prop where
  finished : Thread.isFinished u h = .ok τ.control.isEmpty
  control : (Thread.control u >>= Stack.values) h = .ok (τ.control.map Entry.node)
  codes : ∀ e ∈ τ.control, Facts.Says h.body? e.node e.code
  stash : (Thread.stash u >>= Stack.values) h = .ok τ.stash
  frame : ∃ f, Thread.frame u h = .ok f ∧ Facts.Lines h.body? f τ.line

/-- How many operands a node takes off the stash. -/
def Code.takes : Code → Nat
  | .node t fs _ ps => match t.operands? fs, t with
    | some (m, _), _ => m
    | none, .logicalI | none, .ifElseI | none, .forLoopI => 1
    | none, .chanSendI => 2
    | none, .selectI => (ps.map Code.caseOperands).sum
    | none, _ => 0
  | _ => 0

/-! ## Reading -/

namespace Lists

/-- The values of a chain are read in order. -/
theorem take (s : h.Sound) : ∀ {vs : List Address} {a : Address} {m : Nat}, Lists h.body? a vs →
    vs.length ≤ m →
    Chain.take m a h = .ok vs
  | [], _, 0, _, _ => rfl
  | [], _, _ + 1, l, _ => by
    obtain rfl := l
    rfl
  | v :: vs, a, m + 1, ⟨next, ha, l⟩, le => by
    obtain ⟨c, hc, -⟩ := Heap.body?_eq_some.1 ha
    have live : a.isNil = false := s.isNil_eq_false (Heap.cell?_eq_some.1 hc).1
    rw [Chain.take, live]
    exact query_bind_ok.2 ⟨v, s.child_body ha rfl, query_bind_ok.2 ⟨next, s.child_body ha rfl,
      query_bind_ok.2 ⟨vs, take s l (Nat.le_of_succ_le_succ le), rfl⟩⟩⟩

theorem values (s : h.Sound) (l : Lists h.body? a vs) : Chain.values a h = .ok vs := by
  obtain ⟨ls, len, nodup, live, -⟩ := l.links s.body?_nil
  refine l.take s ?_
  rw [← len]
  refine Nat.le_succ_of_le (s.length_le nodup fun b hb => ?_).1
  obtain ⟨D, hD⟩ := Option.ne_none_iff_exists'.1 (live b hb)
  obtain ⟨c, hc, -⟩ := Heap.body?_eq_some.1 hD
  exact (Heap.cell?_eq_some.1 hc).1

/-- Each value of a chain stands in a link of its kind. -/
theorem link (l : Lists F a vs) (conf : ∀ {a B}, F a = some B → Conforms ρ a B)
    (dead : F .nil = none)
    (here : a = .nil ∨ ρ a = .link k) (hv : v ∈ vs) :
    ∃ x B, F x = some B ∧ B.children[0]? = some v ∧ ρ x = .link k := by
  induction vs generalizing a with
  | nil => cases hv
  | cons w vs ih =>
    obtain ⟨next, ha, l⟩ := l
    have role := here.resolve_left fun e => by simp [e, dead] at ha
    rcases List.mem_cons.1 hv with rfl | hv
    · exact ⟨a, _, ha, rfl, role⟩
    · refine ih l (((conf ha).slot (i := 1) rfl).imp_right fun slot => ?_) hv
      simpa [role, Slot] using slot

end Lists

namespace Sees

/-- A node says what its role is. -/
theorem reads (s : Sees ρ σ F) (whole : Closed F) : ∀ {c : Code} {a : Address}, IsPart ρ a c →
    (a = .nil ∨ F a ≠ none) → F.Says a c
  | .data, _, _, _ => .data
  | .nothing, _, part, _ => by
    obtain rfl := part
    exact .nothing
  | .scope line, a, part, closed => .scope (s.lines part closed whole)
  | .node t fs ks ps, a, part, closed => by
    have role : ρ a = .code (.node t fs ks ps) := part
    obtain ⟨B, hB⟩ := Option.ne_none_iff_exists'.1 (closed.resolve_left fun e => by
      simp [e, s.nil] at role)
    have parts := (s.conforms hB).whole
    rw [role] at parts
    obtain ⟨rfl, parts⟩ := parts
    refine .node hB (List.forall₂_iff_get.2 ⟨parts.length_eq, fun i h₁ h₂ => ?_⟩)
    have smaller := List.sizeOf_lt_of_mem (List.get_mem ps ⟨i, h₂⟩)
    exact reads s whole ((List.forall₂_iff_get.1 parts).2 i h₁ h₂)
      (whole a _ _ hB (List.get_mem ..))
termination_by c => sizeOf c
decreasing_by
  rw [Code.node.sizeOf_spec]
  omega

end Sees

/-- What has the role of a node is one. -/
theorem Sees.code_isNode (s : Sees ρ σ F) (role : ρ a = .code c) (closed : a = .nil ∨ F a ≠ none) :
    c.IsNode := by
  obtain ⟨B, hB⟩ := Option.ne_none_iff_exists'.1 (closed.resolve_left fun e => by
    simp [e, s.nil] at role)
  have whole := (s.conforms hB).whole
  rw [role] at whole
  cases c with
  | node => exact ⟨_, _, _, _, rfl⟩
  | _ => exact whole.elim

namespace Knows

/-- The records of a thread say what it has left to do. -/
theorem leaves (g : Knows K σ n O h) (thread : h.HasTag .thread u) (made : (σ u).made) :
    h.Leaves u (σ u) := by
  obtain ⟨ρ, seen, -⟩ := g.sees
  obtain ⟨cell, hc, tag⟩ := thread
  have hu : h.body? u = some cell.body := Heap.body?_eq_some.2 ⟨cell, hc, rfl⟩
  have role := (seen.conforms hu).thread tag
  obtain ⟨⟨fs, c, st, e, hu', control, stash, scope⟩, codes, filled⟩ := seen.shows hu role
  have filled := filled made _ hu'
  simp only [List.mem_cons, List.not_mem_nil, or_false, not_or] at filled
  have read : ∀ {i b}, [c, st, e][i]? = some b → Query.child u .thread i h = .ok b := fun hb =>
    g.sound.child_body hu' hb
  have stacked : ∀ {a t vs}, a ≠ .nil → Stacked h.body? a t vs → Stack.values a h = .ok vs := by
    intro a t vs notNil stacked
    obtain ⟨top, ha, lists⟩ := stacked.resolve_left fun e => notNil e.1
    obtain ⟨cell, hc, e⟩ := Heap.body?_eq_some.1 ha
    refine query_bind_ok.2
      ⟨t, ofHeap_ok.2 (g.sound.tag_ok.2 (.inr ⟨cell, hc, congrArg Body.tag e⟩)), query_bind_ok.2
      ⟨top, g.sound.child_body ha rfl, lists.values g.sound⟩⟩
  have emptied : Thread.isFinished u h = .ok (σ u).control.isEmpty := by
    obtain ⟨top, ha, -⟩ := control.resolve_left fun e => filled.1 e.1.symm
    obtain ⟨cell, hc, e⟩ := Heap.body?_eq_some.1 ha
    have fields : cell.fields = _ := congrArg Body.fields e
    have asked : Stack.isEmpty c h = .ok _ :=
      query_bind_ok.2 ⟨_, query_bind_ok.2 ⟨_, ofHeap_ok.2 (g.sound.tag_ok.2
      (.inr ⟨cell, hc, congrArg Body.tag e⟩)), query_bind_ok.2 ⟨_, ofHeap_ok.2 (g.sound.field_ok.2
        ⟨cell, hc, congrArg Body.tag e, by rw [fields]; rfl⟩), rfl⟩⟩, rfl⟩
    rw [g.isEmpty (p := .control) hu' rfl asked, Task.pile, List.isEmpty_map] at asked
    exact query_bind_ok.2 ⟨c, read (i := 0) rfl, asked⟩
  refine ⟨emptied, query_bind_ok.2 ⟨c, read (i := 0) rfl, stacked (Ne.symm filled.1) control⟩,
    fun x hx => ?_,
    query_bind_ok.2 ⟨st, read (i := 1) rfl, stacked (Ne.symm filled.2.1) stash⟩, ?_⟩
  · obtain ⟨top, -, lists⟩ := control.resolve_left fun h => filled.1 h.1.symm
    obtain ⟨y, B, hy, mem⟩ := lists.mem (List.mem_map_of_mem hx)
    have role := codes x hx
    refine seen.reads g.closed ?_ (g.closed y B _ hy mem)
    cases e : x.code with
    | node => rwa [e] at role
    | _ => exact absurd (seen.code_isNode role (g.closed y B _ hy mem)) (by simp [e, Code.IsNode])
  · obtain ⟨f, structs, he, on⟩ := scope.resolve_left fun h => filled.2.2 h.1.symm
    exact ⟨f, query_bind_ok.2 ⟨e, read (i := 2) rfl, g.sound.child_body he rfl⟩,
      seen.lines on (g.closed _ _ _ he (by simp)) g.closed⟩

end Knows

/-! ## What nodes take -/

/-- The first half of a construct takes nothing. -/
theorem Code.takes_of_split {fs : List UInt64} {ks : List Address} {ps : List Code}
    {s : Tag × List UInt64 × List Code}
    (h : t.split? fs ps = some s) : Code.takes (.node t fs ks ps) = 0 := by
  cases t <;> first | rfl | cases h

/-- Neither does what only unwinds, or closes a scope. -/
theorem Code.takes_of_tag (ht : c.tag ∈ [.exitScopeI, .breakLoop, .continueLoop, .returnFromI,
    .restoreEnvI]) : c.takes = 0 := by
  cases c with
  | node t fs ks ps =>
    simp only [Code.tag, List.mem_cons, List.not_mem_nil, or_false] at ht
    rcases ht with rfl | rfl | rfl | rfl | rfl <;> rfl
  | _ => rfl

theorem Eval.takes_le {d r : Nat} (e : Eval c d r) : c.takes ≤ d := by
  cases e with
  | simple h => simp [Code.takes, h]
  | split h => exact (Code.takes_of_split h).le
  | logicalI => exact le_rfl
  | functionLit | sequence => exact Nat.zero_le _

theorem Acts.takes_le {d : Nat} (s : Acts c d) : c.takes ≤ d := by
  cases s with
  | ifElseI | chanSendI => exact le_rfl
  | selectI _ e => exact e.ge
  | _ => exact Nat.zero_le _

/-- What stands in front takes no more than the nodes of its call do. -/
theorem Fits.takes_le {x : Nat} (f : Fits (c :: cs) (x :: ds)) : c.takes ≤ x := by
  cases f with
  | eval e => exact e.takes_le.trans (Nat.le_add_left ..)
  | stmt s => exact s.takes_le
  | loop l =>
    cases l
    exact le_rfl
  | _ => exact Nat.zero_le _

/-- What a node turns into comes instead of the operands that it takes. -/
theorem Expands.takes {d r : Nat} {E : List Code} (e : Expands c d r E) : c.takes = d := by
  cases e with
  | simple h => simp [Code.takes, h]
  | split h => exact Code.takes_of_split h
  | _ => rfl

theorem Opens.takes {d : Nat} {A B : List Code} (o : Opens c d A B) : c.takes = d := by
  cases o <;> rfl

namespace Task

/-- A node puts values in the place of the operands that it takes. -/
theorem Makes.draws (made : τ.Makes c τ') (st : c.Stands) : ∃ V,
    τ'.stash = V ++ τ.stash.drop c.takes := by
  have unwound : c.tag ∈ [.exitScopeI, .breakLoop, .continueLoop, .returnFromI, .restoreEnvI] →
      ∃ V, τ.stash = V ++ τ.stash.drop c.takes := fun ht => ⟨[], by rw [Code.takes_of_tag ht]; rfl⟩
  cases made with
  | expands e => exact ⟨_, by rw [e.takes]⟩
  | opens o => exact ⟨[], by rw [o.takes]; rfl⟩
  | closes ht | returns ht => exact unwound (by simp [ht])
  | unwinds _ kind => exact unwound (kind.elim (fun k => by simp [k.1]) fun k => by simp [k.1])
  | restores hc => exact unwound (by simp [hc, Code.tag])
  | enters hc =>
    subst hc
    obtain ⟨w, e⟩ := st.counted (by simp)
    cases e
    exact ⟨[], rfl⟩

theorem Turns.draws (turns : τ.Turns c τ') (st : c.Stands) : ∃ V,
    τ'.stash = V ++ τ.stash.drop c.takes := by
  cases turns with
  | goes made goes =>
    obtain ⟨p, rfl⟩ := goes
    exact made.draws st
  | parks _ made => exact made.draws st
  | receives ht =>
    obtain ⟨fs, ks, ps, rfl⟩ := Code.of_tag ht (by simp)
    exact ⟨[], rfl⟩
  | selects hc =>
    subst hc
    exact ⟨[], rfl⟩

/-- What wakes a thread brings a value at most, and that to a thread which waits for one. -/
theorem Woken.brings (woken : τ.Woken τ') : τ'.stash = τ.stash ∨
    (τ.waits = some .value ∨ τ.waits = some .case) ∧ ∃ v, τ'.stash = v :: τ.stash := by
  cases woken with
  | turn | sent => exact .inl rfl
  | value waits => exact .inr ⟨.inl waits, _, rfl⟩
  | received waits => exact .inr ⟨.inr waits, _, rfl⟩

end Task

namespace Machine

/-- Who stands in the run queue waits for nothing. -/
theorem Follows.runnable (g : m.Follows σ) (run : m.runnable = .ok ts) :
    (∀ u ∈ ts, u ≠ .nil → (σ u).place ≠ none ∧ (σ u).waits = none) ∧ ∀ u, u ≠ .nil → (σ u).queued →
    u ∈ ts := by
  obtain ⟨q, read, run⟩ := query_bind_ok.1 run
  obtain ⟨front, first, run⟩ := query_bind_ok.1 run
  obtain ⟨ρ, seen, -⟩ := g.sees
  obtain ⟨D, hD, tag, hq⟩ := g.sound.child_read read
  obtain ⟨E, hE, tagE, hf⟩ := g.sound.child_read first
  have notNil : q ≠ .nil := by
    rintro rfl
    simp [g.dead] at hE
  have role : ρ q = .holder .runnable := by
    have tagged := (seen.conforms hD).tagged
    have slot := ((seen.conforms hD).slot hq).resolve_left notNil
    rw [tag] at tagged slot
    cases e : ρ m.scheduler with
    | loose => rwa [e] at slot
    | holder k => rw [e] at tagged; cases k <;> cases tagged
    | code c => rw [e] at tagged; cases tagged.2
    | _ => rw [e] at tagged; cases tagged
  obtain ⟨w, front', back, vs, rfl, queue, stand⟩ := seen.queue hE role
  obtain rfl : front' = front := by simpa using hf
  obtain rfl : vs = ts := by
    rw [queue.lists.values g.sound] at run
    cases run
    rfl
  refine ⟨fun u hu notNil => ?_, stand⟩
  have head := ((seen.conforms hE).slot (i := 0) rfl).imp_right fun slot => by
    simpa [role, Slot] using slot
  obtain ⟨x, B, hx, first, link⟩ := queue.lists.link seen.conforms g.dead head hu
  exact (seen.place hx first notNil (w := none) (by simp [link, Role.Keeps])).imp_left (by simp [·])

/-- `σ` is what the threads of a machine have left to do, with the operands that this takes. -/
structure Balanced (m : Machine) (σ : Address → Task) : Prop where
  leaves : ∀ u, m.heap.HasTag .thread u → m.heap.Leaves u (σ u)
  /-- A thread with something to do waits, or stands in the run queue. -/
  runs : ∃ ts, m.runnable = .ok ts ∧ ∀ u, m.heap.HasTag .thread u →
    (u ∈ ts → (σ u).waits = none) ∧ ((σ u).waits = none → u ∈ ts ∨ (σ u).control = [])
  /-- Each has the operands that its nodes take, but for the one that it waits for. -/
  supplied : ∀ u, ∃ d ds, (σ u).Takes (d :: ds) ∧ (σ u).Supplied d ds
  empty : ∀ u, (σ u).control = [] → (σ u).stash = []

/-- What a step of a thread does to the stashes. -/
structure Draws (m : Machine) (σ σ' : Address → Task) (t : Address) : Prop where
  /-- The operands that the node takes are there. Results come in their place. -/
  takes : ∀ e rest, (σ t).control = e :: rest → ∃ ops below results, (σ t).stash = ops ++ below ∧
    ops.length = e.code.takes ∧ (σ' t).stash = results ++ below
  /-- Others keep what they have, and get a value at most if they wait for one. -/
  brings : ∀ u, u ≠ t → m.heap.HasTag .thread u → (σ' u).stash = (σ u).stash ∨
    ((σ u).waits = some .value ∨ (σ u).waits = some .case) ∧ ∃ v, (σ' u).stash = v :: (σ u).stash

theorem Reached.balances (reached : m.Reached) (g : m.Follows σ) (p : ∀ u, (σ u).Poised) :
    m.Balanced σ := by
  obtain ⟨K, F, q, links, ts, ord⟩ := reached.ordered
  obtain ⟨runs, queued⟩ := g.runnable ord.runnable
  refine ⟨fun u thread => g.leaves thread (p u).made, ⟨ts, ord.runnable, fun u thread => ?_⟩,
    fun u => (p u).supplied,
    fun u ended => ?_⟩
  · have notNil : u ≠ .nil := g.sound.ne_nil thread.isLive
    refine ⟨fun mem => (runs u mem notNil).2, fun idle => or_iff_not_imp_left.2 fun out => ?_⟩
    exact (p u).done idle fun stands => out (queued u notNil stands)
  · obtain ⟨d, ds, takes, full⟩ := (p u).level (by_contra fun waits => (p u).busy waits ended)
    rw [Task.Takes, ended, List.map_nil, Fits.nil_iff] at takes
    rw [takes] at full
    exact List.length_eq_zero_iff.1 full

/-- A step takes the thread in front of the run queue. -/
theorem Reached.front {more : Bool} (reached : m.Reached) (run : m.runnable = .ok (a :: ts))
    (ran : Machine.step m = .ok more m') :
    ∃ h, Scheduler.dequeue m.scheduler m.heap = .ok a h ∧ a ≠ .nil := by
  obtain ⟨K, F, q, links, ts', ord⟩ := reached.ordered
  obtain rfl : ts' = a :: ts := by
    cases ord.runnable.symm.trans run
    rfl
  obtain ⟨t, h, dequeued⟩ := step_dequeues ran
  obtain ⟨rfl, -⟩ := ord.dequeue _ _ dequeued
  exact ⟨h, dequeued, (ord.queued.runnable (List.mem_cons_self ..)).1⟩

theorem Passed.draws {more : Bool} {h : Heap} (passed : m.Passed σ σ' more) (p : ∀ u, (σ u).Poised)
    (front : Scheduler.dequeue m.scheduler m.heap = .ok a h) (notNil : a ≠ .nil) :
    m.Draws σ σ' a := by
  cases passed with
  | idle front' => cases front.symm.trans front'; exact absurd rfl notNil
  | @ended t h' front' _ runs finished e =>
    obtain rfl : a = t := by cases front.symm.trans front'; rfl
    subst e
    refine ⟨fun e rest first => by
      simp [finished] at first, fun u hu _ => .inl (by rw [Function.update_of_ne hu])⟩
  | @turn t h' e rest front' _ runs first turns joined =>
    obtain rfl : a = t := by cases front.symm.trans front'; rfl
    refine ⟨fun e' rest' first' => ?_, fun u hu thread => ?_⟩
    · obtain ⟨rfl, rfl⟩ : e = e' ∧ rest = rest' := by simpa [first] using first'
      obtain ⟨V, same⟩ := turns.draws (stands_of_poised p _ _ _ first)
      obtain ⟨d, ds, takes, full⟩ := (p a).level runs
      rw [Task.Takes, first] at takes
      have le := takes.takes_le
      refine ⟨(σ a).stash.take e.code.takes, _, V, (List.take_append_drop ..).symm, ?_, same⟩
      rw [List.length_take, full, List.sum_cons]
      omega
    · rcases joined u hu with same | woken | ⟨new, -⟩
      · exact .inl (by rw [same])
      · exact woken.brings
      · obtain ⟨c, hc, tag⟩ := thread
        exact absurd tag (new _ (Heap.body?_eq_some.2 ⟨c, hc, rfl⟩))

/-- All threads of a machine that programs bring about have the operands that their nodes take, and
each step takes those of its node. -/
theorem stash_balanced (reached : m.Reached) : ∃ σ, m.Balanced σ ∧ ∀ t rest more m',
    m.runnable = .ok (t :: rest) →
    step m = .ok more m' → ∃ σ', m'.Balanced σ' ∧ m.Draws σ σ' t := by
  obtain ⟨σ, g, p⟩ := reached.poised
  refine ⟨σ, reached.balances g p, fun t rest more m' run ran => ?_⟩
  obtain ⟨σ', g', passed⟩ := g.step (stands_of_poised p) _ _ ran
  refine ⟨σ', (Reached.step reached ran).balances g' (passed.poised p), ?_⟩
  obtain ⟨h, front, notNil⟩ := reached.front run ran
  exact passed.draws p front notNil

theorem Balanced.operandsOf_eq (balanced : m.Balanced σ) (thread : m.heap.HasTag .thread a) :
    m.operandsOf a = some (σ a).stash.length := by
  rw [operandsOf, (balanced.leaves a thread).stash]
  rfl

/-- The stashes before and after one thread sends a value to another: it takes its two operands, and
the value comes onto the empty stash of the thread that waits for it. -/
theorem balanced_in_rendezvous : ∃ m₀ m₁ m₂ m₃ m₄ m₅ : Machine, ∃ u σ σ',
    new { heapWords := 1024 } = .ok m₀ ∧
    load rendezvousProgram m₀ = .ok () m₁ ∧ Rendezvous m₁ m₂ m₃ m₄ m₅ u ∧ m₃.Balanced σ ∧
    m₄.Balanced σ' ∧
    m₃.Draws σ σ' u ∧ (σ u).stash.length = 2 ∧ (σ' u).stash.length = 0 ∧
    (σ m₁.mainThread).stash.length = 0 ∧ (σ' m₁.mainThread).stash.length = 1 := by
  obtain ⟨m₀, m₁, m₂, m₃, m₄, m₅, u, made, loaded, r⟩ := rendezvous
  obtain ⟨-, reached, reached'⟩ := Reached.rendezvous (.load (.new made) loaded) r
  obtain ⟨σ, balanced, draws⟩ := stash_balanced reached
  obtain ⟨σ', balanced', draws⟩ := draws u [] true m₄ r.sender r.sends
  have threads := r.threads m₃ (by simp)
  have threads' := r.threads m₄ (by simp)
  have before := r.before
  have after := r.after
  rw [balanced.operandsOf_eq (reached.thread threads.1),
    balanced.operandsOf_eq (reached.thread threads.2)] at before
  rw [balanced'.operandsOf_eq (reached'.thread threads'.1),
    balanced'.operandsOf_eq (reached'.thread threads'.2)] at after
  exact ⟨m₀, m₁, m₂, m₃, m₄, m₅, u, σ, σ', made, loaded, r, balanced, balanced', draws, by
    simpa using before.2,
    by simpa using after.2, by simpa using before.1, by simpa using after.1⟩

end Machine
end GoMachine
