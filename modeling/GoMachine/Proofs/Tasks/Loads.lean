import GoMachine.Proofs.Tasks.Forks
import GoMachine.Proofs.Tasks.Steps
/-!
# What programs start with

A new machine has an empty run queue and a global frame that is inside of no other. A program that
is loaded leaves its main thread one node to run in the global frame; the closures of its functions
hold that frame too.

* `Machine.new_follows`: on a new machine nobody has anything to do.
* `Machine.Follows.load`: only the new main thread has more to do when a program is loaded.
* `Machine.Follows.collect`: nobody has more or less to do after a collection.
-/
namespace GoMachine

open Heap (laden maxSlots)

variable {k : Known} {σ σ' : Address → Task} {n : Nat} {O : Multiset Address} {h : Heap}
    {globals : Address}
  {m m' : Machine}

/-- What was owned for longer before something else was is given up. -/
theorem Knows.disown_below {a b : Address} {r r' : Role} (g : Knows ((k.own a r).own b r') σ n O h)
    (wf : k.Wf) :
    Knows (k.own b r') σ n (a ::ₘ O) h ∧ (k.own b r').Finds σ h fun ρ => ρ a = r := by
  obtain ⟨ρ, seen, noted⟩ := g.sees
  have less : (k.own b r').notes ⊆ ((k.own a r).own b r').notes :=
    List.cons_subset_cons _ (List.subset_cons_self ..)
  exact ⟨g.unhold ⟨.refl, less⟩ (Multiset.cons_swap ..) (wf_own wf), ρ, seen, fun x hx =>
    noted x (less hx),
    noted (a, r) (List.mem_cons_of_mem _ (List.mem_cons_self ..))⟩

namespace Lowering

theorem globalVars_lowers : ∀ {l : List Decl},
    LowersList (fun cs => ∀ c ∈ cs, Eval c 0 0) (globalVars l)
  | [] => .nil (by simp)
  | .var _ _ _ :: _ =>
    .cons declaration_lowers globalVars_lowers fun _ _ h hs => List.forall_mem_cons.2 ⟨h, hs⟩
  | .struct _ _ :: decls => globalVars_lowers (l := decls)
  | .func _ :: decls => globalVars_lowers (l := decls)

/-- A closure of the global frame. -/
theorem declareFunction_knows [k.KeptByValues] {decl : FuncDecl}
    (hg : (globals, Role.frame []) ∈ k.notes)
    (g : Knows k σ (n + 1) O h) :
    Yields (declareFunction globals decl) h fun _ h' => Knows k σ (n + 1) O h' := by
  refine ((sequence_lowers stmts_lowers).yields g.wf (by simp) g).bind
    fun body h₁ ⟨c, hc, laid, g₁⟩ => ?_
  refine ((function_lowers hc).yields (k := k) g.wf (by simpa) g₁).bind
    fun literal h₂ ⟨d, ⟨isFunction, _⟩, _, g₂⟩ => ?_
  have node := isFunction
  obtain ⟨fs, ks, b, ps, rfl, -⟩ := node
  have g₂ : Knows (k.own literal (.code (.node .functionLit fs ks (b :: ps)))) σ (n + 1) O h₂ := g₂
  have byValues : (k.own literal (.code (.node .functionLit fs ks (b :: ps)))).KeptByValues :=
    ⟨Known.Only.only (k := k)⟩
  have made : Yields (Closure.create literal globals) h₂ fun f h' =>
    Knows k σ (n + 1) (literal ::ₘ f ::ₘ O) h' := by
    obtain ⟨ρ, seen, noted⟩ := g₂.sees
    have role : ρ globals = .frame [] := noted _ (List.mem_cons_of_mem _ hg)
    have on : Known.Finds (k.own literal (.code (.node .functionLit fs ks (b :: ps)))) σ h₂
        fun ρ => OnLine ρ globals [globals] := ⟨ρ, seen, noted, rfl, role⟩
    exact (g₂.closure (.noted (List.mem_cons_self ..)) isFunction
      (g₂.live (g₂.kept _ (List.mem_cons_of_mem _ hg))) on).mono fun _ _ g₃ => g₃.disown g.wf
  refine (made.afterwards fun _ _ g₃ => g₃.free).bind fun f h₃ g₃ => ?_
  refine (bindFunction_owns (F := 0) g₃).yields.bind fun bound h₄ ⟨_, owned⟩ => ?_
  cases bound with
  | error e => exact Yields.any.bind fun _ _ _ => Yields.conclude_error
  | ok => exact (owned rfl).free.heap.bind fun _ _ g₅ => .conclude fun _ _ => g₅

theorem declareAll_knows [k.KeptByValues] (hg : (globals, Role.frame []) ∈ k.notes) :
    ∀ {l : List Decl} {h : Heap},
    Knows k σ (n + 1) O h → Yields (declareAll globals l) h fun _ h' => Knows k σ (n + 1) O h'
  | [], _, g => .pure g
  | .struct _ _ :: _, _, g =>
    (declareStruct_owns (F := 0) g).yields.bind fun _ _ g => declareAll_knows hg g
  | .func _ :: _, _, g => (declareFunction_knows hg g).bind fun _ _ g => declareAll_knows hg g
  | .var _ _ _ :: decls, _, g => declareAll_knows hg (l := decls) g

/-- The node that declares the global variables and calls `main`. -/
theorem start_lowers {decls : List Decl} : Lowers (Eval · 0 0) (do
    let vars ← globalVars decls
    let main ← named .name "main"
    let call ← Node.build .call [0] [main]
    let start ← Node.build .exprStmt [] [call]
    Node.build .sequence [] (vars ++ [start])) := by
  have main : Lowers (Eval · 0 1) (named .name "main") := named_lowers (m := 0) (r := 1) rfl rfl
  refine .list globalVars_lowers fun vs hv => .more main fun a c hc => ?_
  refine .inner vs [(a, c)] [(a, c)] (.refl _) rfl fun call => ?_
  refine .inner vs [(call, .node .call [0] [a] [c])] [(call, .node .call [0] [a] [c])] (.refl _)
    rfl fun start => ?_
  have called : Eval (.node .call [0] [a] [c]) 0 1 := .split rfl (by simpa) rfl
  let last : Code := .node .exprStmt [] [call] [.node .call [0] [a] [c]]
  have built : Lays (vs ++ [(start, last)]) (Eval · 0 0)
    (Node.build .sequence [] ((vs ++ [(start, last)]).map Prod.fst)) :=
    .build _ (.refl _) rfl fun _ => .sequence ?_
  · simpa using built
  · rw [List.map_append]
    exact List.forall_mem_append.2 ⟨hv, by simpa using (.split rfl (by simpa) rfl : Eval last 0 0)⟩

/-- A program is loaded that makes no other thread do anything. -/
theorem load_knows [k.KeptByValues] {program : Program} (hg : (globals, Role.frame []) ∈ k.notes)
    (g : Knows k σ (n + 1) O h) :
    Yields (load globals program) h fun node h' => ∃ c, Eval c 0 0 ∧
    Knows (k.own node (.code c)) σ (n + 1) O h' := by
  refine .guard fun _ => (linkBuiltins_owns (F := 0) g).yields.bind fun _ h₁ g₁ => ?_
  refine (declareAll_knows hg g₁).bind fun _ h₂ g₂ => (start_lowers.yields g.wf (by simp) g₂).mono
    fun node h' ⟨c, hc, _, g₃⟩ => ?_
  obtain ⟨t, fs, ks, ps, rfl⟩ := hc.isNode
  exact ⟨_, hc, g₃⟩

end Lowering

namespace Machine

/-! ## Programs -/

/-- A new thread has one node to run, in the global frame. -/
def begun (m : Machine) (τ : Task) (node : Address) (c : Code) (x : Address) : Task :=
  { control := [⟨node, c⟩], line := [m.globals], place := some x, queued := true, offers :=
  τ.offers }

/-- The main thread of a program that is loaded has one node to run. Nobody else has more or less to
do. -/
inductive Loaded (m m' : Machine) (σ σ' : Address → Task) : Prop
  | intro {node x : Address} {c : Code} : Eval c 0 0 → m'.mainThread ≠ .nil →
    σ' = Function.update σ m'.mainThread (m.begun (σ m'.mainThread) node c x) → Loaded m m' σ σ'

theorem start_knows [k.KeptByTurns] {s node : Address} {c : Code}
    (hg : (m.globals, Role.frame []) ∈ k.notes) (wf : k.Wf)
    (g : Knows (k.own node (.code c)) σ (n + 2) O h) :
    Yields (start s m.globals node) h fun u h' => ∃ x, u ≠ .nil ∧
      Knows (k.own u .thread) (Function.update σ u (m.begun (σ u) node c x)) (n + 2) O h' := by
  let k₁ := k.own node (.code c)
  have byTurns : k₁.KeptByTurns := ⟨Known.Only.only (k := k)⟩
  have hg₁ : (m.globals, Role.frame []) ∈ k₁.notes := List.mem_cons_of_mem _ hg
  refine (g.nextId (k := k₁)).bind fun id h₁ ⟨g₁, _⟩ => ?_
  have live := g₁.live (g₁.kept _ hg₁)
  have on {ρ σ'} {h' : Heap} (_ : Sees ρ σ' h'.body?) (noted : k₁.Noted ρ)
    (_ : Facts.Sub h₁.body? h'.body?)
      (_ : ∀ v, h₁.body? v ≠ none → σ' v = σ v) : OnLine ρ m.globals [m.globals] :=
      ⟨rfl, noted _ hg₁⟩
  refine (g₁.newThread (k := k₁) (fun b hb => ?_) on).bind
    fun u h₂ ⟨c', st, e, _, hu, unknown, g₂⟩ => ?_
  · obtain rfl : b = m.globals := by simpa using hb
    exact live
  have notNil : u ≠ .nil := by
    rintro rfl
    simp [g₂.dead] at hu
  obtain ⟨g₃, ρ, seen, noted, role⟩ := g₂.disown_below wf
  let k₂ := (k.own u .thread).learn u ⟨.thread, [id], [c', st, e]⟩
  have byChains : k₂.KeptByChains := .learn rfl
  have fact : k₂.facts u = some ⟨.thread, [id], [c', st, e]⟩ := Function.update_self ..
  have within := g₃.within_learn hu
  refine .read fun control read => ?_
  have hc := (g₃.sound.child_of_body hu read).2
  refine ((g₃.learn hu (.inr (.inl (Multiset.mem_cons_self ..)))).pushNode fact hc
    ⟨ρ, seen, noted, role⟩).bind
    fun _ h₃ g₄ => ?_
  refine (g₄.enqueue (g₄.thread fact) (by simp)).bind fun _ h₄ ⟨x, g₅⟩ => .pure ⟨x, notNil, ?_⟩
  simpa [begun] using g₅.forget within rfl (Knows.wf_own wf)

/-- A program is loaded. -/
theorem Follows.load {program : Program} (g : m.Follows σ) :
    Yields (load program) m fun _ m' => ∃ σ', m'.Follows σ' ∧ m.Loaded m' σ σ' := by
  have hg : (m.globals, Role.frame []) ∈ m.known.notes :=
    List.mem_cons_of_mem _ (List.mem_cons_self ..)
  have wf : (({} : Known).own m.globals (.frame [])).Wf := Knows.wf_own ⟨nofun, nofun⟩
  refine .get (Yields.bind
    (lift (Q := fun node m₁ => ∃ h, m₁ = { m with heap := h } ∧ ∃ c, Eval c 0 0 ∧
    Knows (m.known.own node (.code c)) σ (maxSlots + 18 + 2) {m.scheduler} h)
    ((Lowering.load_knows hg g).mono fun node h₁ ⟨c, hc, g₁⟩ => ⟨h₁, rfl, c, hc, g₁⟩)) ?_)
  rintro node _ ⟨h₁, rfl, c, hc, g₁⟩
  refine Yields.bind (lift (Q := fun u m₂ => ∃ h, m₂ = { m with heap := h } ∧ ∃ x, u ≠ .nil ∧
    Knows (m.known.own u .thread)
    (Function.update σ u (m.begun (σ u) node c x)) (maxSlots + 18 + 2) {m.scheduler} h)
    ((start_knows hg g.wf g₁).mono fun u h₂ ⟨x, notNil, g₂⟩ => ⟨h₂, rfl, x, notNil, g₂⟩)) ?_
  rintro u _ ⟨h₂, rfl, x, notNil, g₂⟩
  refine (Yields.modify (Q := fun _ m₃ => m₃ = { m with heap := h₂, mainThread := u }) rfl).bind ?_
  rintro _ _ rfl
  refine liftHeap ?_
  refine ((g₂.disown_below wf).1.free).mono fun _ h₃ g₃ =>
    ⟨Function.update σ u (m.begun (σ u) node c x), ?_, .intro hc notNil rfl⟩
  rw [Follows, known, if_neg notNil]
  exact g₃

/-- A collection takes away what nobody needs. -/
theorem Follows.collect (g : m.Follows σ) : Yields collect m fun _ m' => m'.Follows σ := by
  obtain ⟨n, -, has⟩ := g.accounted.has
  have apart : m.handles = 0 + m.handles := (zero_add _).symm
  have kept : Yields Machine.collect m fun _ m' => ∃ j O, Has m j O m' := by
    rw [apart] at has
    exact has.collect.yields.mono fun _ _ ⟨_, _, has⟩ => ⟨_, _, has⟩
  refine ((collect_knows g fun a ha => ?_).and kept).mono fun _ _ ⟨g', _, _, has⟩ => g.renew has g'
  exact mem_roots (known_handles ▸ ha)

/-- Nothing is there and nobody has anything to do. -/
theorem empty_knows {words : Nat} (made : Heap.new words = .ok h) (hn : n < Heap.limit) :
    h.body? = (fun _ => none) ∧ Knows {} (fun _ => .nobody) n 0 h := by
  have x := Heap.Exact.new made
  have empty : h.body? = fun _ => none := by
    obtain ⟨p, -, e⟩ := except_bind_ok.1 made
    obtain rfl := except_pure_ok.1 e
    funext a
    simp [Heap.body?, Heap.cell?, Heap.isLive]
  have held : Heap.Retains (Known.facts {}) (Known.stays {}) n 0 h :=
    ⟨⟨x, hn, fun a _ => by simpa using hn.le⟩, by simp [Facts.Sub], by simp [Heap.Held],
      by simp [Facts.Shaped, empty]⟩
  refine ⟨empty, held, by simp, fun _ => .loose, ?_, by simp [Known.Noted]⟩
  rw [empty]
  exact ⟨⟨rfl, rfl, by simp, by simp, by simp, fun h => by simpa using h.parts⟩, ⟨by simp, by simp⟩⟩

/-- A new scheduler has nobody in its run queue. -/
theorem createScheduler_knows (g : Knows {} (fun _ => .nobody) (n + 1) 0 h)
    (empty : h.body? = fun _ => none) :
    Yields Scheduler.create h fun s h' => Knows {} (fun _ => .nobody) (n + 1) {s} h' := by
  refine (g.allocate_plain (t := .scheduler) (by simp) (Nat.zero_le _)).heap.bind
    fun s h₁ ⟨g₁, notNil, _, _, e₁⟩ => ?_
  have alone : ∀ {b B}, h₁.body? b = some B → B.tag = .scheduler := fun {b B} hB => by
    rw [e₁, empty] at hB
    by_cases e : b = s
    · subst e
      rw [Function.update_self, Option.some_inj] at hB
      exact hB ▸ rfl
    · rw [Function.update_of_ne e] at hB
      cases hB
  have queue : Yields Queue.create h₁ fun q h' =>
    Knows {} (fun _ => .nobody) (n + 1) (q ::ₘ {s}) h' ∧
      Known.Finds {} (fun _ => .nobody) h' fun ρ => ρ q = .holder .runnable := by
    refine (g₁.toRetains.allocate (Nat.zero_le _)).heap.mono fun q h₂ ⟨g₂, nn, gone, _, e₂⟩ => ?_
    obtain ⟨ρ, seen, -⟩ := g₁.sees
    have only : ∀ {b B}, h₂.body? b = some B →
      Function.update ρ q (.holder .runnable) b = .holder .runnable → b = q := by
      intro b B hB role
      by_contra e
      rw [Function.update_of_ne e] at role
      rw [e₂, Function.update_of_ne e] at hB
      have tagged := (seen.conforms hB).tagged
      rw [role, alone hB] at tagged
      cases tagged
    have seen' : Sees (Function.update ρ q (.holder .runnable)) (fun _ => .nobody) h₂.body? := by
      refine ⟨?_, fun hB hB' role role' => (only hB role).trans (only hB' role').symm,
        fun hB role => ?_⟩
      · rw [e₂]
        refine seen.toTells.create_still g₁.closed gone nn ⟨?_, fun hb => .inl ?_, ?_⟩ (by simp)
          (fun keeps => keeps.elim) (by simp)
        · rw [Function.update_self]
          rfl
        · exact List.eq_of_mem_replicate (n := 2) (List.mem_of_getElem? hb)
        · rw [Function.update_self]
          trivial
      · obtain rfl := only hB role
        rw [e₂, Function.update_self, Option.some_inj] at hB
        exact ⟨0, .nil, .nil, [], hB.symm, ⟨rfl, rfl⟩, fun _ _ queued => nomatch queued⟩
    exact ⟨⟨g₂, nofun, _, seen', nofun⟩, _, seen', nofun, Function.update_self ..⟩
  refine (Yields.orRelease queue).bind fun q h₂ ⟨g₂, ρ, seen, noted, role⟩ => ?_
  exact (g₂.setChildOwned (t := .scheduler) (i := 0) rfl (by simp)
    ⟨ρ, seen, noted, .inr role⟩).heap.bind fun _ _ g₃ => .pure g₃

theorem new_follows {settings : Settings} (made : new settings = .ok m) : m.Follows fun _ =>
    .nobody := by
  obtain ⟨h, hh, made⟩ := except_bind_ok.1 made
  have made' : Heap.new settings.heapWords = .ok h := by
    cases e : Heap.new settings.heapWords <;> simp_all [Except.mapError]
  obtain ⟨empty, g⟩ := empty_knows (n := maxSlots + 20) made' (by simp [maxSlots, Heap.limit])
  have ran : Yields (do
    return (← Scheduler.create, ← Frame.create .nil) : Action (Address × Address)) h fun pair h' =>
      Knows (({} : Known).own pair.2 (.frame [])) (fun _ => .nobody)
      (maxSlots + 20) {pair.1} h' := by
    refine (createScheduler_knows g empty).bind fun s h₁ g₁ => ?_
    obtain ⟨ρ, seen, noted⟩ := g₁.sees
    have on : Known.Finds {} (fun _ => .nobody) h₁ fun ρ => OnLine ρ .nil [] :=
      ⟨ρ, seen, noted, rfl⟩
    exact (g₁.openFrame (.inl rfl) on).bind fun f h₂ opened => .pure (opened.1.own opened.2.1)
  split at made
  · cases made
  · next scheduler globals h' run =>
    obtain rfl := except_pure_ok.1 made
    have g' := ran _ _ run
    obtain ⟨ρ, seen, noted⟩ := g'.sees
    rw [Follows, known, if_pos rfl]
    exact (Knows.cons_nil.2 g').own ⟨ρ, seen, noted, seen.nil⟩

end Machine
end GoMachine
