import GoMachine.Proofs.Tasks.Built
import GoMachine.Proofs.Tasks.Locks
/-!
# The running thread

In its turn a thread stands nowhere, and is known. `Plays t k σ τ n O s` says that `t` has its turn
and `τ` left to do, where `σ` tells of the others. What is done to its stacks is done to `τ`.

* `Plays.push`, `Plays.pushInOrder`, `Plays.pushNew`, `Plays.pushShared`: nodes that are scheduled.
* `Plays.pushValue`, `Plays.popValue`, `Plays.popValues`: operands.
* `Plays.releasing`: references that are dropped in the end.
-/
namespace GoMachine

open Heap (laden stacked)

/-- The record of a thread is known, and kept. -/
class Known.Runner (k : Known) (t : Address) : Prop where
  record : ∃ fs cs, k.facts t = some ⟨.thread, fs, cs⟩
  kept : k.Keeps t

/-- A thread has its turn, and `τ` left to do; `σ` tells of the others. -/
structure Plays (t : Address) (k : Known) (σ : Address → Task) (τ : Task) (n : Nat)
    (O : Multiset Address) (s : Turn) : Prop where
  thread : s.thread = t
  knows : Knows k (Function.update σ t τ) n O s.heap

/-- The threads other than the running one have left to do what they had, or are woken. -/
def Others (t : Address) (σ σ' : Address → Task) : Prop :=
  ∀ u, u ≠ t → σ' u = σ u ∨ (σ u).Woken (σ' u)

variable {k k' : Known} {σ σ' σ'' : Address → Task} {n m : Nat} {O : Multiset Address} {h : Heap}
    {s : Turn}
  {a b t v node st : Address} {r : Role} {D : Body} {c p : Code} {τ τ' : Task} {α : Type}
  {fs : List UInt64} {cs ks l vs : List Address} {ps : List Code} {tag : Tag} {i : Nat}

namespace Known

instance [k.Runner t] : (k.note a r).Runner t := ⟨Runner.record (k := k), Runner.kept (k := k)⟩

instance [k.Runner t] : (k.hold a).Runner t :=
  ⟨Runner.record (k := k), (Runner.kept (k := k)).imp_right (.imp_left Multiset.mem_cons_of_mem)⟩

instance [k.Runner t] : (k.own a r).Runner t := inferInstanceAs (((k.hold a).note a r).Runner t)

theorem Runner.mono [k.Runner t] (within : k.Within k') (stays : k'.stays = k.stays) :
    k'.Runner t := by
  obtain ⟨fs, cs, ht⟩ := Runner.record (k := k) (t := t)
  exact ⟨⟨fs, cs, within.facts ht⟩, (Runner.kept (k := k)).mono within stays⟩

end Known

namespace Known

/-- What stands for parts, unless they are left out. -/
def Standing (k : Known) : List Address → List Code → Prop :=
  List.Forall₂ fun b c => b = .nil ∧ c = .nothing ∨ k.Contains b c

end Known

namespace Knows

variable {ρ : Roles}

theorem isNode (g : Knows k σ n O h) (hc : k.Contains a c) : ∃ t fs ks ps,
    c = .node t fs ks ps := by
  obtain ⟨ρ, seen, noted⟩ := g.sees
  obtain ⟨role, live⟩ := g.code hc
  obtain ⟨B, hB⟩ := Option.ne_none_iff_exists'.1 live
  have whole := (seen.conforms hB).whole
  rw [role seen noted] at whole
  cases c with
  | node t fs ks ps => exact ⟨t, fs, ks, ps, rfl⟩
  | _ => exact whole.elim

theorem ne_nil (g : Knows k σ n O h) (hc : k.Contains a c) : a ≠ .nil := by
  rintro rfl
  exact (g.code hc).2 g.dead

end Knows

theorem Others.refl : Others t σ σ := fun _ _ => .inl rfl

/-- The running thread is not among those that are woken. -/
theorem Passes.others (passes : Passes (Function.update σ t τ) σ') (free : τ.waits = none) :
    Others t σ σ' ∧ σ' = Function.update σ' t τ := by
  refine ⟨fun u hu => ?_, ?_⟩
  · have := passes u
    rw [Function.update_of_ne hu] at this
    exact this
  · have := passes.same (u := t) (by rwa [Function.update_self])
    rw [Function.update_self] at this
    rw [← this, Function.update_eq_self]

/-- What an action on the heap does is all that it does to the turn. -/
theorem Yields.acts {x : Action α} {Q : α → Heap → Prop} (hx : Yields x s.heap Q) :
    Yields (liftM x : TurnM α) s fun a s' => s'.thread = s.thread ∧ Q a s'.heap :=
  lift (hx.mono fun _ _ q => ⟨rfl, q⟩)

namespace Plays

theorem weaken (p : Plays t k σ τ n O s) (le : m ≤ n) : Plays t k σ τ m O s :=
    ⟨p.thread, p.knows.weaken le⟩

/-- An action on the heap. -/
theorem act {x : Action α} {K : α → Multiset Address} (p : Plays t k σ τ n O s)
    (hx : Yields x s.heap fun a h' => Knows k' (Function.update σ' t τ') m (K a) h') :
    Yields (liftM x : TurnM α) s fun a s' => Plays t k' σ' τ' m (K a) s' :=
  hx.acts.mono fun _ _ ⟨e, g⟩ => ⟨e.trans p.thread, g⟩

theorem onHeap {x : HeapM α} {K : α → Multiset Address} (p : Plays t k σ τ n O s)
    (hx : Yields x s.heap fun a h' => Knows k' (Function.update σ' t τ') m (K a) h') :
    Yields (liftM x : TurnM α) s fun a s' => Plays t k' σ' τ' m (K a) s' :=
  p.act hx.heap

theorem swap (p : Plays t k σ τ n (a ::ₘ b ::ₘ O) s) : Plays t k σ τ n (b ::ₘ a ::ₘ O) s :=
  ⟨p.thread, p.knows.swap⟩

theorem cons_nil : Plays t k σ τ n (.nil ::ₘ O) s ↔ Plays t k σ τ n O s :=
  ⟨fun p => ⟨p.thread, Knows.cons_nil.1 p.knows⟩, fun p => ⟨p.thread, Knows.cons_nil.2 p.knows⟩⟩

/-- There is as much room as there was when the same was owned before. -/
theorem restore {s' : Turn} (p : Plays t k σ τ n O s) (p' : Plays t k σ' τ' m O s') :
    Plays t k σ' τ' n O s' := ⟨p'.thread, p.knows.restore p'.knows⟩

theorem free (p : Plays t k σ τ n (a ::ₘ O) s) :
    Yields (liftM (HeapM.free a) : TurnM Unit) s fun _ s' => Plays t k σ τ n O s' :=
  p.onHeap p.knows.free

theorem reference (p : Plays t k σ τ (n + 1) O s) :
    Yields (liftM (HeapM.reference a) : TurnM Address) s fun b s' => b = a ∧
    Plays t k σ τ n (a ::ₘ O) s' :=
  p.knows.reference.heap.acts.mono fun _ _ ⟨e, eq, g, _⟩ => ⟨eq, e.trans p.thread, g⟩

/-- References are dropped in the end. -/
theorem releasing {x : TurnM α} {K : α → Multiset Address} {Q : α → (Address → Task) → Task → Prop}
    (hx : Yields x s fun b s' => ∃ σ' τ', Plays t k σ' τ' n (laden l (K b)) s' ∧ Q b σ' τ') :
    Yields (TurnM.releasing l x) s fun b s' => ∃ σ' τ', Plays t k σ' τ' n (K b) s' ∧ Q b σ' τ' := by
  refine (Yields.attempt (E := fun r s' => ∀ b, r = .ok b →
    ∃ σ' τ', Plays t k σ' τ' n (laden l (K b)) s' ∧ Q b σ' τ')
    hx ?_ ?_).bind fun r s₁ came => ?_
  · rintro b s' came _ ⟨⟩
    exact came
  · rintro e s' b ⟨⟩
  cases r with
  | error e => exact Yields.any.bind fun _ _ _ => .conclude_error
  | ok b =>
    obtain ⟨σ', τ', p, q⟩ := came b rfl
    refine (Yields.forIn (I := fun rest s' => Plays t k σ' τ' n (laden rest (K b)) s') p ?_).bind
      fun _ s₂ p => .conclude fun b e => ?_
    · intro a rest s p
      exact p.free.bind fun _ _ p => .pure ⟨rfl, p⟩
    · cases e
      exact ⟨σ', τ', p, q⟩

/-- A stack of the running thread. -/
theorem pile_read [k.Runner t] (p : Plays t k σ τ n O s)
    (read : Query.child s.thread .thread i s.heap = .ok st) :
    ∃ fs cs, k.facts t = some ⟨.thread, fs, cs⟩ ∧ s.heap.body? t = some ⟨.thread, fs, cs⟩ ∧
    cs[i]? = some st := by
  obtain ⟨fs, cs, ht⟩ := Known.Runner.record (k := k) (t := t)
  rw [p.thread] at read
  exact ⟨fs, cs, ht, p.knows.body ht, (p.knows.sound.child_of_body (p.knows.body ht) read).2⟩

/-- The stash of a thread is not larger than the heap. -/
theorem stash_le [k.Runner t] (p : Plays t k σ τ n O s) : τ.stash.length ≤ 2 ^ 31 := by
  obtain ⟨fs, cs, ht⟩ := Known.Runner.record (k := k) (t := t)
  obtain ⟨ρ, seen, -⟩ := p.knows.sees
  have ht := p.knows.body ht
  obtain ⟨⟨gs, c, st, e, hu, hc, hs, he⟩, -⟩ := seen.shows ht ((seen.conforms ht).thread rfl)
  rw [Function.update_self] at hs
  rcases hs with ⟨-, emptied⟩ | ⟨top, hst, -⟩
  · simp [emptied]
  · have notNil : st ≠ .nil := by
      rintro rfl
      simp [p.knows.dead] at hst
    simpa [Task.pile] using p.knows.pile_le (p := .stash) seen hu rfl notNil

/-! ## Control -/

theorem pushOwned [k.KeptByChains] [k.Runner t] (p : Plays t k σ τ (n + 1) (node ::ₘ O) s)
    (role : k.Finds (Function.update σ t τ) s.heap fun ρ => ρ node = .code c) :
    Yields (TurnM.pushOwned node) s fun _ s' =>
      Plays t k σ { τ with control := ⟨node, c⟩ :: τ.control } (n + 1) O s' := by
  refine .ofThread fun st read => ?_
  obtain ⟨fs, cs, -, ht, hst⟩ := p.pile_read read
  obtain ⟨ρ, seen, noted, role⟩ := role
  refine p.act ((p.knows.pushOwned (p := .control)
    (τ := { τ with control := ⟨node, c⟩ :: τ.control }) ht hst
    ⟨ρ, seen, noted, .inr ⟨c, role⟩, fun e he => ?_⟩ (by simp [Task.pile]) (fun q hq => ?_)
    (by simp)
    (by simp [Task.SamePlace])).mono fun _ _ g => by simpa using g)
  · rw [Function.update_self]
    rcases List.mem_cons.1 he with rfl | he
    · exact .inr ⟨rfl, role⟩
    · exact .inl he
  · cases q <;> simp_all [Task.pile]

theorem push [k.KeptByChains] [k.Runner t] (p : Plays t k σ τ (n + 2) O s)
    (hc : k.Contains node c) :
    Yields (TurnM.push node) s fun _ s' =>
      Plays t k σ { τ with control := ⟨node, c⟩ :: τ.control } (n + 2) O s' := by
  refine (show Yields (TurnM.control >>= fun st => liftM (Stack.push st node)) s _ from ?_)
  refine .ofThread fun st read => ?_
  obtain ⟨fs, cs, -, ht, hst⟩ := p.pile_read read
  refine p.act (p.knows.reference.heap.bind fun _ h₁ ⟨_, g₁, same⟩ => ?_)
  obtain ⟨ρ, seen, noted⟩ := g₁.sees
  have role := (g₁.code hc).1 seen noted
  refine (g₁.pushOwned (p := .control) (τ := { τ with control := ⟨node, c⟩ :: τ.control })
    (same ▸ ht) hst
    ⟨ρ, seen, noted, .inr ⟨c, role⟩, fun e he => ?_⟩ (by simp [Task.pile]) (fun q hq => ?_)
    (by simp)
    (by simp [Task.SamePlace])).mono fun _ _ g₂ => by simpa using p.knows.restore g₂
  · rw [Function.update_self]
    rcases List.mem_cons.1 he with rfl | he
    · exact .inr ⟨rfl, role⟩
    · exact .inl he
  · cases q <;> simp_all [Task.pile]

/-- A new node is scheduled that takes its parts over. -/
theorem pushNew [k.KeptByChains] [k.Runner t] (p : Plays t k σ τ (n + 1) (laden l O) s)
    (ht : tag.isControl)
    (parts : k.Finds (Function.update σ t τ) s.heap fun ρ => List.Forall₂ (IsPart ρ) l ps) :
    Yields (TurnM.pushNew tag fs l) s fun _ s' => ∃ new, Plays t k σ
      { τ with control := ⟨new, .node tag fs l ps⟩ :: τ.control } (n + 1) O s' :=
  (p.knows.build ht parts).acts.bind fun new _ ⟨e, g, role⟩ =>
    (pushOwned ⟨e.trans p.thread, g⟩ role).mono fun _ _ p => ⟨new, p⟩

/-- A new node is scheduled, whose parts are there. -/
theorem pushShared [k.KeptByChains] [k.Runner t] (p : Plays t k σ τ (n + 1) O s)
    (ht : tag.isControl)
    (live : ∀ b ∈ l, b = .nil ∨ s.heap.body? b ≠ none)
    (parts : k.Finds (Function.update σ t τ) s.heap fun ρ => List.Forall₂ (IsPart ρ) l ps) :
    Yields (TurnM.pushShared tag fs l) s fun _ s' => ∃ new, Plays t k σ
      { τ with control := ⟨new, .node tag fs l ps⟩ :: τ.control } (n + 1) O s' :=
  (p.knows.buildShared ht live parts).acts.bind fun new _ ⟨e, g, role⟩ =>
    (pushOwned ⟨e.trans p.thread, g⟩ role).mono fun _ _ p => ⟨new, p⟩

/-- A new node without parts is scheduled. -/
theorem pushUnit [k.KeptByChains] [k.Runner t] (p : Plays t k σ τ (n + 1) O s)
    (ht : tag.isControl) :
    Yields (TurnM.pushNew tag fs []) s fun _ s' => ∃ new, Plays t k σ
      { τ with control := ⟨new, .node tag fs [] []⟩ :: τ.control } (n + 1) O s' := by
  obtain ⟨ρ, seen, noted⟩ := p.knows.sees
  exact pushNew (l := []) p ht ⟨ρ, seen, noted, .nil⟩

/-- Nodes are scheduled, the first of them on top. -/
theorem pushInOrder [k.KeptByChains] [k.Runner t] (p : Plays t k σ τ (n + 2) O s)
    (parts : k.Standing l ps) :
    Yields (TurnM.pushInOrder l) s fun _ s' => ∃ es : List Entry,
    es.map Entry.code = ps.filter Code.isThere ∧
      Plays t k σ { τ with control := es ++ τ.control } (n + 2) O s' := by
  suffices pushes : ∀ {l' : List Address} {ps' : List Code} {τ s}, Plays t k σ τ (n + 2) O s →
    k.Standing l' ps' →
      Yields (forIn l' PUnit.unit fun node _ => do
        if !node.isNil then TurnM.push node
        pure (.yield ⟨⟩)) s fun _ s' => ∃ es : List Entry,
        es.map Entry.code = (ps'.filter Code.isThere).reverse ∧
          Plays t k σ { τ with control := es ++ τ.control } (n + 2) O s' by
    refine (pushes p (List.rel_reverse parts)).bind fun _ s' ⟨es, codes, p⟩ => .pure ⟨es, ?_, p⟩
    rw [codes, List.filter_reverse, List.reverse_reverse]
  intro l' ps' τ s p parts
  induction parts generalizing τ s with
  | nil => exact .pure ⟨[], rfl, p⟩
  | @cons b c l' ps' part _ ih =>
    rw [List.forIn_cons]
    rcases part with ⟨rfl, rfl⟩ | hc
    · exact ih p
    · obtain ⟨tag, fs, ks, ps, rfl⟩ := p.knows.isNode hc
      have there : b ≠ .nil := p.knows.ne_nil hc
      rw [if_pos (by simpa [← Address.isNil_iff] using there)]
      refine Yields.bind (Q := fun r s' => r = .yield ⟨⟩ ∧ Plays t k σ
          { τ with control := ⟨b, .node tag fs ks ps⟩ :: τ.control } (n + 2) O s')
        ((p.push hc).bind fun _ _ p => .pure ⟨rfl, p⟩) fun r s₁ ⟨e, p⟩ => ?_
      subst e
      exact (ih p).mono fun _ s₂ ⟨es, codes, p⟩ =>
        ⟨es ++ [⟨b, .node tag fs ks ps⟩], by rw [List.filter_cons_of_pos rfl]; simp [codes], by
          simpa using p⟩

/-! ## Operands -/

theorem pushValueOwned [k.KeptByChains] [k.Runner t] (p : Plays t k σ τ (n + 1) (v ::ₘ O) s) :
    Yields (TurnM.pushValueOwned v) s fun _ s' =>
      Plays t k σ { τ with stash := v :: τ.stash } (n + 1) O s' := by
  refine .ofThread fun st read => ?_
  obtain ⟨fs, cs, ht, -, hst⟩ := p.pile_read read
  exact p.act ((p.knows.pushStash ht hst).mono fun _ _ g => by simpa using g)

theorem pushValue [k.KeptByChains] [k.Runner t] (p : Plays t k σ τ (n + 2) O s) :
    Yields (TurnM.pushValue v) s fun _ s' =>
    Plays t k σ { τ with stash := v :: τ.stash } (n + 2) O s' := by
  refine (show Yields (TurnM.stash >>= fun st => liftM (Stack.push st v)) s _ from ?_)
  refine .ofThread fun st read => ?_
  obtain ⟨fs, cs, ht, -, hst⟩ := p.pile_read read
  refine p.act (p.knows.reference.heap.bind fun _ h₁ ⟨_, g₁, same⟩ => ?_)
  exact (g₁.pushStash ht hst).mono fun _ _ g₂ => by simpa using p.knows.restore g₂

/-- The top of the stash is taken off; nil if there is none. -/
theorem popValue [k.KeptByChains] [k.Runner t] (p : Plays t k σ τ (n + 3) O s) :
    Yields TurnM.popValue s fun v s' => v = τ.stash.headD .nil ∧
      Plays t k σ { τ with stash := τ.stash.drop 1 } (n + 2) (v ::ₘ O) s' := by
  refine .ofThread fun st read => ?_
  obtain ⟨fs, cs, -, ht, hst⟩ := p.pile_read read
  cases e : τ.stash with
  | nil =>
    refine (p.knows.pop_nil (p := .stash) ht hst (by simpa [Task.pile] using e)).acts.mono ?_
    rintro v s' ⟨thread, empty, g⟩
    refine ⟨empty, thread.trans p.thread, ?_⟩
    rw [empty]
    have same : { τ with stash := List.drop 1 [] } = τ := by rw [List.drop_nil, ← e]
    rw [same]
    exact Knows.cons_nil.2 g
  | cons w vs =>
    refine (p.knows.pop (p := .stash) (τ := { τ with stash := vs }) (v := w) ht hst
      (by simp [Task.pile, e])
      (fun q hq => ?_) (by simp) (by simp) (by simp [Task.SamePlace])).acts.mono
      fun v s' found => ?_
    · cases q <;> simp_all [Task.pile]
    · obtain ⟨thread, same, g⟩ := found
      refine ⟨same, thread.trans p.thread, ?_⟩
      rw [same]
      simpa using g

/-- What is taken off the stash is no concern of other threads. -/
theorem popValue_threads [k.KeptByChains] [k.Runner t] (p : Plays t k σ τ (n + 3) O s) :
    Yields TurnM.popValue s fun _ s' => Facts.SameThreads s.heap.body? s'.heap.body? := by
  refine .ofThread fun st read => ?_
  obtain ⟨fs, cs, -, ht, hst⟩ := p.pile_read read
  exact (p.knows.pop_threads (p := .stash) ht hst).acts.mono fun _ _ e => e.2

/-- As long as there is room for the whole stash, there is room for what is left of it. -/
theorem popWithin [k.KeptByChains] [k.Runner t] (p : Plays t k σ τ (n + τ.stash.length + 3) O s) :
    Yields TurnM.popValue s fun v s' =>
      Plays t k σ { τ with stash := τ.stash.drop 1 } (n + (τ.stash.drop 1).length + 3)
      (v ::ₘ O) s' := by
  refine (p.popValue (n := n + τ.stash.length)).mono fun v s₁ ⟨top, p₁⟩ => ?_
  cases e : τ.stash with
  | nil =>
    -- nothing was taken off, so there is as much room as before
    rw [e, List.headD_nil] at top
    subst top
    rw [e] at p p₁
    exact cons_nil.2 ((p.weaken (by simp)).restore (cons_nil.1 p₁))
  | cons w vs =>
    rw [e] at p₁
    exact p₁.weaken (by simp only [List.drop_succ_cons, List.drop_zero, List.length_cons]; omega)

/-- No more references are taken off the stash than there are. -/
theorem popOnto [k.KeptByChains] [k.Runner t] :
    ∀ {m : Nat} {l : List Address} {τ : Task} {s : Turn},
    Plays t k σ τ (n + τ.stash.length + 3) (stacked O l) s →
    Yields (TurnM.popOnto l m) s fun vs s' =>
      (vs.length = m + l.length ∧ Plays t k σ { τ with stash := τ.stash.drop m } (n + 3)
      (stacked O vs) s') ∧
        Facts.SameThreads s.heap.body? s'.heap.body?
  | 0, l, τ, s, p => .pure ⟨⟨(Nat.zero_add _).symm, p.weaken (by omega)⟩, .refl⟩
  | m + 1, l, τ, s, p => by
    refine (p.popWithin.and (p.popValue_threads (n := n + τ.stash.length))).bind
      fun v s₁ ⟨p₁, same⟩ => ?_
    have owned : v ::ₘ stacked O l = stacked O (v :: l) := by
      rw [Heap.stacked_eq_laden, Heap.stacked_eq_laden]
      rfl
    rw [owned] at p₁
    exact (popOnto p₁).mono fun vs s₂ ⟨⟨len, p₂⟩, same'⟩ => ⟨⟨by simp at len; omega,
      by simpa [List.drop_drop, Nat.add_comm 1 m] using p₂⟩, same.trans same'⟩

/-- The top values of the stash are taken off. There are not more of them than records. -/
theorem popValues [k.KeptByChains] [k.Runner t] (p : Plays t k σ τ (n + 2 ^ 31 + 3) O s) :
    Yields (TurnM.popValues m) s fun vs s' => vs.length = m ∧
      Plays t k σ { τ with stash := τ.stash.drop m } (n + 3) (laden vs O) s' :=
  (popOnto (l := []) (p.weaken (by have := p.stash_le; omega))).mono fun vs s' ⟨⟨len, p⟩, _⟩ =>
    ⟨by simpa using len, Heap.stacked_eq_laden (l := vs) ▸ p⟩

theorem popValues_threads [k.KeptByChains] [k.Runner t] (p : Plays t k σ τ (n + 2 ^ 31 + 3) O s) :
    Yields (TurnM.popValues m) s fun _ s' => Facts.SameThreads s.heap.body? s'.heap.body? :=
  (popOnto (l := []) (n := n) (p.weaken (by have := p.stash_le; omega))).mono fun _ _ e => e.2

end Plays
end GoMachine
