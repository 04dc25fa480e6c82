import GoMachine.Proofs.Owns.Calls
import GoMachine.Proofs.Tasks.Locks
import GoMachine.Proofs.Tasks.Makes
/-!
# Builtins

A builtin returns a value, by which its thread goes on, or it has put one on the stash and its
thread goes on or waits. Locks and wait groups, and channels that are closed, wake others.

* `Builtin.run_flows`: what a builtin makes of threads.
-/
namespace GoMachine

open Heap (laden)

variable {k k' : Known} {σ σ' : Address → Task} {n m N : Nat} {O : Multiset Address} {h : Heap}
    {s : Turn}
  {a b t v : Address} {τ τ' : Task} {l args : List Address} {α : Type} {y : Wait}

namespace Known

theorem holds_cons : k.holds (a :: l) = (k.holds l).hold a := rfl

instance {p : Tag → Bool} [k.Only p] : (k.holds l).Only p := ⟨Known.Only.only (k := k)⟩

theorem keeps_of_mem (ha : a ∈ l) : (k.holds l).Keeps a :=
  .inr (.inl (Heap.mem_laden.2 (.inl ha)))

instance [k.Runner t] : (k.holds l).Runner t :=
  ⟨Runner.record (k := k), (Runner.kept (k := k)).imp_right
  (.imp_left fun ht => Heap.mem_laden.2 (.inr ht))⟩

theorem Wf.holds (wf : k.Wf) : (k.holds l).Wf := by
  refine ⟨wf.held.anti ?_, fun x hx => ?_⟩
  · rw [Known.holds, Heap.laden_eq]
    exact Multiset.le_add_left ..
  · exact (wf.kept x hx).imp_right (.imp_left fun ha => Heap.mem_laden.2 (.inr ha))

end Known

namespace Knows

/-- References are owned for longer. -/
theorem holds (g : Knows k σ n (laden l O) h) : Knows (k.holds l) σ n O h := by
  induction l generalizing O with
  | nil => exact g
  | cons a l ih =>
    rw [Known.holds_cons]
    refine (ih ?_).hold
    rw [← Heap.laden_cons]
    exact g

/-- References that were owned for longer are given up. -/
theorem unholds (g : Knows (k.holds l) σ n O h) (wf : k.Wf) : Knows k σ n (laden l O) h := by
  induction l generalizing O with
  | nil => exact g
  | cons a l ih =>
    have g : Knows (k.holds l) σ n (a ::ₘ O) h := g.unhold ⟨.refl, List.Subset.refl _⟩ rfl wf.holds
    exact (Heap.laden_cons ▸ ih g : Knows k σ n (a ::ₘ laden l O) h)

end Knows

namespace Plays

/-- What is dropped in the end is kept meanwhile. -/
theorem lending {x : TurnM α} {K : α → Multiset Address} {Q : α → (Address → Task) → Task → Prop}
    (p : Plays t k σ τ n (laden l O) s) (hx : Plays t (k.holds l) σ τ n O s → Yields x s fun b s' =>
      ∃ σ' τ', Plays t (k.holds l) σ' τ' n (K b) s' ∧ Q b σ' τ') :
    Yields (TurnM.releasing l x) s fun b s' => ∃ σ' τ', Plays t k σ' τ' n (K b) s' ∧ Q b σ' τ' :=
  releasing ((hx ⟨p.thread, p.knows.holds⟩).mono fun _ _ ⟨_, _, p', q⟩ =>
    ⟨_, _, ⟨p'.thread, p'.knows.unholds p.knows.wf⟩, q⟩)

/-- An action that wakes others. -/
theorem wakes {x : Action α} {K : α → Multiset Address} (p : Plays t k σ τ n O s)
    (runs : τ.waits = none)
    (hx : Yields x s.heap fun r h' => ∃ σ', Knows k σ' m (K r) h' ∧
    Passes (Function.update σ t τ) σ') :
    Yields (liftM x : TurnM α) s fun r s' => ∃ σ', Plays t k σ' τ m (K r) s' ∧ Others t σ σ' :=
  hx.acts.mono fun _ _ ⟨e, σ', g, passes⟩ =>
    have ⟨others, same⟩ := passes.others runs
    ⟨σ', ⟨e.trans p.thread, same ▸ g⟩, others⟩

/-- An action that settles the running thread. -/
theorem settles {x : Action α} {K : α → Multiset Address} (p : Plays t k σ τ n O s)
    (hx : Yields x s.heap fun r h' => ∃ σ', Knows k σ' m (K r) h' ∧
      ∃ τ', σ' = Function.update (Function.update σ t τ) t τ' ∧
      (Function.update σ t τ t).Settles y τ') :
    Yields (liftM x : TurnM α) s fun r s' => ∃ τ', Plays t k σ τ' m (K r) s' ∧ τ.Settles y τ' := by
  refine hx.acts.mono fun _ _ ⟨e, σ', g, τ', same, settles⟩ =>
    ⟨τ', ⟨e.trans p.thread, ?_⟩, by simpa using settles⟩
  rwa [same, Function.update_idem] at g

/-- The record of the running thread. -/
theorem record [k.Runner t] (_ : Plays t k σ τ n O s) : ∃ fs cs,
    k.facts t = some ⟨.thread, fs, cs⟩ :=
  Known.Runner.record

end Plays

/-- What a builtin makes of its thread: nothing yet if it returns a value. -/
def Flow.Turned (τ τ' : Task) : Flow → Prop
  | .returned _ => τ' = τ
  | .yielded => ∃ v, { τ with stash := v :: τ.stash }.Settles .turn τ'

namespace Builtin

/-- What becomes of threads when something is done with arguments that are kept. -/
def Flows (args : List Address) (x : TurnM Flow) : Prop :=
  ∀ {k : Known} {t : Address} {σ : Address → Task} {τ : Task} {n : Nat} {O : Multiset Address}
    {s : Turn}
    [k.KeptByTurns] [k.Runner t], Plays t k σ τ (n + 6) O s → (∀ a ∈ args, k.Keeps a) →
    τ.place = none → τ.waits = none →
      Yields x s fun flow s' => ∃ σ' τ', Plays t k σ' τ' (n + 6) (laden flow.owned O) s' ∧
      Others t σ σ' ∧
        flow.Turned τ τ'

/-- A value is made, and nothing else happens. -/
theorem Flows.value {x : TurnM Flow}
    (hx : ∀ {k : Known} {t : Address} {σ : Address → Task} {τ : Task} {n : Nat}
    {O : Multiset Address} {s : Turn} [k.KeptByTurns] [k.Runner t], Plays t k σ τ (n + 6) O s →
    Yields x s fun flow s' =>
      ∃ v, flow = .returned v ∧ Plays t k σ τ (n + 6) (v ::ₘ O) s') : Flows args x :=
  fun p _ _ _ => (hx p).mono fun _ _ ⟨_, e, p⟩ => by
    subst e
    exact ⟨_, _, p, .refl, rfl⟩

theorem returnCount_flows {c : Nat} : Flows args (returnCount c) :=
  Flows.value fun p => (p.makes (Scalar.new_owns (by rfl) p.knows)).bind fun v _ p =>
  .pure ⟨v, rfl, p⟩

theorem conclude_quiet {r : Except Fault α} : Yields (.conclude r : TurnM α) s fun _ s' => s' = s :=
  .conclude fun _ _ => rfl

/-- The only argument. -/
theorem single_mem : Yields (single args) s fun a s' => s' = s ∧ a ∈ args := by
  unfold single
  refine (Yields.conclude (Q := fun _ s' => s' = s ∧ args.length = 1) fun _ e => ⟨rfl, ?_⟩).bind
    fun _ s' ⟨e, one⟩ => ?_
  · unfold checkArity at e
    split at e
    · assumption
    · cases e
  · obtain ⟨a, rfl⟩ := List.length_eq_one_iff.1 one
    exact .pure ⟨e, List.mem_singleton.2 rfl⟩

theorem runLen_flows : Flows args (runLen args) := by
  intro k t σ τ n O s _ _ p held free runs
  refine .quiet (single_mem.mono fun _ _ e => e.1) fun a => .look fun view _ => ?_
  split
  · exact .look fun _ _ => returnCount_flows p held free runs
  · exact .look fun _ _ => returnCount_flows p held free runs
  · exact .look fun _ _ => returnCount_flows p held free runs
  · exact .look fun _ _ => returnCount_flows p held free runs
  · exact returnCount_flows p held free runs
  · exact .look fun _ _ => .throw

theorem runCap_flows : Flows args (runCap args) := by
  intro k t σ τ n O s _ _ p held free runs
  refine .quiet (single_mem.mono fun _ _ e => e.1) fun a => .look fun view _ => ?_
  split
  · exact .look fun _ _ => returnCount_flows p held free runs
  · exact .look fun _ _ => returnCount_flows p held free runs
  · exact .look fun _ _ => returnCount_flows p held free runs
  · exact returnCount_flows p held free runs
  · exact .look fun _ _ => .throw

theorem runAppend_flows : Flows args (runAppend args) := by
  refine Flows.value fun p => ?_
  unfold runAppend
  split
  · exact .throw
  · exact .ofThread fun _ _ => (p.makes (Slice.append_makes p.knows)).bind fun v _ p =>
      .pure ⟨v, rfl, p⟩

theorem emit_plays {text : String} (p : Plays t k σ τ n O s) :
    Yields (TurnM.emit text) s fun _ s' => Plays t k σ τ n O s' :=
  .ofThread fun _ _ => .modify ⟨p.thread, p.knows⟩

/-- Nil is returned. -/
theorem returns_nil (p : Plays t k σ' τ n O s) (others : Others t σ σ') :
    Yields (pure (.returned .nil) : TurnM Flow) s fun flow s' => ∃ σ' τ',
    Plays t k σ' τ' n (laden flow.owned O) s' ∧
      Others t σ σ' ∧ flow.Turned τ τ' :=
  .pure ⟨σ', τ, Plays.cons_nil.2 p, others, rfl⟩

theorem runClose_flows : Flows args (runClose args) := by
  intro k t σ τ n O s _ _ p held free runs
  refine single_mem.bind fun ch s' ⟨e, hch⟩ => .ofThread fun structs _ => .get ?_
  subst e
  exact (p.wakes runs (p.knows.close (held ch hch))).bind fun _ s₁ ⟨σ', p₁, others⟩ =>
    returns_nil p₁ others

theorem runPrintln_flows : Flows args (runPrintln args) :=
  Flows.value fun p => .look fun _ _ => (emit_plays p).bind fun _ _ p =>
  .pure ⟨.nil, rfl, Plays.cons_nil.2 p⟩

theorem runPrint_flows : Flows args (runPrint args) :=
  Flows.value fun p => .look fun _ _ => (emit_plays p).bind fun _ _ p =>
  .pure ⟨.nil, rfl, Plays.cons_nil.2 p⟩

theorem runSprint_flows : Flows args (runSprint args) :=
  Flows.value fun p => .look fun _ _ => (p.makes (Text.create_owns p.knows)).bind fun v _ p =>
  .pure ⟨v, rfl, p⟩

/-! ## Locks and wait groups -/

/-- The lock that is found is kept. -/
theorem receiver_finds [k.KeptByTurns] {tag : Tag} {expected : String} (p : Plays t k σ τ n O s)
    (held : ∀ a ∈ args, k.Keeps a) :
    Yields (receiver args tag expected) s fun lock s' => s' = s ∧ ∃ k' : Known, k'.KeptByLocks ∧
    k.Within k' ∧
      k'.stays = k.stays ∧ k'.Keeps lock ∧ Plays t k' σ τ n O s := by
  unfold receiver
  split
  · exact .throw
  · next first rest =>
    refine .look fun target follow => .look fun found _ => ?_
    split
    · obtain ⟨k', leads, g, within, stays, kept⟩ :=
        Knows.followTo inferInstance p.knows (held first (by simp)) follow
      exact .pure ⟨rfl, k', leads, within, stays, kept, p.thread, g⟩
    · exact .guard fun _ => .throw

/-- Something is done with the lock that the arguments lead to. -/
theorem locking [k.KeptByTurns] [k.Runner t] {lock : TurnM Address} {f : Address → TurnM Flow}
    (p : Plays t k σ τ n O s)
    (found : Yields lock s fun lock s' => s' = s ∧ ∃ k' : Known, k'.KeptByLocks ∧ k.Within k' ∧
    k'.stays = k.stays ∧
      k'.Keeps lock ∧ Plays t k' σ τ n O s)
    (hf : ∀ {k' : Known} {lock}, k'.KeptByLocks → k'.Runner t → k'.Keeps lock →
    Plays t k' σ τ n O s →
      Yields (f lock) s fun flow s' => ∃ σ' τ', Plays t k' σ' τ' n (laden flow.owned O) s' ∧
      Others t σ σ' ∧
        flow.Turned τ τ') :
    Yields (lock >>= f) s fun flow s' => ∃ σ' τ', Plays t k σ' τ' n (laden flow.owned O) s' ∧
    Others t σ σ' ∧
      flow.Turned τ τ' := by
  refine found.bind fun lock s' ⟨e, k', leads, within, stays, kept, p'⟩ => ?_
  subst e
  refine (hf leads (.mono within stays) kept p').mono fun _ _ ⟨σ', τ', p₁, rest⟩ =>
    ⟨σ', τ', ⟨p₁.thread, ?_⟩, rest⟩
  exact p₁.knows.forget within stays p.knows.wf

theorem mutexOf_finds [k.KeptByTurns] (p : Plays t k σ τ n O s) (held : ∀ a ∈ args, k.Keeps a) :
    Yields (mutexOf args) s fun lock s' => s' = s ∧ ∃ k' : Known, k'.KeptByLocks ∧ k.Within k' ∧
      k'.stays = k.stays ∧ k'.Keeps lock ∧ Plays t k' σ τ n O s :=
  .quiet conclude_quiet fun _ => receiver_finds p held

theorem waitGroupOf_finds [k.KeptByTurns] {arity : Nat} (p : Plays t k σ τ n O s)
    (held : ∀ a ∈ args, k.Keeps a) :
    Yields (waitGroupOf args arity) s fun lock s' => s' = s ∧ ∃ k' : Known, k'.KeptByLocks ∧
    k.Within k' ∧
      k'.stays = k.stays ∧ k'.Keeps lock ∧ Plays t k' σ τ n O s :=
  .quiet conclude_quiet fun _ => receiver_finds p held

theorem runLock_flows : Flows args (runLock args) := by
  intro k t σ τ n O s _ _ p held free runs
  refine locking p (mutexOf_finds p held) fun {k' lock} _ _ kept p =>
    p.pushValue.bind fun _ s₁ p₁ => .get (.get ?_)
  obtain ⟨fs, cs, ht⟩ := p₁.record
  rw [p₁.thread]
  refine (p₁.settles (p₁.knows.lock_mutex ht Known.Runner.kept (by simpa using free) kept)).bind
    fun _ s₂ ⟨τ', p₂, settles⟩ => .pure ⟨σ, τ', p₂, .refl, .nil, settles⟩

theorem runWait_flows : Flows args (runWait args) := by
  intro k t σ τ n O s _ _ p held free runs
  refine locking p (waitGroupOf_finds p held) fun {k' lock} _ _ kept p =>
    p.pushValue.bind fun _ s₁ p₁ => .get (.get ?_)
  obtain ⟨fs, cs, ht⟩ := p₁.record
  rw [p₁.thread]
  refine (p₁.settles (p₁.knows.wait_group ht Known.Runner.kept (by simpa using free) kept)).bind
    fun _ s₂ ⟨τ', p₂, settles⟩ => .pure ⟨σ, τ', p₂, .refl, .nil, settles⟩

theorem runUnlock_flows : Flows args (runUnlock args) := by
  intro k t σ τ n O s _ _ p held free runs
  refine locking p (mutexOf_finds p held) fun {k' lock} _ _ kept p => .get ?_
  exact (p.wakes runs (p.knows.unlock_mutex kept)).bind fun _ s₁ ⟨σ', p₁, others⟩ =>
    returns_nil p₁ others

theorem runAdd_flows : Flows args (runAdd args) := by
  intro k t σ τ n O s _ _ p held free runs
  refine locking p (waitGroupOf_finds p held) fun {k' lock} _ _ kept p => .look fun _ _ => .get ?_
  exact (p.wakes runs (p.knows.add_group kept)).bind fun _ s₁ ⟨σ', p₁, others⟩ =>
    returns_nil p₁ others

theorem runDone_flows : Flows args (runDone args) := by
  intro k t σ τ n O s _ _ p held free runs
  refine locking p (waitGroupOf_finds p held) fun {k' lock} _ _ kept p => .get ?_
  exact (p.wakes runs (p.knows.add_group kept)).bind fun _ s₁ ⟨σ', p₁, others⟩ =>
    returns_nil p₁ others

theorem run_flows : ∀ {b : Builtin}, Flows args (b.run args)
  | .append => runAppend_flows
  | .cap => runCap_flows
  | .close => runClose_flows
  | .len => runLen_flows
  | .print => runPrint_flows
  | .println => runPrintln_flows
  | .sprint => runSprint_flows
  | .lock => runLock_flows
  | .unlock => runUnlock_flows
  | .add => runAdd_flows
  | .done => runDone_flows
  | .wait => runWait_flows

end Builtin
end GoMachine
