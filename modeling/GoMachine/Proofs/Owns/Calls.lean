import GoMachine.Machine.Calls
import GoMachine.Proofs.Owns.Channels
import GoMachine.Proofs.Owns.Statements
/-!
# Ownership by builtins and calls

A builtin that returns a value gives a reference to it. A call takes its operands off the stash and
drops them when the callee was entered or has run: the variables of the callee hold references of
their own.
-/
namespace GoMachine

open Heap (Owns stacked laden maxSlots Within)

variable {P F O : Multiset Address} [Within F O] {n : Nat} {s : Turn} {node : Address}

/-- What the caller owns of a flow. -/
def Flow.owned : Flow → List Address
  | .returned value => [value]
  | .yielded => []

namespace Builtin

/-- A builtin gives what its flow owns. -/
def Runs (P : Multiset Address) (x : TurnM Flow) : Prop :=
  ∀ {n F O s} [Within F O], Owns P (n + 6) O s.heap →
    Pays P F x s fun flow s' => Owns P (n + 6) (laden flow.owned O) s'.heap

theorem returned_nil {h : Heap} (own : Owns P n O h) :
    Owns P n (laden (Flow.returned .nil).owned O) h :=
  Owns.cons_nil.2 own

theorem conclude_same {α : Type} {r : Except Fault α} (own : Owns P n O s.heap) :
    Pays P F (.conclude r : TurnM α) s fun _ s' => s' = s :=
  .conclude own fun _ _ => rfl

theorem single_same {args : List Address} (own : Owns P n O s.heap) :
    Pays P F (single args) s fun _ s' => s' = s :=
  .quiet (conclude_same own) fun _ => .pure rfl

theorem returnCount_runs {k : Nat} : Runs P (returnCount k) :=
  fun own => (Scalar.new_owns (by rfl) own).turn.bind fun _ _ own => .pure own

theorem runLen_runs {args : List Address} : Runs P (runLen args) := by
  intro n F O s _ own
  refine .quiet (single_same own) fun _ => .look own fun view _ => ?_
  split
  · exact .look own fun _ _ => returnCount_runs own
  · exact .look own fun _ _ => returnCount_runs own
  · exact .look own fun _ _ => returnCount_runs own
  · exact .look own fun _ _ => returnCount_runs own
  · exact returnCount_runs own
  · exact .look own fun _ _ => .throw own

theorem runCap_runs {args : List Address} : Runs P (runCap args) := by
  intro n F O s _ own
  refine .quiet (single_same own) fun _ => .look own fun view _ => ?_
  split
  · exact .look own fun _ _ => returnCount_runs own
  · exact .look own fun _ _ => returnCount_runs own
  · exact .look own fun _ _ => returnCount_runs own
  · exact returnCount_runs own
  · exact .look own fun _ _ => .throw own

theorem runAppend_runs {args : List Address} : Runs P (runAppend args) := by
  intro n F O s _ own
  unfold runAppend
  split
  · exact .throw own
  · exact .ofThread own fun _ _ => (Slice.append_makes (n := n + 5) own).turn.bind fun _ _ own =>
      .pure own

theorem runClose_runs {args : List Address} : Runs P (runClose args) := by
  intro n F O s _ own
  refine .quiet (single_same own) fun _ => .ofThread own fun structs _ => .get ?_
  exact (Channel.close_owns own).turn.bind fun _ _ own => .pure (returned_nil own)

theorem runPrintln_runs {args : List Address} : Runs P (runPrintln args) :=
  fun own => .look own fun _ _ => (TurnM.emit_owns own).bind fun _ _ own => .pure (returned_nil own)

theorem runPrint_runs {args : List Address} : Runs P (runPrint args) :=
  fun own => .look own fun _ _ => (TurnM.emit_owns own).bind fun _ _ own => .pure (returned_nil own)

theorem runSprint_runs {args : List Address} : Runs P (runSprint args) :=
  fun own => .look own fun _ _ => (Text.create_owns own).turn.bind fun _ _ own => .pure own

theorem receiver_same {args : List Address} {tag : Tag} {expected : String}
    (own : Owns P n O s.heap) :
    Pays P F (receiver args tag expected) s fun _ s' => s' = s := by
  unfold receiver
  split
  · exact .throw own
  refine .look own fun target _ => .look own fun found _ => ?_
  split
  · exact .pure rfl
  · exact .guard own fun _ => .throw own

theorem mutexOf_same {args : List Address} (own : Owns P n O s.heap) :
    Pays P F (mutexOf args) s fun _ s' => s' = s :=
  .quiet (conclude_same own) fun _ => receiver_same own

theorem waitGroupOf_same {args : List Address} {arity : Nat} (own : Owns P n O s.heap) :
    Pays P F (waitGroupOf args arity) s fun _ s' => s' = s :=
  .quiet (conclude_same own) fun _ => receiver_same own

theorem runLock_runs {args : List Address} : Runs P (runLock args) := by
  intro n F O s _ own
  refine .quiet (mutexOf_same own) fun _ => (TurnM.pushValue_owns own).bind fun _ s₁ own =>
    .get (.get ?_)
  exact (Mutex.lock_owns own).turn.bind fun _ _ own => .pure own

theorem runUnlock_runs {args : List Address} : Runs P (runUnlock args) :=
  fun own => .quiet (mutexOf_same own) fun _ => .get <|
    (Mutex.unlock_owns own).turn.bind fun _ _ own => .pure (returned_nil own)

theorem runAdd_runs {args : List Address} : Runs P (runAdd args) :=
  fun own => .quiet (waitGroupOf_same own) fun _ => .look own fun _ _ => .get <|
    (WaitGroup.add_owns own).turn.bind fun _ _ own => .pure (returned_nil own)

theorem runDone_runs {args : List Address} : Runs P (runDone args) :=
  fun own => .quiet (waitGroupOf_same own) fun _ => .get <|
    (WaitGroup.add_owns own).turn.bind fun _ _ own => .pure (returned_nil own)

theorem runWait_runs {args : List Address} : Runs P (runWait args) := by
  intro n F O s _ own
  refine .quiet (waitGroupOf_same own) fun _ => (TurnM.pushValue_owns own).bind fun _ s₁ own =>
    .get (.get ?_)
  exact (WaitGroup.wait_owns own).turn.bind fun _ _ own => .pure own

theorem run_runs {args : List Address} : ∀ {b : Builtin}, Runs P (b.run args)
  | .append => runAppend_runs
  | .cap => runCap_runs
  | .close => runClose_runs
  | .len => runLen_runs
  | .print => runPrint_runs
  | .println => runPrintln_runs
  | .sprint => runSprint_runs
  | .lock => runLock_runs
  | .unlock => runUnlock_runs
  | .add => runAdd_runs
  | .done => runDone_runs
  | .wait => runWait_runs

end Builtin

/-- What the caller owns of an application. -/
def Machine.Applied.owned : Machine.Applied → List Address
  | .entered => []
  | .ran flow => flow.owned

namespace Machine

theorem functionLit_keeps : Keeps P (functionLit node) :=
  fun own => .ofThread own fun _ _ => (Closure.create_owns own).turn.bind fun _ _ own =>
    TurnM.pushValueOwned_owns own

theorem call_keeps : Keeps P (call node) :=
  fun own => .look own fun _ _ => .look own fun _ _ => (TurnM.pushNew_owns own).bind fun _ _ own =>
    TurnM.pushInOrder_owns own

theorem bind_owns {scope literal value : Address} {i : Nat} (own : Owns P (n + 1) O s.heap) :
    Pays P F (bind scope literal i value) s fun _ s' => Owns P (n + 1) O s'.heap := by
  refine .look own fun name _ => .look own fun type _ => ?_
  refine (Variable.create_owns own).turn.bind fun var s₁ own => ?_
  exact TurnM.releasing_owns (K := fun _ => O) (Frame.insert_owns own).turn

theorem enter_owns {f : Address} {receiver : Option Address} {args : List Address}
    (own : Owns P (n + 2) O s.heap) :
    Pays P F (enter f receiver args) s fun _ s' => Owns P (n + 2) O s'.heap := by
  refine .look own fun literal _ => .look own fun captured _ => .look own fun expected _ =>
    .guard own fun _ => ?_
  refine .ofThread own fun frame _ => (TurnM.pushShared_owns own).bind fun _ s₁ own => ?_
  refine (TurnM.pushNew_owns (Owns.cons_nil.2 own)).bind fun _ s₂ own => ?_
  refine (Frame.create_owns own).turn.bind fun scope s₃ own => ?_
  refine (TurnM.releasing_owns (n := n + 2) (K := fun _ => O) (TurnM.setFrame_owns own)).bind
    fun _ s₄ own => .look own fun hasReceiver _ => ?_
  extract_lets rest
  have rest_owns : ∀ s : Turn, Owns P (n + 2) O s.heap →
      Pays P F (rest ⟨⟩) s fun _ s' => Owns P (n + 2) O s'.heap := by
    intro s own
    refine (Pays.forIn (I := fun _ s' => Owns P (n + 2) O s'.heap) own ?_).bind
      fun _ _ own => .look own fun _ _ => TurnM.push_owns own
    intro ⟨arg, i⟩ args s own
    exact (bind_owns own).bind fun _ _ own => .pure ⟨rfl, own⟩
  split
  · split
    · exact (bind_owns own).bind fun _ _ own => rest_owns _ own
    · exact rest_owns s₄ own
  · exact rest_owns s₄ own

theorem callBuiltin_runs {b : Address} {args : List Address} :
    Builtin.Runs P (callBuiltin b args) := by
  intro n F O s _ own
  refine .look own fun name _ => ?_
  split
  · exact Builtin.run_runs own
  · exact .throw own

theorem applyBound_owns {m : Address} {args : List Address} (own : Owns P (n + 6) O s.heap) :
    Pays P F (applyBound m args) s fun applied s' =>
      Owns P (n + 6) (laden applied.owned O) s'.heap := by
  refine .look own fun target _ => .look own fun receiver _ => .look own fun view _ => ?_
  split
  · exact (enter_owns own).bind fun _ _ own => .pure own
  · exact (callBuiltin_runs own).bind fun _ _ own => .pure own
  · exact .throw own

theorem apply_owns {callee : Address} {args : List Address} (own : Owns P (n + 6) O s.heap) :
    Pays P F (apply callee args) s fun applied s' =>
      Owns P (n + 6) (laden applied.owned O) s'.heap := by
  refine .look own fun view _ => ?_
  split
  · exact (enter_owns own).bind fun _ _ own => .pure own
  · exact applyBound_owns own
  · exact (callBuiltin_runs own).bind fun _ _ own => .pure own
  · exact .throw own
  · exact .throw own

/-- The operands of a call are taken off the stash, the arguments before the callee. -/
theorem popOperands_owns {k : Nat} {α : Type} {f : List Address → Address → TurnM α}
    {Q : α → Turn → Prop} (own : Owns P (n + maxSlots + 16) O s.heap)
    (hf : ∀ args callee s, Owns P (n + 15) (laden (args ++ [callee]) O) s.heap →
      Pays P F (f args callee) s Q) :
    Pays P F (do f (← TurnM.popValues k) (← TurnM.popValue)) s Q := by
  have own : Owns P (n + 16 + maxSlots) O s.heap := own.weaken (by omega)
  refine (TurnM.popValues_owns own).bind fun args s₁ owned => ?_
  refine (TurnM.popValue_owns owned).bind fun callee s₂ owned => hf args callee s₂ ?_
  rw [Heap.laden_append, Heap.laden_comm, ← Heap.stacked_eq_laden (l := args)]
  exact owned

theorem callI_keeps : Keeps P (callI node) := by
  intro n F O s _ own
  refine .look own fun argc _ => popOperands_owns own fun args callee s₁ owned => ?_
  refine (TurnM.releasing_owns (n := n + 15) (K := fun applied => laden applied.owned O)
    ((apply_owns owned).mono fun _ _ owned => by rwa [Heap.laden_comm])).bind
    fun applied s₂ owned => ?_
  split
  · exact TurnM.enqueueCurrent_owns (owned.tighten own.spare)
  · next value =>
    have owned : Owns P (n + 15) (value ::ₘ O) s₂.heap := owned
    exact (TurnM.pushValueOwned_owns owned).bind fun _ _ owned =>
      TurnM.enqueueCurrent_owns (owned.tighten own.spare)
  · exact .pure (owned.tighten own.spare)

theorem returnFrom_keeps : Keeps P (returnFrom node) := by
  intro n F O s _ own
  refine .look own fun value _ => (TurnM.pushNew_owns own).bind fun _ s₁ own => ?_
  split
  · exact TurnM.pushValue_owns own
  · exact TurnM.push_owns own

theorem dropBody_keeps : ∀ {k : Nat}, Keeps P (dropBody k)
  | 0, _, _, _, _, _, own => .throw own
  | k + 1, n, F, O, s, _, own => by
    refine .ofThread own fun control _ => .look own fun top _ => .guard own fun _ =>
      .look own fun tag _ => ?_
    split
    · exact .pure own
    refine (Stack.pop_owns own).turn.bind fun dropped s₁ owned => ?_
    exact owned.free.onHeap.bind fun _ _ owned => dropBody_keeps (owned.tighten own.spare)

theorem returnFromI_keeps : Keeps P (returnFromI node) :=
  fun own => .get (dropBody_keeps own)

theorem restoreEnvI_keeps : Keeps P (restoreEnvI node) :=
  fun own => .look own fun _ _ => TurnM.setFrame_owns own

theorem goCall_keeps : Keeps P (goCall node) :=
  fun own => .look own fun _ _ => .look own fun _ _ => (TurnM.pushNew_owns own).bind fun _ _ own =>
    TurnM.pushInOrder_owns own

/-- The operands move to the stash of the new thread. -/
theorem spawn_owns {s t : Address} {argc : UInt64} {operands : List Address} {h : Heap}
    (own : Owns P (n + 2) (laden operands O) h) :
    Pays P F (spawn s t argc operands) h fun _ h' => Owns P (n + 2) O h' := by
  refine (Scheduler.nextId_owns own).bind fun id h₁ own => ?_
  refine (Thread.fork_owns own).bind fun fork h₂ own => .read own fun stash _ => ?_
  refine (Pays.forIn (I := fun rest h' => Owns P (n + 2) (laden rest (fork ::ₘ O)) h') own.lade
    ?_).bind fun _ h₃ own => .read own fun control _ => ?_
  · intro value rest h own
    have own : Owns P (n + 2) (value ::ₘ laden rest (fork ::ₘ O)) h := own
    exact (Stack.pushOwned_owns own).bind fun _ _ own => .pure ⟨rfl, own⟩
  refine (Node.unit_owns own).bind fun pop h₄ own => ?_
  refine (Stack.pushOwned_owns own).bind fun _ h₅ own =>
    ?_
  refine (Node.build_owns (l := []) own).bind fun call h₆ own => ?_
  refine (Stack.pushOwned_owns own).bind fun _ h₇ own => ?_
  exact (Scheduler.enqueue_owns own).bind fun _ h₈ own => own.free.heap

theorem goCallI_keeps : Keeps P (goCallI node) := by
  intro n F O s _ own
  refine .look own fun argc _ => popOperands_owns own fun args callee s₁ owned => .get (.get ?_)
  rw [Heap.laden_append, Heap.laden_comm, ← Heap.laden_append] at owned
  exact (spawn_owns owned).turn.bind fun _ _ owned =>
    TurnM.enqueueCurrent_owns (owned.tighten own.spare)

end Machine
end GoMachine
