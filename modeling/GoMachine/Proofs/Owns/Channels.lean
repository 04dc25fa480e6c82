import GoMachine.Proofs.Owns.Threads
import GoMachine.Select
/-!
# Ownership of zero values and channels

A send moves a new reference to the value into the buffer or into a waiting instance; a receive
moves a reference from there to the stash of the receiving thread. Stale instances are dropped on
the way.
-/
namespace GoMachine

open Heap (Owns Within)

variable {P F O : Multiset Address} [Within F O] {n : Nat} {h : Heap}
  {I : Nat → Multiset Address → Heap → Prop} [Ledger P I]

/-! ## Zero values -/

/-- A zero value is one new reference, whatever its type. The recursion is that on the depth. -/
theorem zeroValueTo_makes {structs : Address} :
    ∀ {depth : Nat} {type : Address}, Makes P I 1 (zeroValueTo depth structs type)
  | 0, _, _, _, _, _, _, own => .get (.throw own)
  | depth + 1, type, n, F, O, h, _, own => by
    have makesVariable (elem : Address) :
        Makes P I 1 (do Variable.createOwned elem (← zeroValueTo depth structs elem)) :=
      fun own => (zeroValueTo_makes own).bind fun _ _ own => Variable.createOwned_owns own
    refine .read own fun tag _ => ?_
    split
    · exact Scalar.new_owns (by rfl) own
    · exact Scalar.new_owns (by rfl) own
    · exact Scalar.new_owns (by rfl) own
    · exact Scalar.new_owns (by rfl) own
    · exact Text.create_owns own
    · exact .read own fun elem _ => .read own fun size _ =>
        ArrayValue.build_owns (fun _ => makesVariable elem) own
    · exact .read own fun elem _ => Slice.create_owns own
    · exact .read own fun decl _ => StructValue.build_owns (k := 0) makesVariable own
    · exact StructValue.build_owns (k := 0) makesVariable own
    · exact Ledger.lock (by rfl) own
    · exact Ledger.lock (by rfl) own
    iterate 6 exact .pure (Account.cons_nil.2 own)
    exact .throw own

theorem zeroValue_makes {structs type : Address} : Makes P I 1 (zeroValue structs type) :=
  fun own => .get (zeroValueTo_makes own)

theorem zeroVariable_makes {structs type : Address} : Makes P I 1 (zeroVariable structs type) :=
  fun own => (zeroValue_makes own).bind fun _ _ own => Variable.createOwned_owns own

theorem ArrayValue.zeroed_makes {structs elem : Address} {size : Nat} :
    Makes P I 1 (ArrayValue.zeroed structs elem size) :=
  fun own => ArrayValue.build_owns (fun _ => zeroVariable_makes) own

theorem StructValue.zeroed_makes {structs decl : Address} :
    Makes P I 1 (StructValue.zeroed structs decl) :=
  fun own => StructValue.build_owns (k := 0) (fun _ => zeroVariable_makes) own

namespace Slice

theorem make_makes {structs elem : Address} {size cap : Int} :
    Makes P I 1 (make structs elem size cap) := fun own =>
  .guard own fun _ => .guard own fun _ => (ArrayValue.zeroed_makes own).bind fun _ _ own =>
    .releasing ((create_owns own).mono fun _ _ own => Account.swap own)

/-- Each variable takes a new reference to its value and drops the one that it had. -/
theorem store_owns {slot : Nat → Query Address} {values : List Address} (own : I (n + 1) O h) :
    Pays P F (store slot values) h fun _ h' => I (n + 1) O h' := by
  refine (Pays.forIn (I := fun _ h' => I (n + 1) O h') own ?_).bind fun _ _ own => .pure own
  intro ⟨value, i⟩ rest h own
  exact .read own fun var _ => (Variable.setValue_owns own).bind fun _ _ own => .pure ⟨rfl, own⟩

/-- The new slice is all that comes up: a new array is given up to it. -/
theorem appendTo_makes {structs s : Address} {values : List Address} :
    Makes P I 1 (appendTo structs s values) := by
  intro n F O h _ own
  refine .read own fun size _ => .read own fun cap _ => .read own fun elem _ => ?_
  extract_lets needed newCap
  split
  · refine (store_owns own).bind fun _ h₁ own => ?_
    exact .read own fun array _ => .read own fun offset _ => create_owns own
  · refine (ArrayValue.zeroed_makes own).bind fun array h₁ own => .releasing ?_
    refine .read own fun old _ => (store_owns own).bind fun _ h₂ own => ?_
    exact (create_owns own).mono fun _ _ own => Account.swap own

/-- The empty slice that stands for nil is dropped again. -/
theorem append_makes {structs s : Address} {values : List Address} :
    Makes P I 1 (append structs s values) := by
  intro n F O h _ own
  unfold append
  split
  · refine (create_owns own).bind fun empty h₁ own => .releasing ?_
    exact (appendTo_makes own).mono fun _ _ own => Account.swap own
  · exact appendTo_makes own

end Slice

/-! ## Channels -/

namespace Channel

/-- The queues are owned by the channel as soon as they are made. -/
theorem create_makes {elem : Address} {cap : Int} : Makes P (Owns P) 1 (create elem cap) := by
  intro n F O h _ own
  refine .guard own fun _ => own.allocate.heap.bind fun ch h₁ own => ?_
  refine (Pays.orRelease (Q := fun _ h' => Owns P (n + 1) (ch ::ₘ O) h') ?_).bind
    fun _ _ own => .pure own
  refine own.setField.heap.bind fun _ h₂ own => ?_
  refine (Pays.forIn (I := fun _ h' => Owns P (n + 1) (ch ::ₘ O) h') own ?_).bind
    fun _ h₃ own => own.setChild.heap
  intro i rest h own
  refine (Queue.create_owns own).bind fun queue h₁ own => ?_
  exact own.setChildOwned.heap.bind fun _ _ own => .pure ⟨rfl, own⟩

/-- A waiting receiver is dequeued and delivered to, with the value that went through the buffer.
Otherwise the buffer gets a reference. -/
theorem trySend_owns {ch value s : Address} (own : Owns P (n + 6) O h) :
    Pays P F (trySend ch value s) h fun _ h' => Owns P (n + 6) O h' := by
  refine .read own fun closed _ => .guard own fun _ => .read own fun buffer _ =>
    .read own fun receivers _ => ?_
  refine (Waiting.firstLive_owns own).bind fun receiver h₁ owned => ?_
  extract_lets rest
  have rest_owns : ∀ h, Owns P (n + 6) O h → Pays P F (rest ⟨⟩) h fun _ h' => Owns P (n + 6) O h' :=
    fun h own => .pure own
  split
  · next e =>
    rw [Address.isNil_iff.1 e] at owned
    have own := (Owns.cons_nil.1 owned).tighten own.spare
    refine .read own fun size _ => .read own fun cap _ => ?_
    split
    · exact .read own fun senders _ => .pure own
    · exact (Queue.enqueue_owns own).bind fun _ h₂ own => rest_owns h₂ own
  · refine (Queue.enqueue_owns owned).bind fun _ h₂ owned => ?_
    refine (Queue.dequeue_owns owned).bind fun received h₃ owned => ?_
    refine (Pays.releasing (K := fun _ => O) (Waiting.deliver_owns owned)).bind fun _ h₄ owned => ?_
    exact rest_owns h₄ (owned.tighten own.spare)

/-- A waiting sender hands its value over to the buffer before the oldest value is taken out of
there. -/
theorem tryRecv_owns {ch t structs s : Address} (own : Owns P (n + 6) O h) :
    Pays P F (tryRecv ch t structs s) h fun _ h' => Owns P (n + 6) O h' := by
  refine .read own fun buffer _ => .read own fun senders _ => ?_
  refine (Waiting.firstLive_owns own).bind fun sender h₁ owned => ?_
  extract_lets rest
  have rest_owns : ∀ h, Owns P (n + 6) O h → Pays P F (rest ⟨⟩) h fun _ h' =>
    Owns P (n + 6) O h' := by
    intro h own
    refine .read own fun stash _ => .read own fun empty _ => ?_
    split
    · refine (Queue.dequeue_owns own).bind fun value h₁ owned => ?_
      exact (Stack.pushOwned_owns owned).bind fun _ _ owned => .pure (owned.tighten own.spare)
    refine .read own fun closed _ => ?_
    split
    · refine .read own fun elem _ => (zeroValue_makes own).bind fun zero h₁ own => ?_
      exact (Stack.pushOwned_owns own).bind fun _ _ own => .pure own
    · exact .read own fun receivers _ => .pure own
  split
  · refine (Waiting.takeValue_owns owned).bind fun pending h₂ owned => ?_
    refine (Pays.releasing (I := Owns P) (n := n + 4) (K := fun _ => O) ?_).bind fun _ h₃ owned =>
      rest_owns h₃ (owned.tighten own.spare)
    refine (Queue.enqueueOwned_owns owned).bind fun _ h₃ owned => ?_
    exact Waiting.deliver_owns (v := none) (by simpa using owned)
  · next e =>
    have e : sender = .nil := Address.isNil_iff.1 (by simpa using e)
    rw [e] at owned
    exact rest_owns h₁ ((Owns.cons_nil.1 owned).tighten own.spare)

/-- The queue takes over the waiting instance, which keeps the waker. -/
theorem register_owns {waiters t value : Address} (own : Owns P (n + 1) O h) :
    Pays P F (register waiters t value) h fun _ h' => Owns P (n + 1) O h' := by
  refine (Waker.create_owns own).bind fun w h₁ own => ?_
  refine (Pays.releasing (K := fun inst => inst ::ₘ O)
    ((Waiting.create_owns own).mono fun _ _ own => own.swap)).bind fun inst h₂ own => ?_
  exact Queue.enqueueOwned_owns own

/-- The thread is in the run queue again, or in the waker that it waits by. -/
theorem send_owns {ch value t s : Address} (own : Owns P (n + 6) O h) :
    Pays P F (send ch value t s) h fun _ h' => Owns P (n + 6) O h' := by
  unfold send
  split
  · exact .pure own
  refine (trySend_owns own).bind fun attempt h₁ own => ?_
  cases attempt with
  | done => exact (Scheduler.enqueue_owns own).bind fun _ _ own => .pure own
  | wait waiters => exact (register_owns own).bind fun _ _ own => .pure own

theorem recv_owns {ch t structs s : Address} (own : Owns P (n + 6) O h) :
    Pays P F (recv ch t structs s) h fun _ h' => Owns P (n + 6) O h' := by
  unfold recv
  split
  · exact .pure own
  refine (tryRecv_owns own).bind fun attempt h₁ own => ?_
  cases attempt with
  | done => exact (Scheduler.enqueue_owns own).bind fun _ _ own => .pure own
  | wait waiters => exact (register_owns own).bind fun _ _ own => .pure own

/-- Each receiver gets a zero value of its own. The induction is on how many are looked at at most.
-/
theorem flush_owns {receivers elem structs s : Address} : ∀ {k : Nat} {h : Heap},
    Owns P (n + 6) O h → Pays P F (flush receivers elem structs s k) h fun _ h' =>
    Owns P (n + 6) O h'
  | 0, _, own => .pure own
  | k + 1, h, own => by
    refine (Waiting.firstLive_owns own).bind fun receiver h₁ owned => ?_
    split
    · next e =>
      rw [Address.isNil_iff.1 e] at owned
      exact .pure ((Owns.cons_nil.1 owned).tighten own.spare)
    refine (Pays.releasing (I := Owns P) (n := n + 5) (K := fun _ => O) ?_).bind fun _ h₂ owned =>
      flush_owns (owned.tighten own.spare)
    refine (zeroValue_makes owned).bind fun zero h₂ owned => ?_
    exact Waiting.deliver_owns owned

/-- A sender that waits makes the close fail, and the reference to it is dropped before. -/
theorem close_owns {ch structs s : Address} (own : Owns P (n + 6) O h) :
    Pays P F (close ch structs s) h fun _ h' => Owns P (n + 6) O h' := by
  refine .guard own fun _ => .read own fun closed _ => .guard own fun _ => ?_
  refine own.setField.heap.bind fun _ h₁ own => .read own fun receivers _ => .read own fun elem _ =>
    .get ?_
  refine (flush_owns own).bind fun _ h₂ own => .read own fun senders _ => ?_
  refine (Waiting.firstLive_owns own).bind fun sender h₃ owned => ?_
  split
  · exact owned.free.heap.bind fun _ _ own => .throw own
  · next e =>
    have e : sender = .nil := Address.isNil_iff.1 (by simpa using e)
    rw [e] at owned
    exact .pure ((Owns.cons_nil.1 owned).tighten own.spare)

end Channel

/-! ## Select -/

namespace Select

theorem tryCase_owns {t structs s : Address} {c : Case} (own : Owns P (n + 6) O h) :
    Pays P F (tryCase t structs s c) h fun _ h' => Owns P (n + 6) O h' := by
  unfold tryCase
  split
  · split
    · exact .pure own
    · exact (Channel.trySend_owns own).bind fun _ _ own => .pure own
  · split
    · exact .pure own
    · exact (Channel.tryRecv_owns own).bind fun _ _ own => .pure own

/-- The cases are tried one after the other until one completes. -/
theorem tryInOrder_owns {cases : List Case} {t structs s : Address} :
    ∀ {order : List Nat} {h : Heap},
    Owns P (n + 6) O h →
    Pays P F (tryInOrder cases t structs s order) h fun _ h' => Owns P (n + 6) O h'
  | [], _, own => .pure own
  | i :: order, h, own => by
    unfold tryInOrder
    split
    · exact tryInOrder_owns own
    · refine (tryCase_owns own).bind fun done h₁ own => ?_
      split
      · exact .pure own
      · exact tryInOrder_owns own

/-- Each case has a waiting instance in the queue of its channel, and all share one waker. -/
theorem register_owns {shared : Address} {c : Case} (own : Owns P (n + 1) O h) :
    Pays P F (register shared c) h fun _ h' => Owns P (n + 1) O h' := by
  unfold register
  split
  · split
    · exact .pure own
    · exact .read own fun _ _ => (Waiting.create_owns own).bind fun _ _ own =>
        Queue.enqueueOwned_owns own
  · split
    · exact .pure own
    · exact .read own fun _ _ => (Waiting.create_owns own).bind fun _ _ own =>
        Queue.enqueueOwned_owns own

/-- A select that blocks leaves one waker, which all its waiting instances share. -/
theorem run_owns {cases : List Case} {order : List Nat} {hasDefault : Bool} {t structs s : Address}
    (own : Owns P (n + 6) O h) :
    Pays P F (run cases order hasDefault t structs s) h fun _ h' => Owns P (n + 6) O h' := by
  refine (tryInOrder_owns own).bind fun found h₁ own => ?_
  split
  · exact .pure own
  split
  · exact .pure own
  refine (Waker.create_owns own).bind fun shared h₂ own => ?_
  refine (Pays.releasing (K := fun _ => O) ?_).bind fun _ _ own => .pure own
  exact .forM own fun _ _ _ own => register_owns own

end Select
end GoMachine
