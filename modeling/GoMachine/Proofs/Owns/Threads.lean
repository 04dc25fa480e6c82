import GoMachine.Lock
import GoMachine.Proofs.Owns.Values
import GoMachine.Proofs.Owns.Types
/-!
# Ownership of threads and locks

A waker holds its thread and the queues hold their wakers and instances. Waking moves the reference
out of the waker, puts another one into the run queue and drops it; delivering leaves the instance
to the caller.
-/
namespace GoMachine

open Heap (Owns Within)

variable {P F O : Multiset Address} [Within F O] {n : Nat} {h : Heap}
  {I : Nat → Multiset Address → Heap → Prop} [Queueing P I]

namespace Env

theorem create_owns {frame structs : Address} (own : Owns P (n + 1) O h) :
    Pays P F (create frame structs) h fun env h' => Owns P (n + 1) (env ::ₘ O) h' := by
  refine own.allocate.heap.bind fun env h₁ own => ?_
  refine own.setChild.heap.bind fun _ h₂ own => ?_
  exact own.setChild.heap.bind fun _ h₃ own => .pure own

theorem setFrame_owns {env frame : Address} (own : Owns P (n + 1) O h) :
    Pays P F (setFrame env frame) h fun _ h' => Owns P (n + 1) O h' :=
  own.setChild.heap

theorem pushFrame_owns {env : Address} (own : Owns P (n + 1) O h) :
    Pays P F (pushFrame env) h fun _ h' => Owns P (n + 1) O h' := by
  refine .read own fun _ _ => (Frame.create_owns own).bind fun inner h₁ own => ?_
  exact own.setChildOwned.heap.bind fun _ h₂ own => .pure own

theorem popFrame_owns {env : Address} (own : Owns P (n + 1) O h) :
    Pays P F (popFrame env) h fun _ h' => Owns P (n + 1) O h' :=
  .read own fun _ _ => .read own fun _ _ => setFrame_owns own

end Env

namespace Thread

theorem create_owns {id : UInt64} {frame structs : Address} (own : Owns P (n + 1) O h) :
    Pays P F (create id frame structs) h fun t h' => Owns P (n + 1) (t ::ₘ O) h' := by
  refine own.allocate.heap.bind fun t h₁ own => ?_
  refine (Pays.orRelease (Q := fun _ h' => Owns P (n + 1) (t ::ₘ O) h') ?_).bind
    fun _ h₂ own => .pure own
  refine own.setField.heap.bind fun _ h₂ own => ?_
  refine (Stack.create_owns own).bind fun control h₃ own => ?_
  refine own.setChildOwned.heap.bind fun _ h₄ own => ?_
  refine (Stack.create_owns own).bind fun stash h₅ own => ?_
  refine own.setChildOwned.heap.bind fun _ h₆ own => ?_
  refine (Env.create_owns own).bind fun env h₇ own => ?_
  exact own.setChildOwned.heap

theorem fork_owns {t : Address} {id : UInt64} (own : Owns P (n + 1) O h) :
    Pays P F (fork t id) h fun t' h' => Owns P (n + 1) (t' ::ₘ O) h' :=
  .read own fun _ _ => .read own fun _ _ => .read own fun _ _ => create_owns own

end Thread

namespace Scheduler

theorem create_owns (own : Owns P n O h) :
    Pays P F create h fun s h' => Owns P n (s ::ₘ O) h' := by
  refine own.allocate.heap.bind fun s h₁ own => ?_
  refine (Pays.orRelease (Queue.create_owns own)).bind fun q h₂ own => ?_
  exact own.setChildOwned.heap.bind fun _ h₃ own => .pure own

theorem nextId_owns {s : Address} (own : Owns P n O h) :
    Pays P F (nextId s) h fun _ h' => Owns P n O h' :=
  .read own fun _ _ => own.setField.heap.bind fun _ _ own => .pure own

theorem enqueue_owns {s t : Address} (own : I (n + 2) O h) :
    Pays P F (enqueue s t) h fun _ h' => I (n + 2) O h' :=
  .read own fun _ _ => Queue.enqueue_owns own

theorem dequeue_owns {s : Address} (own : I (n + 4) O h) :
    Pays P F (dequeue s) h fun t h' => I (n + 3) (t ::ₘ O) h' :=
  .read own fun _ _ => Queue.dequeue_owns own

end Scheduler

namespace Waker

theorem create_owns {t : Address} (own : Owns P (n + 1) O h) :
    Pays P F (create t) h fun w h' => Owns P (n + 1) (w ::ₘ O) h' := by
  refine own.allocate.heap.bind fun w h₁ own => ?_
  exact own.setChild.heap.bind fun _ h₂ own => .pure own

theorem wake_owns {w s : Address} (own : I (n + 3) O h) :
    Pays P F (wake w s) h fun _ h' => I (n + 3) O h' := by
  refine (Queueing.takeChild rfl own).heap.bind fun t h₁ owned => ?_
  split
  · next e =>
    rw [Address.isNil_iff.1 e] at owned
    exact .pure (Account.restore own (Account.cons_nil.1 owned))
  refine (Pays.releasing (Scheduler.enqueue_owns owned)).bind fun _ h₂ owned => ?_
  exact .pure (Account.restore own owned)

theorem park_owns {t waiters : Address} (own : Owns P (n + 1) O h) :
    Pays P F (park t waiters) h fun _ h' => Owns P (n + 1) O h' := by
  refine (create_owns own).bind fun w h₁ own => ?_
  exact Queue.enqueueOwned_owns own

theorem wakeAmong_owns {waiters s : Address} : ∀ {k : Nat} {h : Heap}, Owns P (n + 4) O h →
    Pays P F (wakeAmong waiters s k) h fun _ h' => Owns P (n + 4) O h'
  | 0, _, own => .pure own
  | k + 1, h, own => by
    refine (Queue.dequeue_owns own).bind fun w h₁ owned => ?_
    split
    · next e =>
      rw [Address.isNil_iff.1 e] at owned
      exact .pure ((Owns.cons_nil.1 owned).tighten own.spare)
    refine (Pays.releasing (wake_owns owned)).bind fun woken h₂ owned => ?_
    split
    · exact .pure (owned.tighten own.spare)
    · exact wakeAmong_owns (owned.tighten own.spare)

theorem wakeOne_owns {waiters s : Address} (own : Owns P (n + 4) O h) :
    Pays P F (wakeOne waiters s) h fun _ h' => Owns P (n + 4) O h' :=
  .get (wakeAmong_owns own)

theorem wakeUpTo_owns {waiters s : Address} : ∀ {k : Nat} {h : Heap}, Owns P (n + 4) O h →
    Pays P F (wakeUpTo waiters s k) h fun _ h' => Owns P (n + 4) O h'
  | 0, _, own => .pure own
  | k + 1, h, own => by
    refine (wakeOne_owns own).bind fun woken h₁ own => ?_
    split
    · exact (wakeUpTo_owns own).bind fun _ h₂ own => .pure own
    · exact .pure own

theorem wakeAll_owns {waiters s : Address} (own : Owns P (n + 4) O h) :
    Pays P F (wakeAll waiters s) h fun _ h' => Owns P (n + 4) O h' :=
  .get (wakeUpTo_owns own)

end Waker

namespace Waiting

theorem create_owns {w value body : Address} (own : Owns P (n + 1) O h) :
    Pays P F (create w value body) h fun inst h' => Owns P (n + 1) (inst ::ₘ O) h' := by
  refine own.allocate.heap.bind fun inst h₁ own => ?_
  refine own.setChild.heap.bind fun _ h₂ own => ?_
  refine own.setChild.heap.bind fun _ h₃ own => ?_
  exact own.setChild.heap.bind fun _ h₄ own => .pure own

theorem takeValue_owns {inst : Address} (own : I (n + 1) O h) :
    Pays P F (takeValue inst) h fun value h' => I n (value ::ₘ O) h' :=
  (Queueing.takeChild rfl own).heap

theorem firstAmong_owns {waiters : Address} : ∀ {k : Nat} {h : Heap}, I (n + 4) O h →
    Pays P F (firstAmong waiters k) h fun inst h' => I (n + 3) (inst ::ₘ O) h'
  | 0, _, own => .pure (Account.cons_nil.2 (Account.weaken own (Nat.le_succ _)))
  | k + 1, h, own => by
    refine (Queue.dequeue_owns own).bind fun inst h₁ owned => ?_
    split
    · next e =>
      rw [Address.isNil_iff.1 e] at owned
      exact .pure owned
    refine .read owned fun stale _ => ?_
    split
    · exact .pure owned
    · refine (Account.free owned).heap.bind fun _ h₂ owned => ?_
      exact firstAmong_owns (Account.restore own owned)

theorem firstLive_owns {waiters : Address} (own : I (n + 4) O h) :
    Pays P F (firstLive waiters) h fun inst h' => I (n + 3) (inst ::ₘ O) h' :=
  .get (firstAmong_owns own)

/-- Delivering takes a value over if there is one. -/
theorem deliver_owns {inst s : Address} {v : Option Address}
    (own : Owns P (n + 3) (v.elim 0 ({·}) + O) h) :
    Pays P F (deliver inst v s) h fun _ h' => Owns P (n + 3) O h' := by
  refine .read own fun w _ => .read own fun t _ => ?_
  extract_lets wake rest
  have rest_owns : ∀ h, Owns P (n + 3) O h → Pays P F (rest ⟨⟩) h fun _ h' =>
    Owns P (n + 3) O h' := by
    intro h own
    refine .read own fun body _ => ?_
    split
    · refine .read own fun control _ => (Stack.push_owns own).bind fun _ h₁ own => ?_
      exact (Waker.wake_owns own).bind fun _ h₂ own => .pure own
    · exact (Waker.wake_owns own).bind fun _ h₂ own => .pure own
  cases v with
  | none => exact rest_owns h (by simpa using own)
  | some value =>
    refine .read own fun stash _ => ?_
    exact (Stack.pushOwned_owns own).bind fun _ h₁ own => rest_owns h₁ own

end Waiting

/-! ## Locks -/

namespace LockKind

theorem park_owns {k : LockKind} {lock t : Address} (own : Owns P (n + 1) O h) :
    Pays P F (k.park lock t) h fun _ h' => Owns P (n + 1) O h' :=
  .read own fun _ _ => (Waker.park_owns own).bind fun _ _ own => .pure own

theorem grant_owns {t s : Address} (own : Owns P (n + 2) O h) :
    Pays P F (grant t s) h fun _ h' => Owns P (n + 2) O h' :=
  (Scheduler.enqueue_owns own).bind fun _ _ own => .pure own

end LockKind

namespace Mutex

theorem lock_owns {m t s : Address} (own : Owns P (n + 2) O h) :
    Pays P F (lock m t s) h fun _ h' => Owns P (n + 2) O h' := by
  refine .read own fun locked _ => ?_
  split
  · exact LockKind.park_owns own
  · exact own.setField.heap.bind fun _ h₁ own => LockKind.grant_owns own

theorem unlock_owns {m s : Address} (own : Owns P (n + 4) O h) :
    Pays P F (unlock m s) h fun _ h' => Owns P (n + 4) O h' := by
  refine .read own fun locked _ => .guard own fun _ => .read own fun waiters _ => ?_
  refine (Waker.wakeOne_owns own).bind fun woken h₁ own => ?_
  split
  · exact own.setField.heap
  · exact .pure own

end Mutex

namespace WaitGroup

theorem add_owns {wg s : Address} {delta : Int64} (own : Owns P (n + 4) O h) :
    Pays P F (add wg delta s) h fun _ h' => Owns P (n + 4) O h' := by
  refine .read own fun count _ => .guard own fun _ => own.setField.heap.bind fun _ h₁ own => ?_
  split
  · exact .read own fun _ _ => (Waker.wakeAll_owns own).bind fun _ h₂ own => .pure own
  · exact .pure own

theorem wait_owns {wg t s : Address} (own : Owns P (n + 2) O h) :
    Pays P F (wait wg t s) h fun _ h' => Owns P (n + 2) O h' := by
  refine .read own fun count _ => ?_
  split
  · exact LockKind.grant_owns own
  · exact LockKind.park_owns own

end WaitGroup
end GoMachine
