import GoMachine.Proofs.Locking.Layout
/-!
# What locks do

`Hosts σ place D n O h` says that the heap `h` stores the desk `D` for a client that owns `O`, with
room for `n` more references. Each operation on a lock does to the desk what its name says, unless
memory runs out.

* `Hosts.counter`, `Hosts.waiting`, `Hosts.threads`: what is read.
* `Hosts.park`, `Hosts.enqueue`, `Hosts.wakeOne`, `Hosts.wakeAll`: how threads wait and go on.
* `Hosts.lock`, `Hosts.unlock`, `Hosts.acquire`, `Hosts.release`, `Hosts.add`, `Hosts.wait`: the
  operations.
-/
namespace GoMachine

open Heap (Stores Short Spare Owns)

/-- The heap stores a desk for a client. -/
def Hosts (σ : Lobby) (place : Option Address → Address) (D : Desk) (n : Nat) (O : Multiset Address)
    (h : Heap) : Prop :=
  ∃ S, Stores 0 n O S h ∧ Seated σ place D S ∧ σ.Owned O

variable {σ : Lobby} {place : Option Address → Address} {D : Desk} {S : Store}
    {O : Multiset Address}
  {n c : Nat} {h : Heap} {k : LockKind} {l t w : Address}

namespace Hosts

theorem spare (hosts : Hosts σ place D n O h) : Spare n O := by
  obtain ⟨S, st, -⟩ := hosts
  exact st.owns.spare

theorem tighten {m : Nat} (hosts : Hosts σ place D m O h) (sp : Spare n O) :
    Hosts σ place D n O h := by
  obtain ⟨S, st, seated, own⟩ := hosts
  exact ⟨S, st.tighten sp, seated, own⟩

/-! ## Reading -/

section Reading

variable (hosts : Hosts σ place D n O h)

include hosts

theorem counter (hl : (k, l) ∈ σ.locks) : k.counter l h = .ok (D.counter l) := by
  obtain ⟨S, st, seated, -⟩ := hosts
  have here := seated.lock hl
  refine query_bind_ok.2 ⟨(), query_bind_ok.2 ⟨_, st.tag here, ?_⟩, ?_⟩
  · rw [if_pos rfl]
    rfl
  · exact query_bind_ok.2 ⟨_, st.field here rfl, query_pure_ok.2 (by simp)⟩

theorem waiters (hl : (k, l) ∈ σ.locks) : k.waiters l h = .ok (place (some l)) := by
  obtain ⟨S, st, seated, -⟩ := hosts
  exact st.child (seated.lock hl) rfl

theorem runQueue : Scheduler.runQueue σ.scheduler h = .ok (place none) := by
  obtain ⟨S, st, seated, -⟩ := hosts
  obtain ⟨id, here⟩ := seated.scheduler
  exact st.child here rfl

theorem threads : Scheduler.threads σ.scheduler h = .ok D.runnable := by
  have run := hosts.runQueue
  obtain ⟨S, st, seated, -⟩ := hosts
  exact query_bind_ok.2 ⟨_, run, Queue.values_stores st (seated.queue none trivial)⟩

theorem thread_live (ht : t ∈ σ.threads) : h.isLive t := by
  obtain ⟨S, st, seated, -⟩ := hosts
  obtain ⟨s, here⟩ := seated.thread_some ht
  exact st.isLive here

theorem thread_ne_nil (ht : t ∈ σ.threads) : t.isNil = false := by
  obtain ⟨S, st, -⟩ := id hosts
  exact st.owns.exact.sound.isNil_eq_false (hosts.thread_live ht)

/-- Who waits for a lock. -/
theorem waiting (hl : (k, l) ∈ σ.locks) : k.waiting l h = .ok ((D.waiting l).map Prod.snd) := by
  have here := hosts.waiters hl
  obtain ⟨S, st, seated, -⟩ := hosts
  have has : σ.Has (some l) := ⟨k, hl⟩
  refine query_bind_ok.2 ⟨place (some l), here,
    query_bind_ok.2 ⟨D.content (some l), Queue.values_stores st (seated.queue _ has), ?_⟩⟩
  have each : ∀ x ∈ D.waiting l, Waker.thread x.1 h = .ok x.2 := fun x hx =>
    st.child (seated.waker has hx).1 rfl
  have all : ∀ xs : List (Address × Address), (∀ x ∈ xs, Waker.thread x.1 h = .ok x.2) →
      ((xs.map Prod.fst).mapM Waker.thread : Query _) h = .ok (xs.map Prod.snd) := by
    intro xs
    induction xs with
    | nil => exact fun _ => rfl
    | cons x xs ih =>
      intro hx
      rw [List.map_cons, List.mapM_cons]
      refine query_bind_ok.2 ⟨x.2, hx x (by simp),
        query_bind_ok.2 ⟨_, ih fun y hy => hx y (by simp [hy]), rfl⟩⟩
  exact all _ each

end Reading

/-! ## Waiting and going on -/

/-- A counter is set. -/
theorem setCounter (hosts : Hosts σ place D n O h) (hl : (k, l) ∈ σ.locks) (c : Int64) :
    Gives (k.setCounter l c) h fun _ h' => Hosts σ place (D.count l c) n O h' := by
  obtain ⟨S, st, seated, own⟩ := hosts
  exact (st.setField (seated.lock hl) Nat.zero_lt_one).heap.mono fun _ _ st =>
    ⟨_, st, seated.count hl c, own⟩

/-- A thread goes to the back of the run queue. -/
theorem enqueue (hosts : Hosts σ place D (n + 2) O h) (ht : t ∈ σ.threads) :
    Ends (Short 0 O) (Scheduler.enqueue σ.scheduler t) h fun _ h' =>
    Hosts σ place (D.grant t) (n + 2) O h' := by
  have live := hosts.thread_live ht
  refine .read hosts.runQueue ?_
  obtain ⟨S, st, seated, own⟩ := hosts
  exact (Queue.enqueue_stores st (seated.queue none trivial) (.inr live)).mono fun _ _ st =>
    ⟨_, st, seated.grant, own⟩

theorem grant (hosts : Hosts σ place D (n + 2) O h) (ht : t ∈ σ.threads) :
    Ends (Short 0 O) (LockKind.grant t σ.scheduler) h fun b h' =>
      b = true ∧ Hosts σ place (D.grant t) (n + 2) O h' :=
  (hosts.enqueue ht).bind fun _ _ hosts => .pure ⟨rfl, hosts⟩

/-- The next thread leaves the run queue. -/
theorem next (hosts : Hosts σ place D (n + 4) O h) :
    Gives (Scheduler.dequeue σ.scheduler) h fun t h' =>
    t = D.runnable.headD .nil ∧ Hosts σ place D.next (n + 3) (t ::ₘ O) h' := by
  refine .read hosts.runQueue ?_
  obtain ⟨S, st, seated, own⟩ := hosts
  exact (Queue.dequeue_stores st (seated.queue none trivial)).mono fun _ _ ⟨e, st⟩ =>
    ⟨e, _, st, seated.next, own.cons⟩

/-- A reference is dropped, and the desk stays. -/
theorem free {a : Address} (hosts : Hosts σ place D n (a ::ₘ O) h) (own : σ.Owned O) :
    Gives (HeapM.free a) h fun _ h' => Hosts σ place D n O h' := by
  obtain ⟨S, st, seated, -⟩ := hosts
  exact st.free.mono fun _ _ st => ⟨_, st, seated.kept own, own⟩

/-- A thread waits behind a new waker. -/
theorem park (hosts : Hosts σ place D (n + 2) O h) (hl : (k, l) ∈ σ.locks) (ht : t ∈ σ.threads) :
    Ends (Short 0 O) (k.park l t) h fun b h' => b = false ∧
      ∃ w, Hosts σ place (D.park l w t) (n + 2) O h' := by
  refine .read (hosts.waiters hl) ?_
  have live := hosts.thread_live ht
  have room := hosts.spare
  obtain ⟨S, st, seated, own⟩ := hosts
  have has : σ.Has (some l) := ⟨k, hl⟩
  have made : Ends (Short 0 O) (Waker.create t) h fun w h' => S w = none ∧
      Stores 0 (n + 2) (w ::ₘ O) (Function.update S w (some (.plain ⟨.waker, [], [t]⟩))) h' := by
    obtain ⟨s, here⟩ := seated.thread_some ht
    refine st.allocate.bind fun w h₁ ⟨new, st⟩ => ?_
    have ne : t ≠ w := by
      rintro rfl
      simp [new] at here
    have live : h₁.isLive t := st.isLive (stored_update here ne)
    refine (st.fillChild_new (Function.update_self ..) rfl (.inr live)).heap.before fun _ h₂ st =>
      .pure ⟨new, ?_⟩
    rwa [Function.update_idem] at st
  refine Ends.bind (Q := fun _ h' => ∃ w, Hosts σ place (D.park l w t) (n + 2) O h')
    (made.bind fun w h₁ ⟨new, st⟩ => ?_) fun _ h₂ hosts => .pure ⟨rfl, hosts⟩
  have queue : Function.update S w (some (.plain ⟨.waker, [], [t]⟩)) (place (some l)) =
      some (.queue (D.content (some l))) := by
    refine stored_update (seated.queue _ has) ?_
    rintro rfl
    simp [seated.queue _ has] at new
  exact (Queue.enqueueOwned_stores st queue).mono fun _ _ st =>
    ⟨w, _, st.tighten room, seated.park has new ht, own⟩

/-- A thread goes on: it leaves its waker for the run queue, and the waker is dropped. -/
theorem wake (st : Stores 0 (n + 4) (w ::ₘ O) S h) (seated : Seated σ place D S) (own : σ.Owned O)
    (here : S w = some (.plain ⟨.waker, [], [t]⟩)) (ht : t ∈ σ.threads)
    (out : ∀ l, σ.Has (some l) → w ∉ D.content (some l)) :
    Ends (Short 0 O) (Action.releasing w (Waker.wake w σ.scheduler)) h fun b h' =>
      b = true ∧ Hosts σ place (D.grant t) (n + 2) O h' := by
  have awake := Hosts.thread_ne_nil ⟨S, st, seated, own.cons⟩ ht
  have spent := seated.aside (o := some (.plain ⟨.waker, [], [.nil]⟩)) (.inr ⟨t, here⟩) out
  have left : Ends (Short 0 (w ::ₘ O)) (Waker.wake w σ.scheduler) h fun b h' =>
      b = true ∧ Hosts σ place (D.grant t) (n + 2) (w ::ₘ O) h' := by
    refine (st.takeChild (n := n + 3) here rfl).heap.before fun _ h₁ ⟨e, st⟩ => ?_
    obtain rfl := e.symm
    rw [if_neg (by simp [awake])]
    have hosts : Hosts σ place D (n + 3) (t ::ₘ w ::ₘ O) h₁ := ⟨_, st, spent, own.cons.cons⟩
    refine Ends.bind (Q := fun _ h' => Hosts σ place (D.grant t) (n + 2) (w ::ₘ O) h')
      ((hosts.enqueue (n := n + 1) ht).releasing (G := Short 0 (w ::ₘ O)) (fun _ h₂ hosts => ?_)
        fun e h₂ failed => failed.free) fun _ h₂ hosts => .pure ⟨rfl, hosts⟩
    exact (hosts.free own.cons).mono fun _ _ hosts => hosts.tighten (st.owns.spare.anti
      (Multiset.le_cons_self _ t) |>.weaken (by omega))
  exact left.releasing (fun b h₁ ⟨e, hosts⟩ => (hosts.free own).mono fun _ _ hosts => ⟨e, hosts⟩)
    fun e h₁ failed => failed.free

/-- The first waiting thread goes on, if there is one. -/
theorem wakeOne (hosts : Hosts σ place D (n + 8) O h) (hl : (k, l) ∈ σ.locks) :
    Ends (Short 0 O) (Waker.wakeOne (place (some l)) σ.scheduler) h fun b h' =>
      (b = false ∧ D.waiting l = [] ∧ Hosts σ place D (n + 8) O h') ∨
      ∃ x rest, b = true ∧ D.waiting l = x :: rest ∧
        Hosts σ place ((D.serve l).grant x.2) (n + 8) O h' := by
  have room := hosts.spare
  have has : σ.Has (some l) := ⟨k, hl⟩
  refine .get ?_
  obtain ⟨S, st, seated, own⟩ := hosts
  -- the first waker is not spent, so that one round is enough
  refine (Queue.dequeue_stores (n := n + 4) st (seated.queue _ has)).before fun w h₁ found => ?_
  obtain ⟨e, st⟩ := found
  obtain ⟨served, gone⟩ := seated.serve has
  cases waits : D.waiting l with
  | nil =>
    have empty : D.content (some l) = [] := by simp [Desk.content, waits]
    rw [empty] at e
    subst e
    rw [if_pos (rfl : Address.isNil _ = true)]
    rw [Desk.serve_nil waits] at served
    exact .pure (.inl ⟨rfl, rfl, _, (Stores.cons_nil.1 st).tighten room, served, own⟩)
  | cons x rest =>
    have first : D.content (some l) = x.1 :: rest.map Prod.fst := by simp [Desk.content, waits]
    rw [first] at e st served
    obtain rfl := e.symm
    obtain ⟨here, ht⟩ := seated.waker has (waits ▸ List.mem_cons_self)
    have queue := seated.queue _ has
    have here₁ := stored_update (x := .queue (rest.map Prod.fst)) here
      (Store.ne here queue (by simp))
    have awake : x.1.isNil = false := st.owns.exact.sound.isNil_eq_false (st.isLive here₁)
    simp only [List.headD_cons, awake, Bool.false_eq_true, if_false]
    refine (wake (n := n + 3) st served own here₁ ht (gone waits)).bind fun b h₂ found => ?_
    obtain ⟨e, hosts⟩ := found
    subst e
    exact .pure (.inr ⟨x, rest, rfl, rfl, hosts.tighten room⟩)

theorem wakeUpTo (hl : (k, l) ∈ σ.locks) : ∀ {D h}, Hosts σ place D (n + 8) O h →
    (D.waiting l).length < c →
    Ends (Short 0 O) (Waker.wakeUpTo (place (some l)) σ.scheduler c) h fun _ h' =>
      Hosts σ place (D.serveAll l) (n + 8) O h' := by
  induction c with
  | zero => exact fun _ lt => absurd lt (Nat.not_lt_zero _)
  | succ c ih =>
    intro D h hosts lt
    refine (hosts.wakeOne hl).bind fun b h₁ woken => ?_
    rcases woken with ⟨rfl, idle, hosts⟩ | ⟨x, rest, rfl, waits, hosts⟩
    · rw [Desk.serveAll_nil idle]
      exact .pure hosts
    · have fewer : (((D.serve l).grant x.2).waiting l).length < c := by
        rw [waits, List.length_cons] at lt
        simp [Desk.serve, Desk.grant, waits]
        omega
      refine Ends.bind (ih hosts fewer) fun _ h₂ hosts => .pure ?_
      have same : ((D.serve l).grant x.2).serveAll l = D.serveAll l := by
        simp [Desk.serveAll, Desk.grant, Desk.serve, waits]
      exact same ▸ hosts

theorem wakeAll (hosts : Hosts σ place D (n + 8) O h) (hl : (k, l) ∈ σ.locks) :
    Ends (Short 0 O) (Waker.wakeAll (place (some l)) σ.scheduler) h fun _ h' =>
      Hosts σ place (D.serveAll l) (n + 8) O h' := by
  refine .get (wakeUpTo hl hosts ?_)
  obtain ⟨S, st, seated, -⟩ := hosts
  have le := Queue.length_le st (seated.queue (some l) ⟨k, hl⟩)
  rw [Desk.content, List.length_map] at le
  omega

/-! ## The operations -/

/-- Taking a mutex, or waiting for it. -/
theorem lock (hosts : Hosts σ place D (n + 8) O h) (hl : (.mutex, l) ∈ σ.locks)
    (ht : t ∈ σ.threads) :
    Ends (Short 0 O) (Mutex.lock l t σ.scheduler) h fun b h' =>
      (D.counter l = 0 ∧ b = true ∧ Hosts σ place ((D.count l 1).grant t) (n + 8) O h') ∨
      (D.counter l ≠ 0 ∧ b = false ∧ ∃ w, Hosts σ place (D.park l w t) (n + 8) O h') := by
  have known : Mutex.isLocked l h = .ok (D.counter l != 0) :=
    query_bind_ok.2 ⟨_, hosts.counter hl, rfl⟩
  refine .read known ?_
  by_cases free : D.counter l = 0
  · rw [if_neg (by simp [free])]
    refine (hosts.setCounter hl 1).before fun _ h₁ hosts => ?_
    exact (hosts.grant (n := n + 6) ht).mono fun b h₂ ⟨e, hosts⟩ => .inl ⟨free, e, hosts⟩
  · rw [if_pos (by simp [free])]
    exact (hosts.park (n := n + 6) hl ht).mono fun b h₁ ⟨e, hosts⟩ => .inr ⟨free, e, hosts⟩

/-- Giving a mutex up, or handing it over. -/
theorem unlock (hosts : Hosts σ place D (n + 8) O h) (hl : (.mutex, l) ∈ σ.locks) :
    (D.counter l = 0 ∧ Mutex.unlock l σ.scheduler h = .error .unlockOfUnlocked h) ∨
    (D.counter l ≠ 0 ∧ Ends (Short 0 O) (Mutex.unlock l σ.scheduler) h fun _ h' =>
      (D.waiting l = [] ∧ Hosts σ place (D.count l 0) (n + 8) O h') ∨
      ∃ x rest, D.waiting l = x :: rest ∧ Hosts σ place ((D.serve l).grant x.2) (n + 8) O h') := by
  have known : Mutex.isLocked l h = .ok (D.counter l != 0) :=
    query_bind_ok.2 ⟨_, hosts.counter hl, rfl⟩
  by_cases free : D.counter l = 0
  · refine .inl ⟨free, ?_⟩
    have unlocked : Mutex.isLocked l h = .ok false := by simpa [free] using known
    have asked : (liftM (Mutex.isLocked l) : Action Bool) h = .ok false h :=
      lift_query_ok.2 ⟨unlocked, rfl⟩
    simp only [Mutex.unlock, bind, EStateM.bind, asked]
    rfl
  · refine .inr ⟨free, .read known ?_⟩
    rw [if_neg (by simp [free])]
    refine .read (hosts.waiters hl) ((hosts.wakeOne hl).bind fun b h₁ woken => ?_)
    rcases woken with ⟨rfl, idle, hosts⟩ | ⟨x, rest, rfl, waits, hosts⟩
    · exact (hosts.setCounter hl 0).ends.mono fun _ _ hosts => .inl ⟨idle, hosts⟩
    · exact .pure (.inr ⟨x, rest, waits, hosts⟩)

/-- Taking a permit, or waiting for one. -/
theorem acquire (hosts : Hosts σ place D (n + 8) O h) (hl : (.semaphore, l) ∈ σ.locks)
    (ht : t ∈ σ.threads) :
    Ends (Short 0 O) (Semaphore.acquire l t σ.scheduler) h fun b h' =>
      (0 ≤ D.counter l - 1 ∧ b = true ∧ Hosts σ place ((D.count l (D.counter l - 1)).grant t)
      (n + 8) O h') ∨
      (¬0 ≤ D.counter l - 1 ∧ b = false ∧
        ∃ w, Hosts σ place ((D.count l (D.counter l - 1)).park l w t) (n + 8) O h') := by
  refine .read (hosts.counter hl) ((hosts.setCounter hl _).before fun _ h₁ hosts => ?_)
  by_cases free : 0 ≤ D.counter l - 1
  · rw [if_pos free]
    exact (hosts.grant (n := n + 6) ht).mono fun b h₂ ⟨e, hosts⟩ => .inl ⟨free, e, hosts⟩
  · rw [if_neg free]
    exact (hosts.park (n := n + 6) hl ht).mono fun b h₁ ⟨e, hosts⟩ => .inr ⟨free, e, hosts⟩

/-- Giving a permit back: nobody waits for it, or the first one who does goes on. -/
theorem release (hosts : Hosts σ place D (n + 8) O h) (hl : (.semaphore, l) ∈ σ.locks) :
    Ends (fun e h' => Short 0 O e h' ∨ e = .semaphoreAccounting ∧ D.counter l + 1 ≤ 0 ∧
    D.waiting l = [] ∧
        Hosts σ place (D.count l (D.counter l + 1)) (n + 8) O h')
      (Semaphore.release l σ.scheduler) h fun _ h' =>
        (¬D.counter l + 1 ≤ 0 ∧ Hosts σ place (D.count l (D.counter l + 1)) (n + 8) O h') ∨
        (D.counter l + 1 ≤ 0 ∧ ∃ x rest, D.waiting l = x :: rest ∧
          Hosts σ place (((D.count l (D.counter l + 1)).serve l).grant x.2) (n + 8) O h') := by
  refine .read (hosts.counter hl) ((hosts.setCounter hl _).before fun _ h₁ hosts => ?_)
  by_cases owed : D.counter l + 1 ≤ 0
  · rw [if_pos owed]
    refine .read (hosts.waiters hl)
      (((hosts.wakeOne hl).weaken fun _ _ => .inl).bind fun b h₁ woken => ?_)
    rcases woken with ⟨rfl, idle, hosts⟩ | ⟨x, rest, rfl, waits, hosts⟩
    · exact .throw (.inr ⟨rfl, owed, idle, hosts⟩)
    · exact .pure (.inr ⟨owed, x, rest, waits, hosts⟩)
  · rw [if_neg owed]
    exact .pure (.inl ⟨owed, hosts⟩)

/-- Changing the counter of a wait group: it is refused, or all waiting threads go on if it is zero
now. -/
theorem add (hosts : Hosts σ place D (n + 8) O h) (hl : (.waitGroup, l) ∈ σ.locks) (delta : Int64) :
    (D.counter l + delta < 0 ∧ WaitGroup.add l delta σ.scheduler h = .error .negativeWaitGroup h) ∨
    (¬D.counter l + delta < 0 ∧ Ends (Short 0 O) (WaitGroup.add l delta σ.scheduler) h fun _ h' =>
      (D.counter l + delta ≠ 0 ∧ Hosts σ place (D.count l (D.counter l + delta)) (n + 8) O h') ∨
      (D.counter l + delta = 0 ∧ Hosts σ place ((D.count l 0).serveAll l) (n + 8) O h')) := by
  by_cases negative : D.counter l + delta < 0
  · refine .inl ⟨negative, ?_⟩
    have asked : (liftM (WaitGroup.count l) : Action Int64) h = .ok (D.counter l) h :=
      lift_query_ok.2 ⟨hosts.counter hl, rfl⟩
    simp only [WaitGroup.add, bind, EStateM.bind, asked, if_pos negative]
    rfl
  · refine .inr ⟨negative, .read (hosts.counter hl) ?_⟩
    extract_lets next rest
    rw [if_neg negative]
    refine (hosts.setCounter hl _).before fun _ h₁ hosts => ?_
    by_cases zero : D.counter l + delta = 0
    · rw [if_pos zero]
      refine .read (hosts.waiters hl) ((hosts.wakeAll hl).bind fun _ h₂ hosts => ?_)
      exact .pure (.inr ⟨zero, zero ▸ hosts⟩)
    · rw [if_neg zero]
      exact .pure (.inl ⟨zero, hosts⟩)

/-- Going on if the counter of a wait group is zero, or waiting. -/
theorem wait (hosts : Hosts σ place D (n + 8) O h) (hl : (.waitGroup, l) ∈ σ.locks)
    (ht : t ∈ σ.threads) :
    Ends (Short 0 O) (WaitGroup.wait l t σ.scheduler) h fun b h' =>
      (D.counter l = 0 ∧ b = true ∧ Hosts σ place (D.grant t) (n + 8) O h') ∨
      (D.counter l ≠ 0 ∧ b = false ∧ ∃ w, Hosts σ place (D.park l w t) (n + 8) O h') := by
  refine .read (hosts.counter hl) ?_
  by_cases zero : D.counter l = 0
  · rw [if_pos zero]
    exact (hosts.grant (n := n + 6) ht).mono fun b h₂ ⟨e, hosts⟩ => .inl ⟨zero, e, hosts⟩
  · rw [if_neg zero]
    exact (hosts.park (n := n + 6) hl ht).mono fun b h₁ ⟨e, hosts⟩ => .inr ⟨zero, e, hosts⟩

end Hosts
end GoMachine
