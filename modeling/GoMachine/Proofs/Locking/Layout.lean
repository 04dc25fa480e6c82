import GoMachine.Lock
import GoMachine.Proofs.Exchange.Moves
/-!
# Locks in a store

Threads wait for a lock in a queue of its own, each behind a waker of its own. A `Lobby` is a
scheduler with threads and locks, and a `Desk` tells the counter of each lock, who waits for it and
who is in the run queue. `Seated σ place D S` says that a store is as the desk `D` tells, with the
run queue at `place none` and the queue of the lock `l` at `place (some l)`.

* `Seated.count`, `Seated.grant`, `Seated.next`, `Seated.park`, `Seated.serve`: single changes.
* `Seated.kept`: what a client keeps when it gives something up.
-/
namespace GoMachine

open Heap (Stores kept kept_of Reach)

namespace LockKind

/-- The kinds of locks. -/
def all : List LockKind := [mutex, semaphore, waitGroup]

/-- The threads that wait for a lock, in order. -/
def waiting (k : LockKind) (lock : Address) : Query (List Address) := do
  (← Queue.values (← k.waiters lock)).mapM Waker.thread

end LockKind

deriving instance DecidableEq for LockKind

/-- Those who use locks: a scheduler, threads and locks. -/
structure Lobby where
  scheduler : Address
  threads : List Address
  locks : List (LockKind × Address)

/-- The run queue is there, and the queues of the locks. -/
def Lobby.Has (σ : Lobby) : Option Address → Prop
  | none => True
  | some l => ∃ k, (k, l) ∈ σ.locks

/-- The counters, the waiting threads, each behind its waker, and the run queue. -/
structure Desk where
  counter : Address → Int64
  waiting : Address → List (Address × Address)
  runnable : List Address

namespace Desk

/-- What stands in the run queue or in the queue of a lock. -/
def content (D : Desk) : Option Address → List Address
  | none => D.runnable
  | some l => (D.waiting l).map Prod.fst

/-- A counter is set. -/
def count (D : Desk) (l : Address) (c : Int64) : Desk :=
  { D with counter := Function.update D.counter l c }

/-- A thread becomes runnable. -/
def grant (D : Desk) (t : Address) : Desk := { D with runnable := D.runnable ++ [t] }

/-- The next thread leaves the run queue. -/
def next (D : Desk) : Desk := { D with runnable := D.runnable.tail }

/-- A thread waits behind a new waker. -/
def park (D : Desk) (l w t : Address) : Desk :=
  { D with waiting := Function.update D.waiting l (D.waiting l ++ [(w, t)]) }

/-- The first waiting thread does not wait any more. -/
def serve (D : Desk) (l : Address) : Desk :=
  { D with waiting := Function.update D.waiting l (D.waiting l).tail }

/-- All waiting threads go on. -/
def serveAll (D : Desk) (l : Address) : Desk :=
  { D with
    waiting := Function.update D.waiting l []
    runnable := D.runnable ++ (D.waiting l).map Prod.snd }

/-- There is a new lock. -/
def addLock (D : Desk) (l : Address) (c : Int64) : Desk :=
  { D with
    counter := Function.update D.counter l c
    waiting := Function.update D.waiting l [] }

theorem serve_nil {D : Desk} {l : Address} (idle : D.waiting l = []) : D.serve l = D := by
  have same : Function.update D.waiting l [] = D.waiting := by rw [← idle, Function.update_eq_self]
  simp [serve, idle, same]

theorem serveAll_nil {D : Desk} {l : Address} (idle : D.waiting l = []) : D.serveAll l = D := by
  have same : Function.update D.waiting l [] = D.waiting := by rw [← idle, Function.update_eq_self]
  simp [serveAll, idle, same]

end Desk

variable {σ : Lobby} {place : Option Address → Address} {D : Desk} {S S' : Store}
    {O : Multiset Address}
  {k : LockKind} {l m w t : Address} {q : Option Address}

/-- The store is as the desk tells. -/
structure Seated (σ : Lobby) (place : Option Address → Address) (D : Desk) (S : Store) : Prop where
  kind : ∀ {k l}, (k, l) ∈ σ.locks → k ∈ LockKind.all
  scheduler : ∃ id, S σ.scheduler = some (.plain ⟨.scheduler, [id], [place none]⟩)
  thread : ∀ t ∈ σ.threads, ∃ fs cs, S t = some (.plain ⟨.thread, fs, cs⟩)
  lock : ∀ {k l}, (k, l) ∈ σ.locks →
    S l = some (.plain ⟨k.tag, [(D.counter l).toUInt64], [place (some l)]⟩)
  queue : ∀ q, σ.Has q → S (place q) = some (.queue (D.content q))
  apart : ∀ q r, σ.Has q → σ.Has r → place q = place r → q = r
  waker : ∀ {l x}, σ.Has (some l) → x ∈ D.waiting l →
    S x.1 = some (.plain ⟨.waker, [], [x.2]⟩) ∧ x.2 ∈ σ.threads
  nodup : ∀ {l}, σ.Has (some l) → (D.content (some l)).Nodup
  alone : ∀ {l m w}, σ.Has (some l) → σ.Has (some m) → w ∈ D.content (some l) →
  w ∈ D.content (some m) →
    l = m

/-- The client owns what it has to. -/
structure Lobby.Owned (σ : Lobby) (O : Multiset Address) : Prop where
  scheduler : σ.scheduler ∈ O
  threads : ∀ t ∈ σ.threads, t ∈ O
  locks : ∀ {k l}, (k, l) ∈ σ.locks → l ∈ O

theorem Lobby.Owned.cons {a : Address} (own : σ.Owned O) : σ.Owned (a ::ₘ O) :=
  ⟨Multiset.mem_cons_of_mem own.scheduler, fun t ht => Multiset.mem_cons_of_mem (own.threads t ht),
    fun h => Multiset.mem_cons_of_mem (own.locks h)⟩

theorem LockKind.tag_ne (hk : k ∈ LockKind.all) : k.tag ≠ .scheduler ∧ k.tag ≠ .thread ∧
    k.tag ≠ .waker := by
  simp only [LockKind.all, List.mem_cons, List.not_mem_nil, or_false] at hk
  rcases hk with rfl | rfl | rfl <;> decide

namespace Seated

section

variable (seated : Seated σ place D S)

include seated

theorem thread_some (ht : t ∈ σ.threads) : ∃ s, S t = some s := by
  obtain ⟨fs, cs, here⟩ := seated.thread t ht
  exact ⟨_, here⟩

/-- A waker stands in a queue. -/
theorem waker_of_mem (hl : σ.Has (some l)) (hw : w ∈ D.content (some l)) :
    ∃ t ∈ σ.threads, (w, t) ∈ D.waiting l ∧ S w = some (.plain ⟨.waker, [], [t]⟩) := by
  obtain ⟨⟨w, t⟩, hx, rfl⟩ := List.mem_map.1 hw
  obtain ⟨here, ht⟩ := seated.waker hl hx
  exact ⟨t, ht, hx, here⟩

/-- More is stored, apart from what the desk tells. -/
theorem congr (scheduler : S' σ.scheduler = S σ.scheduler) (thread : ∀ t ∈ σ.threads, S' t = S t)
    (lock : ∀ {k l}, (k, l) ∈ σ.locks → S' l = S l) (queue : ∀ q, σ.Has q →
    S' (place q) = S (place q))
    (waker : ∀ {l w}, σ.Has (some l) → w ∈ D.content (some l) → S' w = S w) :
    Seated σ place D S' where
  kind := seated.kind
  scheduler := by rw [scheduler]; exact seated.scheduler
  thread t ht := by rw [thread t ht]; exact seated.thread t ht
  lock h := by rw [lock h]; exact seated.lock h
  queue q hq := by rw [queue q hq]; exact seated.queue q hq
  apart := seated.apart
  waker hl hx := by
    rw [waker hl (List.mem_map_of_mem hx)]
    exact seated.waker hl hx
  nodup := seated.nodup
  alone := seated.alone

/-- What the client can get at is all there when it keeps that only. -/
theorem kept (own : σ.Owned O) : Seated σ place D (Heap.kept S O) := by
  have part {q : Option Address} (hq : σ.Has q) : Reach S O (place q) := by
    cases q with
    | none => exact .slot (.owned own.scheduler) seated.scheduler.choose_spec (by simp [Shape.refs])
    | some l =>
      obtain ⟨k, hk⟩ := hq
      exact .slot (.owned (own.locks hk)) (seated.lock hk) (by simp [Shape.refs])
  refine seated.congr (kept_of (.owned own.scheduler))
    (fun t ht => kept_of (.owned (own.threads t ht)))
    (fun h => kept_of (.owned (own.locks h))) (fun q hq => kept_of (part hq)) fun hl hw => ?_
  exact kept_of (.slot (part hl) (seated.queue _ hl) hw)

/-- A waker that is in no queue. -/
theorem aside {o : Option Shape} (spent : S w = none ∨ ∃ t, S w = some (.plain ⟨.waker, [], [t]⟩))
    (out : ∀ l, σ.Has (some l) → w ∉ D.content (some l)) :
    Seated σ place D (Function.update S w o) := by
  have ne {a : Address} {s : Shape} (ha : S a = some s) (hs : ∀ t, s ≠ .plain ⟨.waker, [], [t]⟩) :
    a ≠ w := by
    rintro rfl
    rcases spent with e | ⟨t, e⟩
    · simp [e] at ha
    · exact hs t (Option.some_inj.1 (ha.symm.trans e))
  refine seated.congr (Function.update_of_ne (ne seated.scheduler.choose_spec (by simp)) ..)
    (fun t ht => Function.update_of_ne (ne (seated.thread t ht).choose_spec.choose_spec (by simp))
    ..)
    (fun h => Function.update_of_ne (ne (seated.lock h) fun t => ?_) ..)
    (fun q hq => Function.update_of_ne (ne (seated.queue q hq) (by simp)) ..)
    fun hl hw => Function.update_of_ne (by rintro rfl; exact out _ hl hw) ..
  simp [(LockKind.tag_ne (seated.kind h)).2.2]

/-- A counter is set. -/
theorem count (hl : (k, l) ∈ σ.locks) (c : Int64) : Seated σ place (D.count l c)
    (Function.update S l (some (.plain ⟨k.tag, [c.toUInt64], [place (some l)]⟩))) := by
  have here := seated.lock hl
  obtain ⟨ns, nt, nw⟩ := LockKind.tag_ne (seated.kind hl)
  refine ⟨seated.kind, seated.scheduler.imp fun _ h =>
    stored_update h (Store.ne h here (by simp [ns.symm])),
    fun t ht => (seated.thread t ht).imp fun _ => Exists.imp fun _ h =>
      stored_update h (Store.ne h here (by simp [nt.symm])), fun {k' l'} h => ?_,
    fun q hq => stored_update (seated.queue q hq) (Store.ne (seated.queue q hq) here (by simp)),
    seated.apart,
    fun hl hx => (seated.waker hl hx).imp_left fun h =>
    stored_update h (Store.ne h here (by simp [nw.symm])),
    seated.nodup, seated.alone⟩
  by_cases e : l' = l
  · subst e
    have same : k.tag = k'.tag := by simpa [here] using seated.lock h
    simp [Desk.count, same]
  · simpa [Desk.count, e] using seated.lock h

/-- A queue gets other values, which are wakers of its own if it is the queue of a lock. -/
theorem put {X : Desk} (hq : σ.Has q) (counter : X.counter = D.counter)
    (same : ∀ r, r ≠ q → X.content r = D.content r)
    (waker : ∀ {l x}, σ.Has (some l) → x ∈ X.waiting l →
      S x.1 = some (.plain ⟨.waker, [], [x.2]⟩) ∧ x.2 ∈ σ.threads)
    (nodup : ∀ {l}, σ.Has (some l) → (X.content (some l)).Nodup)
    (alone : ∀ {l m w}, σ.Has (some l) → σ.Has (some m) → w ∈ X.content (some l) →
      w ∈ X.content (some m) → l = m) :
    Seated σ place X (Function.update S (place q) (some (.queue (X.content q)))) := by
  have plain {a : Address} {B : Body} (ha : S a = some (.plain B)) :
      Function.update S (place q) (some (.queue (X.content q))) a = some (.plain B) :=
    stored_update ha (Store.ne ha (seated.queue q hq) (by simp))
  refine ⟨seated.kind, seated.scheduler.imp fun _ => plain, fun t ht =>
    (seated.thread t ht).imp fun _ =>
    Exists.imp fun _ => plain, fun h => plain (counter ▸ seated.lock h), fun r hr =>
    ?_, seated.apart,
    fun hl hx => (waker hl hx).imp_left plain, nodup, alone⟩
  by_cases e : r = q
  · rw [e, Function.update_self]
  · rw [same r e]
    exact stored_update (seated.queue r hr) fun h => e (seated.apart r q hr hq h)

/-- A thread goes to the back of the run queue. -/
theorem grant : Seated σ place (D.grant t)
    (Function.update S (place none) (some (.queue (D.runnable ++ [t])))) :=
  seated.put (q := none) (X := D.grant t) trivial rfl
    (fun r hr => by cases r with | none => exact absurd rfl hr | some => rfl)
    seated.waker seated.nodup seated.alone

/-- The first thread leaves the run queue. -/
theorem next : Seated σ place D.next
    (Function.update S (place none) (some (.queue D.runnable.tail))) :=
  seated.put (q := none) (X := D.next) trivial rfl
    (fun r hr => by cases r with | none => exact absurd rfl hr | some => rfl)
    seated.waker seated.nodup seated.alone

/-- A thread waits behind a new waker. -/
theorem park (hl : σ.Has (some l)) (new : S w = none) (ht : t ∈ σ.threads) :
    Seated σ place (D.park l w t)
    (Function.update (Function.update S w (some (.plain ⟨.waker, [], [t]⟩)))
      (place (some l)) (some (.queue (D.content (some l) ++ [w])))) := by
  have out : ∀ m, σ.Has (some m) → w ∉ D.content (some m) := fun m hm hw => by
    obtain ⟨t, -, -, here⟩ := seated.waker_of_mem hm hw
    simp [new] at here
  have stored := seated.aside (o := some (.plain ⟨.waker, [], [t]⟩)) (.inl new) out
  have content : (D.park l w t).content (some l) = D.content (some l) ++ [w] := by
    simp [Desk.content, Desk.park]
  have other : ∀ {m}, m ≠ l → (D.park l w t).waiting m = D.waiting m := fun ne =>
    Function.update_of_ne ne ..
  have known : ∀ {m v}, σ.Has (some m) → v ∈ (D.park l w t).content (some m) →
      (v ∈ D.content (some m) ∧ v ≠ w) ∨ (m = l ∧ v = w) := fun {m v} hm hv => by
    by_cases e : m = l
    · subst e
      rw [content] at hv
      refine (List.mem_append.1 hv).imp (fun h => ⟨h, ?_⟩) fun h => ⟨rfl, List.mem_singleton.1 h⟩
      rintro rfl
      exact out m hm h
    · have old : v ∈ D.content (some m) := by simpa [Desk.content, other e] using hv
      exact .inl ⟨old, fun e => out m hm (e ▸ old)⟩
  rw [← content]
  refine stored.put hl rfl (fun r hr => ?_) (fun {m x} hm hx => ?_) (fun {m} hm => ?_)
    fun {m m' v} hm hm' hv hv' => ?_
  · cases r with
    | none => rfl
    | some m => simp [Desk.content, other (fun e => hr (congrArg some e))]
  · by_cases e : m = l
    · subst e
      have hx : x ∈ D.waiting m ++ [(w, t)] := by simpa [Desk.park] using hx
      rcases List.mem_append.1 hx with hx | hx
      · exact stored.waker hm hx
      · obtain rfl := List.mem_singleton.1 hx
        exact ⟨Function.update_self .., ht⟩
    · rw [other e] at hx
      exact stored.waker hm hx
  · by_cases e : m = l
    · subst e
      rw [content]
      exact (seated.nodup hm).append (List.nodup_singleton w) (List.disjoint_singleton.2 (out m hm))
    · simpa [Desk.content, other e] using seated.nodup hm
  · rcases known hm hv with ⟨hv, ne⟩ | ⟨e, ev⟩ <;> rcases known hm' hv' with ⟨hv', ne'⟩ | ⟨e', ev'⟩
    · exact seated.alone hm hm' hv hv'
    · exact absurd ev' ne
    · exact absurd ev ne'
    · exact e.trans e'.symm

/-- The first waiting thread leaves the queue, and its waker is in no queue any more. -/
theorem serve (hl : σ.Has (some l)) : Seated σ place (D.serve l)
    (Function.update S (place (some l)) (some (.queue (D.content (some l)).tail))) ∧
    ∀ {x rest}, D.waiting l = x :: rest → ∀ m, σ.Has (some m) →
    x.1 ∉ (D.serve l).content (some m) := by
  have content : (D.serve l).content (some l) = (D.content (some l)).tail := by
    simp [Desk.content, Desk.serve]
  have other : ∀ {m}, m ≠ l → (D.serve l).waiting m = D.waiting m := fun ne =>
    Function.update_of_ne ne ..
  have less : ∀ m, (D.serve l).waiting m ⊆ D.waiting m := fun m => by
    by_cases e : m = l
    · subst e
      simpa [Desk.serve] using List.tail_subset _
    · rw [other e]
      exact List.Subset.refl _
  have fewer : ∀ {m v}, v ∈ (D.serve l).content (some m) → v ∈ D.content (some m) := fun hv =>
    List.map_subset _ (less _) hv
  constructor
  · rw [← content]
    refine seated.put hl rfl (fun r hr => ?_) (fun hm hx => seated.waker hm (less _ hx))
      (fun {m} hm => ?_)
      fun hm hm' hv hv' => seated.alone hm hm' (fewer hv) (fewer hv')
    · cases r with
      | none => rfl
      | some m => simp [Desk.content, other (fun e => hr (congrArg some e))]
    · by_cases e : m = l
      · subst e
        rw [content]
        exact (seated.nodup hm).tail
      · simpa [Desk.content, other e] using seated.nodup hm
  · intro x rest e m hm hw
    have mine : x.1 ∈ D.content (some l) := by simp [Desk.content, e]
    obtain rfl : m = l := seated.alone hm hl (fewer hw) mine
    have nodup := seated.nodup hm
    rw [content] at hw
    rw [Desk.content, e, List.map_cons, List.nodup_cons] at nodup
    exact nodup.1 (by simpa [Desk.content, e] using hw)

/-- More is stored. -/
theorem mono (more : ∀ a s, S a = some s → S' a = some s) : Seated σ place D S' where
  kind := seated.kind
  scheduler := seated.scheduler.imp fun _ => more _ _
  thread t ht := (seated.thread t ht).imp fun _ => Exists.imp fun _ => more _ _
  lock h := more _ _ (seated.lock h)
  queue q hq := more _ _ (seated.queue q hq)
  apart := seated.apart
  waker hl hx := (seated.waker hl hx).imp_left (more _ _)
  nodup := seated.nodup
  alone := seated.alone

/-- A new lock with a new queue. -/
theorem joinLock {a : Address} {c : Int64} (known : k ∈ LockKind.all) (new : S l = none)
    (fresh : S a = none)
    (ne : l ≠ a) : Seated { σ with locks := (k, l) :: σ.locks } (Function.update place (some l) a)
    (D.addLock l c)
      (Function.update (Function.update S a (some (.queue []))) l
        (some (.plain ⟨k.tag, [c.toUInt64], [a]⟩))) := by
  have more : Seated σ place D (Function.update (Function.update S a (some (.queue []))) l
      (some (.plain ⟨k.tag, [c.toUInt64], [a]⟩))) := seated.mono fun b s hb => by
    rw [Function.update_of_ne, Function.update_of_ne, hb]
    · rintro rfl
      simp [fresh] at hb
    · rintro rfl
      simp [new] at hb
  have outer : ∀ {m}, σ.Has (some m) → m ≠ l := by
    rintro m ⟨k', hm⟩ rfl
    simp [seated.lock hm] at new
  have others : ∀ {r}, σ.Has r → place r ≠ a := fun {r} hr e => by
    rw [← e, seated.queue r hr] at fresh
    cases fresh
  have has : ∀ {r}, Lobby.Has { σ with locks := (k, l) :: σ.locks } r → r = some l ∨ σ.Has r ∧
    r ≠ some l := by
    rintro (_ | m) hr
    · exact .inr ⟨trivial, by simp⟩
    · obtain ⟨k', hm⟩ := hr
      rcases List.mem_cons.1 hm with e | hm
      · cases e
        exact .inl rfl
      · exact .inr ⟨⟨k', hm⟩, fun e => outer ⟨k', hm⟩ (Option.some_inj.1 e)⟩
  have content : ∀ {r}, σ.Has r → (D.addLock l c).content r = D.content r := by
    rintro (_ | m) hr
    · rfl
    · simp [Desk.content, Desk.addLock, Function.update_of_ne (outer hr)]
  have blank : (D.addLock l c).content (some l) = [] := by simp [Desk.content, Desk.addLock]
  have waits : ∀ {m x}, Lobby.Has { σ with locks := (k, l) :: σ.locks } (some m) →
      x ∈ (D.addLock l c).waiting m → σ.Has (some m) ∧ x ∈ D.waiting m := fun {m x} hm hx => by
    rcases has hm with e | ⟨hm, -⟩
    · cases e
      simp [Desk.addLock] at hx
    · exact ⟨hm, by simpa [Desk.addLock, outer hm] using hx⟩
  have mem : ∀ {m v}, Lobby.Has { σ with locks := (k, l) :: σ.locks } (some m) →
      v ∈ (D.addLock l c).content (some m) → σ.Has (some m) ∧ v ∈ D.content (some m) :=
      fun {m v} hm hv => by
    obtain ⟨x, hx, rfl⟩ := List.mem_map.1 hv
    exact (waits hm hx).imp_right List.mem_map_of_mem
  refine ⟨fun {k' m} hm => ?_, ?_, more.thread, fun {k' m} hm => ?_, fun r hr =>
    ?_, fun r r' hr hr' e => ?_,
    fun hm hx => more.waker (waits hm hx).1 (waits hm hx).2, fun {m} hm => ?_, fun hm hm' hw hw' =>
    seated.alone (mem hm hw).1 (mem hm' hw').1 (mem hm hw).2 (mem hm' hw').2⟩
  · rcases List.mem_cons.1 hm with e | hm
    · cases e
      exact known
    · exact seated.kind hm
  · simpa using more.scheduler
  · rcases List.mem_cons.1 hm with e | hm
    · cases e
      simp [Desk.addLock]
    · have ne := outer ⟨k', hm⟩
      simpa [Desk.addLock, ne] using more.lock hm
  · rcases has hr with rfl | ⟨hr, ne'⟩
    · rw [blank, Function.update_self]
      exact stored_update (Function.update_self ..) ne.symm
    · rw [content hr, Function.update_of_ne ne']
      exact more.queue r hr
  · rcases has hr with rfl | ⟨hr, ne'⟩ <;> rcases has hr' with rfl | ⟨hr', ne''⟩
    · rfl
    · rw [Function.update_self, Function.update_of_ne ne''] at e
      exact absurd e.symm (others hr')
    · rw [Function.update_self, Function.update_of_ne ne'] at e
      exact absurd e (others hr)
    · rw [Function.update_of_ne ne', Function.update_of_ne ne''] at e
      exact seated.apart r r' hr hr' e
  · rcases has hm with e | ⟨hm, -⟩
    · cases e
      rw [blank]
      exact List.nodup_nil
    · rw [content hm]
      exact seated.nodup hm

end

end Seated
end GoMachine
