import GoMachine.Proofs.Exchange.Shown
import GoMachine.Proofs.Locking.Moves
/-!
# Contention

In a contest threads come together on a heap and call the operations of locks, in any order, while
the scheduler takes threads off the run queue and others put threads on it. A `Contest` is the heap
with those who take part, `Contest.Step` is one act of theirs and `Contention k L` says that they
have come to `k` with the tally `L m` of each mutex `m`: who called `lock`, who was put on the run
queue by the mutex, and how often it was unlocked.

* `LockCall.does`: a call does to the desk what its name says, or memory runs out.
* `LockCall.Does.fair`, `LockCall.Does.once`: what each call keeps.
* `Hosts.joinThread`, `Hosts.joinLock`: how those who take part come together.
-/
namespace GoMachine

open Heap (Owns Stores)

/-- A call of an operation, or something else that happens to the run queue. -/
inductive LockCall where
  | lock (m t : Address)
  | unlock (m : Address)
  | acquire (sem t : Address)
  | release (sem : Address)
  | add (wg : Address) (delta : Int64)
  | wait (wg t : Address)
  /-- A thread is made runnable. -/
  | enqueue (t : Address)
  /-- The next thread is taken off the run queue. -/
  | next
  deriving DecidableEq

namespace LockCall

/-- Runs a call; the result tells whether the operation went through. -/
def run (σ : Lobby) : LockCall → Action Bool
  | lock m t => Mutex.lock m t σ.scheduler
  | unlock m => do
    Mutex.unlock m σ.scheduler
    return true
  | acquire sem t => Semaphore.acquire sem t σ.scheduler
  | release sem => do
    Semaphore.release sem σ.scheduler
    return true
  | add wg delta => do
    WaitGroup.add wg delta σ.scheduler
    return true
  | wait wg t => WaitGroup.wait wg t σ.scheduler
  | enqueue t => do
    Scheduler.enqueue σ.scheduler t
    return true
  | next => do
    HeapM.free (← Scheduler.dequeue σ.scheduler)
    return true

/-- The lock of a call. -/
def target : LockCall → Option (LockKind × Address)
  | lock m _ | unlock m => some (.mutex, m)
  | acquire sem _ | release sem => some (.semaphore, sem)
  | add wg _ | wait wg _ => some (.waitGroup, wg)
  | enqueue _ | next => none

/-- The thread that calls, where it matters who it is, or that is made runnable. -/
def caller : LockCall → Option Address
  | lock _ t | acquire _ t | wait _ t | enqueue t => some t
  | unlock _ | release _ | add .. | next => none

/-- The lock and the thread of a call are in the lobby, and the thread does not wait for any lock.
-/
def Among (σ : Lobby) (h : Heap) (c : LockCall) : Prop :=
  (∀ x ∈ c.target, x ∈ σ.locks) ∧
    ∀ t ∈ c.caller, t ∈ σ.threads ∧ ∀ x ∈ σ.locks, t ∉ (x.1.waiting x.2).orDefault h

end LockCall

/-- A heap with those who take part in a contest, and the references that are owned. -/
structure Contest where
  owned : Multiset Address
  lobby : Lobby
  heap : Heap

namespace Contest

/-- What can happen in a contest. -/
inductive Act where
  | thread (id : UInt64) (frame structs : Address)
  | lock (k : LockKind) (initial : Int64)
  | call (c : LockCall)
  deriving DecidableEq

/-- The run queue. -/
def runnable (k : Contest) : List Address := (Scheduler.threads k.lobby.scheduler).orDefault k.heap

/-- The threads that an act has put on the run queue. -/
def gained (k k' : Contest) : List Address := k'.runnable.drop k.runnable.length

/-- One act, with how it ended. A mutex starts unlocked, and memory does not run out. -/
inductive Step (k : Contest) : Act → Except Fault Bool → Contest → Prop where
  | thread {id : UInt64} {frame structs t : Address} {h : Heap}
    (run : Thread.create id frame structs k.heap = .ok t h) :
    Step k (.thread id frame structs) (.ok true)
      ⟨t ::ₘ k.owned, { k.lobby with threads := t :: k.lobby.threads }, h⟩
  | lock {kind : LockKind} {initial : Int64} {l : Address} {h : Heap} (known : kind ∈ LockKind.all)
    (start : kind = .mutex → initial = 0) (run : kind.create initial k.heap = .ok l h) :
    Step k (.lock kind initial) (.ok true)
      ⟨l ::ₘ k.owned, { k.lobby with locks := (kind, l) :: k.lobby.locks }, h⟩
  | done {c : LockCall} {b : Bool} {h : Heap} (among : c.Among k.lobby k.heap)
    (run : c.run k.lobby k.heap = .ok b h) : Step k (.call c) (.ok b) { k with heap := h }
  | failed {c : LockCall} {e : Fault} {h : Heap} (among : c.Among k.lobby k.heap)
    (run : c.run k.lobby k.heap = .error e h) (enough : e.isShortage = false) :
    Step k (.call c) (.error e) { k with heap := h }

end Contest

/-- What has happened to a mutex: who called `lock`, who was put on the run queue, in order, and how
often it was unlocked. -/
structure Tally where
  calls : List Address
  grants : List Address
  unlocks : Nat
  deriving DecidableEq

namespace Tally

def empty : Tally := ⟨[], [], 0⟩

/-- What an act adds to the tally of a mutex, by what the run queue has gained. -/
def record (L : Tally) (m : Address) (gained : List Address) : Contest.Act → Except Fault Bool →
    Tally
  | .call (.lock m' t), .ok _ =>
    if m' = m then { L with calls := L.calls ++ [t], grants := L.grants ++ gained } else L
  | .call (.unlock m'), .ok _ =>
    if m' = m then { L with grants := L.grants ++ gained, unlocks := L.unlocks + 1 } else L
  | _, _ => L

end Tally

/-- A contest starts with a scheduler on a heap of which some references are owned. -/
inductive Contention : Contest → (Address → Tally) → Prop where
  | opening {O : Multiset Address} {h h' : Heap} {s : Address} (own : Owns 0 8 O h)
    (run : Scheduler.create h = .ok s h') : Contention ⟨s ::ₘ O, ⟨s, [], []⟩, h'⟩ fun _ => .empty
  | step {k k' : Contest} {L : Address → Tally} {a : Contest.Act} {r : Except Fault Bool}
    (before : Contention k L) (step : k.Step a r k') :
    Contention k' fun m => (L m).record m (k.gained k') a r

variable {σ : Lobby} {place : Option Address → Address} {D D' : Desk} {O : Multiset Address}
    {n : Nat}
  {h h' : Heap} {l m t w : Address} {c : LockCall} {r : Except Fault Bool} {k k' : Contest}
  {a : Contest.Act} {L : Address → Tally}

/-! ## What calls do -/

/-- What happens to the desk at one lock. -/
inductive Desk.Shift (D : Desk) (l : Address) (caller : Option Address) : Desk → Prop where
  | stays : Shift D l caller D
  | counts (c : Int64) : Shift D l caller (D.count l c)
  | grants {t : Address} (c : Int64) (mine : caller = some t) :
      Shift D l caller ((D.count l c).grant t)
  | parks {w t : Address} (c : Int64) (mine : caller = some t) :
      Shift D l caller ((D.count l c).park l w t)
  | serves {x : Address × Address} {rest : List (Address × Address)} (c : Int64)
    (waits : D.waiting l = x :: rest) : Shift D l caller (((D.count l c).serve l).grant x.2)
  | flushes (c : Int64) : Shift D l caller ((D.count l c).serveAll l)

/-- What a call on a semaphore or a wait group does to the desk, by how it ends. -/
inductive LockCall.Counts (D : Desk) : LockCall → Except Fault Bool → Desk → Prop where
  | admits {sem t : Address} (free : 0 ≤ D.counter sem - 1) :
    Counts D (.acquire sem t) (.ok true) ((D.count sem (D.counter sem - 1)).grant t)
  | queues {sem t w : Address} (owed : ¬0 ≤ D.counter sem - 1) :
    Counts D (.acquire sem t) (.ok false) ((D.count sem (D.counter sem - 1)).park sem w t)
  | returns {sem : Address} (free : ¬D.counter sem + 1 ≤ 0) :
    Counts D (.release sem) (.ok true) (D.count sem (D.counter sem + 1))
  | passes {sem : Address} {x : Address × Address} {rest : List (Address × Address)}
    (owed : D.counter sem + 1 ≤ 0) (waits : D.waiting sem = x :: rest) :
    Counts D (.release sem) (.ok true) (((D.count sem (D.counter sem + 1)).serve sem).grant x.2)
  | unaccounted {sem : Address} (owed : D.counter sem + 1 ≤ 0) (idle : D.waiting sem = []) :
    Counts D (.release sem) (.error .semaphoreAccounting) (D.count sem (D.counter sem + 1))
  | negative {wg : Address} {delta : Int64} (negative : D.counter wg + delta < 0) :
    Counts D (.add wg delta) (.error .negativeWaitGroup) D
  | adds {wg : Address} {delta : Int64} (positive : ¬D.counter wg + delta < 0)
    (owing : D.counter wg + delta ≠ 0) :
    Counts D (.add wg delta) (.ok true) (D.count wg (D.counter wg + delta))
  | opens {wg : Address} {delta : Int64} (zero : D.counter wg + delta = 0) :
    Counts D (.add wg delta) (.ok true) ((D.count wg 0).serveAll wg)
  | goesOn {wg t : Address} (zero : D.counter wg = 0) : Counts D (.wait wg t) (.ok true) (D.grant t)
  | stays {wg t w : Address} (owing : D.counter wg ≠ 0) :
      Counts D (.wait wg t) (.ok false) (D.park wg w t)

/-- What a call does to the desk, by how it ends. -/
inductive LockCall.Does (D : Desk) : LockCall → Except Fault Bool → Desk → Prop where
  | takes {m t : Address} (free : D.counter m = 0) :
      Does D (.lock m t) (.ok true) ((D.count m 1).grant t)
  | waits {m t w : Address} (held : D.counter m ≠ 0) : Does D (.lock m t) (.ok false) (D.park m w t)
  | refused {m : Address} (free : D.counter m = 0) : Does D (.unlock m) (.error .unlockOfUnlocked) D
  | leaves {m : Address} (held : D.counter m ≠ 0) (idle : D.waiting m = []) :
    Does D (.unlock m) (.ok true) (D.count m 0)
  | hands {m : Address} {x : Address × Address} {rest : List (Address × Address)}
      (held : D.counter m ≠ 0)
    (waits : D.waiting m = x :: rest) : Does D (.unlock m) (.ok true) ((D.serve m).grant x.2)
  | other {c : LockCall} {kind : LockKind} {l : Address} {r : Except Fault Bool} {D' : Desk}
    (on : c.target = some (kind, l)) (other : kind ≠ .mutex) (counts : c.Counts D r D') :
    Does D c r D'
  | enqueued {t : Address} : Does D (.enqueue t) (.ok true) (D.grant t)
  | taken : Does D .next (.ok true) D.next

theorem Desk.count_self : D.count l (D.counter l) = D := by simp [count]

/-- A shift at the lock of the call. -/
theorem LockCall.Counts.shift {kind : LockKind} (counts : c.Counts D r D')
    (on : c.target = some (kind, l)) :
    D.Shift l c.caller D' := by
  cases counts <;> cases on
  case admits => exact .grants _ rfl
  case queues => exact .parks _ rfl
  case returns => exact .counts _
  case passes _ waits => exact .serves _ waits
  case unaccounted => exact .counts _
  case negative => exact .stays
  case adds => exact .counts _
  case opens => exact .flushes _
  case goesOn t _ =>
    have shift : D.Shift l (some t) _ := .grants (t := t) (D.counter l) rfl
    rwa [Desk.count_self] at shift
  case stays t w _ =>
    have shift : D.Shift l (some t) _ := .parks (w := w) (t := t) (D.counter l) rfl
    rwa [Desk.count_self] at shift

/-- The lock and the thread of a call are in the lobby. -/
def LockCall.Present (σ : Lobby) (c : LockCall) : Prop :=
  (∀ x ∈ c.target, x ∈ σ.locks) ∧ ∀ t ∈ c.caller, t ∈ σ.threads

theorem LockCall.Among.present (among : c.Among σ h) : c.Present σ :=
  ⟨among.1, fun t ht => (among.2 t ht).1⟩

/-- A call ends well or fails, and the desk is as its outcome says, unless memory has run out. -/
theorem LockCall.does (hosts : Hosts σ place D (n + 8) O h) (present : c.Present σ) :
    Ends (fun e h' => Heap.Short 0 O e h' ∨ ∃ D', Hosts σ place D' (n + 8) O h' ∧
    c.Does D (.error e) D')
      (c.run σ) h fun b h' => ∃ D', Hosts σ place D' (n + 8) O h' ∧ c.Does D (.ok b) D' := by
  obtain ⟨target, caller⟩ := present
  have room := hosts.spare
  cases c with
  | lock m t =>
    have hl := target (.mutex, m) rfl
    have ht := caller t rfl
    refine ((hosts.lock hl ht).weaken fun _ _ => .inl).mono fun b h' did => ?_
    rcases did with ⟨free, rfl, hosts⟩ | ⟨held, rfl, w, hosts⟩
    · exact ⟨_, hosts, .takes free⟩
    · exact ⟨_, hosts, .waits held⟩
  | unlock m =>
    have hl := target (.mutex, m) rfl
    rcases hosts.unlock hl with ⟨free, refused⟩ | ⟨held, done⟩
    · exact .inr ⟨_, h, bind_error refused, .inr ⟨D, hosts, .refused free⟩⟩
    · refine (done.weaken fun _ _ => .inl).bind fun _ h' did => .pure ?_
      rcases did with ⟨idle, hosts⟩ | ⟨x, rest, waits, hosts⟩
      · exact ⟨_, hosts, .leaves held idle⟩
      · exact ⟨_, hosts, .hands held waits⟩
  | acquire sem t =>
    refine ((hosts.acquire (target (.semaphore, sem) rfl) (caller t rfl)).weaken fun _ _ =>
      .inl).mono
      fun b h' did => ?_
    rcases did with ⟨free, rfl, hosts⟩ | ⟨owed, rfl, w, hosts⟩
    · exact ⟨_, hosts, .other rfl (by decide) (.admits free)⟩
    · exact ⟨_, hosts, .other rfl (by decide) (.queues owed)⟩
  | release sem =>
    refine ((hosts.release (target (.semaphore, sem) rfl)).weaken fun e h' failed => ?_).bind
      fun _ h' did => .pure ?_
    · rcases failed with short | ⟨rfl, owed, idle, hosts⟩
      · exact .inl short
      · exact .inr ⟨_, hosts, .other rfl (by decide) (.unaccounted owed idle)⟩
    · rcases did with ⟨free, hosts⟩ | ⟨owed, x, rest, waits, hosts⟩
      · exact ⟨_, hosts, .other rfl (by decide) (.returns free)⟩
      · exact ⟨_, hosts, .other rfl (by decide) (.passes owed waits)⟩
  | add wg delta =>
    rcases hosts.add (target (.waitGroup, wg) rfl) delta with ⟨negative, refused⟩ | ⟨positive, done⟩
    · exact .inr ⟨_, h, bind_error refused,
        .inr ⟨D, hosts, .other rfl (by decide) (.negative negative)⟩⟩
    · refine (done.weaken fun _ _ => .inl).bind fun _ h' did => .pure ?_
      rcases did with ⟨owing, hosts⟩ | ⟨zero, hosts⟩
      · exact ⟨_, hosts, .other rfl (by decide) (.adds positive owing)⟩
      · exact ⟨_, hosts, .other rfl (by decide) (.opens zero)⟩
  | wait wg t =>
    refine ((hosts.wait (target (.waitGroup, wg) rfl) (caller t rfl)).weaken fun _ _ => .inl).mono
      fun b h' did => ?_
    rcases did with ⟨zero, rfl, hosts⟩ | ⟨owing, rfl, w, hosts⟩
    · exact ⟨_, hosts, .other rfl (by decide) (.goesOn zero)⟩
    · exact ⟨_, hosts, .other rfl (by decide) (.stays owing)⟩
  | enqueue t =>
    refine ((hosts.enqueue (n := n + 6) (caller t rfl)).weaken fun _ _ => .inl).bind
      fun _ h' hosts => .pure ?_
    exact ⟨_, hosts, .enqueued⟩
  | next =>
    have own := hosts.choose_spec.2.2
    refine (hosts.next (n := n + 4)).before fun t h₁ ⟨_, hosts⟩ => ?_
    refine (hosts.free own).heap.before fun _ h₂ hosts => .pure ⟨_, hosts.tighten room, .taken⟩

/-! ## What is true in each contest -/

/-- Nobody waits twice. -/
def Desk.Once (σ : Lobby) (D : Desk) : Prop :=
  ∀ {l m x y}, σ.Has (some l) → σ.Has (some m) → x ∈ D.waiting l → y ∈ D.waiting m → x.2 = y.2 →
  l = m ∧ x = y

/-- The thread waits for no lock. -/
def Desk.Free (σ : Lobby) (D : Desk) (t : Address) : Prop :=
  ∀ {l x}, σ.Has (some l) → x ∈ D.waiting l → x.2 ≠ t

/-- The mutex is held or not, and its tally is as it should be. -/
structure Desk.Fair (D : Desk) (m : Address) (L : Tally) : Prop where
  calls : L.calls = L.grants ++ (D.waiting m).map Prod.snd
  held : L.grants.length = L.unlocks + (D.counter m != 0).toNat
  guarded : D.waiting m ≠ [] → D.counter m ≠ 0

theorem LockCall.Among.free (among : c.Among σ h) (hosts : Hosts σ place D n O h)
    (ht : c.caller = some t) :
    D.Free σ t := by
  rintro l x ⟨kind, hl⟩ hx rfl
  refine (among.2 _ ht).2 _ hl ?_
  simp only [Query.orDefault, hosts.waiting hl]
  exact List.mem_map_of_mem hx

namespace Desk

variable {caller : Option Address}

/-- Elsewhere a shift changes nothing. -/
theorem Shift.elsewhere (shift : D.Shift l caller D') (ne : m ≠ l) :
    D'.counter m = D.counter m ∧ D'.waiting m = D.waiting m := by
  cases shift <;> simp [count, grant, park, serve, serveAll, ne]

/-- Those who are made runnable: the thread that calls or those who waited. -/
theorem Shift.gains (shift : D.Shift l caller D') : ∃ g, D'.runnable = D.runnable ++ g ∧
    ∀ t ∈ g, caller = some t ∨ ∃ x ∈ D.waiting l, x.2 = t := by
  cases shift with
  | stays => exact ⟨[], by simp⟩
  | counts => exact ⟨[], by simp [count]⟩
  | grants c mine => exact ⟨[_], rfl, fun u hu => .inl (List.mem_singleton.1 hu ▸ mine)⟩
  | parks => exact ⟨[], by simp [count, park]⟩
  | serves c waits =>
    exact ⟨[_], rfl, fun u hu =>
      .inr ⟨_, waits ▸ List.mem_cons_self, (List.mem_singleton.1 hu).symm⟩⟩
  | flushes c => exact ⟨_, rfl, fun u hu => .inr (by simpa [count] using hu)⟩

/-- Those who wait: some of those who waited, and the thread that calls behind a new waker. -/
theorem Shift.waits (shift : D.Shift l caller D') : D'.waiting l ⊆ D.waiting l ∨
    ∃ w t, caller = some t ∧ D'.waiting l = D.waiting l ++ [(w, t)] := by
  cases shift with
  | stays => exact .inl (List.Subset.refl _)
  | counts => exact .inl (List.Subset.refl _)
  | grants => exact .inl (List.Subset.refl _)
  | @parks w t c mine => exact .inr ⟨w, t, mine, by simp [count, park]⟩
  | serves => exact .inl (by simpa [count, serve, grant] using List.tail_subset _)
  | flushes => exact .inl (by simp [count, serveAll])

/-- Nobody waits twice after a shift, if the thread that calls did not wait. -/
theorem Shift.once (shift : D.Shift l caller D') (once : D.Once σ) (free : ∀ t, caller = some t →
    D.Free σ t) :
    D'.Once σ := by
  -- what stands in a queue stood there before, or it is the thread that calls
  have old : ∀ {m x}, σ.Has (some m) → x ∈ D'.waiting m → x ∈ D.waiting m ∨
      m = l ∧ ∃ w t, caller = some t ∧ x = (w, t) ∧ D'.waiting l = D.waiting l ++ [(w, t)] :=
      fun {m x} hm hx => by
    by_cases e : m = l
    · subst e
      rcases shift.waits with less | ⟨w, t, mine, more⟩
      · exact .inl (less hx)
      · rw [more] at hx
        exact (List.mem_append.1 hx).imp_right fun hx =>
          ⟨rfl, w, t, mine, List.mem_singleton.1 hx, more⟩
    · exact .inl ((shift.elsewhere e).2 ▸ hx)
  intro l₁ l₂ x y h₁ h₂ hx hy e
  rcases old h₁ hx with hx | ⟨rfl, w, t, mine, rfl, more⟩ <;>
    rcases old h₂ hy with hy | ⟨rfl, w', t', mine', rfl, more'⟩
  · exact once h₁ h₂ hx hy e
  · exact absurd e (free _ mine' h₁ hx)
  · exact absurd e.symm (free _ mine h₂ hy)
  · refine ⟨rfl, ?_⟩
    simpa using more.symm.trans more'

/-- Nobody waits for a new lock. -/
theorem Once.addLock {kind : LockKind} {initial : Int64} (once : D.Once σ) :
    (D.addLock l initial).Once { σ with locks := (kind, l) :: σ.locks } := by
  have outer : ∀ {m x}, Lobby.Has { σ with locks := (kind, l) :: σ.locks } (some m) →
      x ∈ (D.addLock l initial).waiting m → σ.Has (some m) ∧ x ∈ D.waiting m := by
    rintro m x ⟨kind', hm⟩ hx
    by_cases e : m = l
    · subst e
      simp [Desk.addLock] at hx
    · refine ⟨⟨kind', (List.mem_cons.1 hm).resolve_left fun h => e (congrArg Prod.snd h)⟩, ?_⟩
      simpa [Desk.addLock, e] using hx
  intro l' m' x y hl hm hx hy e
  exact once (outer hl hx).1 (outer hm hy).1 (outer hl hx).2 (outer hm hy).2 e

theorem Fair.congr {L : Tally} (fair : D.Fair m L) (counter : D'.counter m = D.counter m)
    (waiting : D'.waiting m = D.waiting m) : D'.Fair m L :=
  ⟨by rw [waiting]; exact fair.calls, by rw [counter]; exact fair.held, by
    rw [waiting, counter]; exact fair.guarded⟩

end Desk

namespace LockCall.Does

variable (did : c.Does D r D')

include did

/-- A call changes the desk at its lock. -/
theorem shift : (∃ kind l, c.target = some (kind, l) ∧ D.Shift l c.caller D') ∨
    (∃ t, c = .enqueue t ∧ D' = D.grant t) ∨ c = .next ∧ D' = D.next := by
  cases did with
  | takes free => exact .inl ⟨_, _, rfl, .grants 1 rfl⟩
  | @waits m t w held =>
    have shift : D.Shift m (some t) _ := .parks (w := w) (t := t) (D.counter m) rfl
    rw [Desk.count_self] at shift
    exact .inl ⟨_, _, rfl, shift⟩
  | refused free => exact .inl ⟨_, _, rfl, .stays⟩
  | leaves held idle => exact .inl ⟨_, _, rfl, .counts 0⟩
  | @hands m x rest held waits =>
    have shift : D.Shift m none _ := .serves (D.counter m) waits
    rw [Desk.count_self] at shift
    exact .inl ⟨_, _, rfl, shift⟩
  | other on _ counts => exact .inl ⟨_, _, on, counts.shift on⟩
  | enqueued => exact .inr (.inl ⟨_, rfl, rfl⟩)
  | taken => exact .inr (.inr ⟨rfl, rfl⟩)

theorem once (once : D.Once σ) (free : ∀ t, c.caller = some t → D.Free σ t) : D'.Once σ := by
  rcases did.shift with ⟨kind, l, on, shift⟩ | ⟨t, rfl, rfl⟩ | ⟨rfl, rfl⟩
  · exact shift.once once free
  · exact once
  · exact once

/-- What has been added to the run queue. -/
theorem gained {g : List Address} (e : g = D'.runnable.drop D.runnable.length) :
    ∀ t ∈ g, c.caller = some t ∨ ∃ kind l x, c.target = some (kind, l) ∧ x ∈ D.waiting l ∧
    x.2 = t := by
  rcases did.shift with ⟨kind, l, on, shift⟩ | ⟨t, rfl, rfl⟩ | ⟨rfl, rfl⟩
  · obtain ⟨g', run, known⟩ := shift.gains
    rw [run, List.drop_left] at e
    exact fun u hu => (known u (e ▸ hu)).imp_right fun ⟨x, hx, ex⟩ => ⟨kind, l, x, on, hx, ex⟩
  · rw [Desk.grant, List.drop_left] at e
    exact fun u hu => .inl (by simp [e] at hu; simp [hu, caller])
  · have emptied : g = [] := by
      rw [e]
      exact List.drop_eq_nil_of_le (by simp [Desk.next])
    simp [emptied]

/-- The tally of each mutex stays as it should be. -/
theorem fair {L : Tally} (apart : ∀ kind, c.target = some (kind, m) → kind = .mutex)
    (fair : D.Fair m L) :
    D'.Fair m (L.record m (D'.runnable.drop D.runnable.length) (.call c) r) := by
  cases did with
  | @takes m' t free =>
    by_cases e : m' = m
    · subst e
      have idle : D.waiting m' = [] := by
        by_contra waits
        exact fair.guarded waits free
      have calls := fair.calls
      have held := fair.held
      simp only [idle, List.map_nil, List.append_nil, free] at calls held
      simp only [Tally.record, if_true, Desk.grant, Desk.count, List.drop_left]
      exact ⟨by simp [calls, idle], by simpa using held, by simp⟩
    · simp only [Tally.record, e, if_false]
      exact fair.congr (by simp [Desk.grant, Desk.count, Ne.symm e]) rfl
  | @waits m' t w held =>
    by_cases e : m' = m
    · subst e
      simp only [Tally.record, if_true]
      refine ⟨by simp [fair.calls, Desk.park], by simpa [Desk.park] using fair.held, fun _ => held⟩
    · simp only [Tally.record, e, if_false]
      exact fair.congr rfl (by simp [Desk.park, Ne.symm e])
  | refused => exact fair
  | @leaves m' held idle =>
    by_cases e : m' = m
    · subst e
      have calls := fair.calls
      have granted := fair.held
      simp only [idle, List.map_nil, List.append_nil] at calls
      simp only [bne_iff_ne.2 held, Bool.toNat_true] at granted
      simp only [Tally.record, if_true]
      refine ⟨by simp [calls, Desk.count, idle], ?_, fun waits => absurd idle waits⟩
      simpa [Desk.count] using granted
    · simp only [Tally.record, e, if_false]
      exact fair.congr (by simp [Desk.count, Ne.symm e]) rfl
  | @hands m' x rest held waits =>
    by_cases e : m' = m
    · subst e
      have granted := fair.held
      simp only [Tally.record, if_true, Desk.grant, Desk.serve, List.drop_left]
      refine ⟨by simp [fair.calls, waits], ?_, fun _ => held⟩
      simp [granted, Nat.add_right_comm]
    · simp only [Tally.record, e, if_false]
      exact fair.congr rfl (by simp [Desk.grant, Desk.serve, Ne.symm e])
  | @other c kind l r D' on other counts =>
    have shift := counts.shift on
    have ne : m ≠ l := by
      rintro rfl
      exact other (apart kind on)
    have same : L.record m (D'.runnable.drop D.runnable.length) (.call c) r = L := by
      cases c <;> first | rfl | (simp [target] at on; exact absurd on.1.symm other)
    rw [same]
    exact fair.congr (shift.elsewhere ne).1 (shift.elsewhere ne).2
  | enqueued => exact fair.congr rfl rfl
  | taken => exact fair.congr rfl rfl

end LockCall.Does

/-! ## Joining -/

namespace Hosts

/-- A thread joins. -/
theorem joinThread {id : UInt64} {frame structs : Address} (hosts : Hosts σ place D (n + 1) O h) :
    Yields (Thread.create id frame structs) h fun t h' =>
      Hosts { σ with threads := t :: σ.threads } place D (n + 1) (t ::ₘ O) h' := by
  obtain ⟨S, st, seated, own⟩ := hosts
  refine (Thread.create_stores st).mono fun t h' ⟨S', _, _, _, st, more, _, here, _⟩ => ?_
  have seated := seated.mono more
  refine ⟨S', st, { seated with thread := ?_, waker := ?_ }, ?_⟩
  · exact List.forall_mem_cons.2 ⟨⟨_, _, here⟩, seated.thread⟩
  · exact fun hl hx => (seated.waker hl hx).imp_right (List.mem_cons_of_mem t)
  · exact { own.cons with threads :=
      List.forall_mem_cons.2 ⟨Multiset.mem_cons_self t O, own.cons.threads⟩ }

/-- A lock joins. -/
theorem joinLock {kind : LockKind} {initial : Int64} (known : kind ∈ LockKind.all)
    (hosts : Hosts σ place D (n + 1) O h) :
    Yields (kind.create initial) h fun l h' => (∀ kind', (kind', l) ∉ σ.locks) ∧ ∃ place',
      Hosts { σ with locks := (kind, l) :: σ.locks } place' (D.addLock l initial) (n + 1)
      (l ::ₘ O) h' := by
  obtain ⟨S, st, seated, own⟩ := hosts
  refine st.allocate.yields.bind fun l h₁ ⟨new, st⟩ => ?_
  refine (st.setField (Function.update_self ..) Nat.zero_lt_one).heap.yields.bind fun _ h₂ st => ?_
  rw [Function.update_idem] at st
  refine (Yields.orRelease (Queue.create_stores st).yields).bind fun q h₃ ⟨fresh, st⟩ => ?_
  have ne : l ≠ q := by
    rintro rfl
    simp at fresh
  rw [Function.update_of_ne ne.symm] at fresh
  refine (st.fillChild (stored_update (Function.update_self ..) ne) rfl).heap.yields.bind
    fun _ h₄ st =>
    .pure ⟨fun kind' hl => by
      simp [seated.lock hl] at new, Function.update place (some l) q, _, st, ?_, ?_⟩
  · rw [Function.update_comm ne, Function.update_idem]
    exact seated.joinLock known new fresh ne
  · refine ⟨own.cons.scheduler, own.cons.threads, fun {kind' m} hm => ?_⟩
    rcases List.mem_cons.1 hm with e | hm
    · cases e
      exact Multiset.mem_cons_self _ _
    · exact own.cons.locks hm

end Hosts

/-- A scheduler, and nobody there yet. -/
theorem Scheduler.create_hosts (own : Owns 0 n O h) : Yields Scheduler.create h fun s h' => ∃ place,
    Hosts ⟨s, [], []⟩ place ⟨fun _ => 0, fun _ => [], []⟩ n (s ::ₘ O) h' := by
  have blank : Stores 0 n O (fun _ => none) h :=
    ⟨fun _ => [], fun _ => none, ⟨nofun, nofun, by simp, nofun, nofun⟩, own, nofun, nofun⟩
  refine blank.allocate.yields.bind fun s h₁ ⟨_, st⟩ => ?_
  refine (Yields.orRelease (Queue.create_stores st).yields).bind fun q h₂ ⟨fresh, st⟩ => ?_
  have ne : s ≠ q := by
    rintro rfl
    simp at fresh
  refine (st.fillChild (stored_update (Function.update_self ..) ne) rfl).heap.yields.bind
    fun _ h₃ st =>
    .pure ⟨fun _ => q, _, st, ⟨nofun, ⟨0, Function.update_self ..⟩, nofun, nofun, ?_, ?_, ?_, ?_,
    ?_⟩, ?_⟩
  · rintro (_ | l) hq
    · simp [ne.symm, Desk.content]
    · cases hq.choose_spec
  · rintro (_ | l) (_ | m) hl hm _
    · rfl
    · cases hm.choose_spec
    · cases hl.choose_spec
    · cases hl.choose_spec
  · rintro l x ⟨k, hl⟩
    cases hl
  · rintro l ⟨k, hl⟩
    cases hl
  · rintro l m w ⟨k, hl⟩
    cases hl
  · exact ⟨Multiset.mem_cons_self .., nofun, nofun⟩

end GoMachine
