import GoMachine.Proofs.Locking.Exclusion
/-!
# What has happened to locks

A chronicle lists the locks that have joined a contest and the calls that have ended, each with its
result and the threads that it put on the run queue. `Contested polite k E` says that a contest has
come to `k` with the chronicle `E`; in a polite one no thread calls while it waits.

A `Story` is what a contest does to the desk, without the heap. What holds of each story is proved
by induction on it, once for each kind of lock.

* `Contested.story`: the desk of a contest has a story.
* `Story.once`: nobody waits twice if all are polite.
* `Contest.Goes.leaves_or_calls`, `Contest.Goes.served`: what can happen to a lock and to those who
  wait for it.
-/
namespace GoMachine

open Heap (Owns)

/-- A lock joins with its first counter, or a call ends and has put some threads on the run queue.
-/
inductive Deed where
  | joins (kind : LockKind) (initial : Int64) (l : Address)
  | calls (c : LockCall) (r : Except Fault Bool) (gained : List Address)
  deriving DecidableEq

/-- What has happened, in order. -/
abbrev Chronicle := List Deed

/-- A call on a lock, how it ended and the threads that it put on the run queue. -/
def Deed.on (l : Address) : Deed → Option (LockCall × Except Fault Bool × List Address)
  | .calls c r gained => if c.target.map Prod.snd = some l then some (c, r, gained) else none
  | .joins .. => none

/-- By how much a call of `add` changes the counter if it is accepted. -/
def LockCall.delta? : LockCall × Except Fault Bool × List Address → Option Int64
  | (.add _ delta, .ok _, _) => some delta
  | _ => none

namespace Chronicle

/-- The calls on a lock. -/
def on (E : Chronicle) (l : Address) : List (LockCall × Except Fault Bool × List Address) :=
  E.filterMap (Deed.on l)

/-- The threads that have called on a lock to get something or to wait, in order. -/
def callers (E : Chronicle) (l : Address) : List Address := (E.on l).filterMap fun x => x.1.caller

/-- The threads that calls on a lock have put on the run queue, in order. -/
def granted (E : Chronicle) (l : Address) : List Address := (E.on l).flatMap fun x => x.2.2

/-- How often `release` has been called. -/
def releases (E : Chronicle) (sem : Address) : Nat := (E.on sem).countP fun x => x.1 = .release sem

/-- The changes of the counter that have been accepted. -/
def deltas (E : Chronicle) (wg : Address) : List Int64 := (E.on wg).filterMap LockCall.delta?

variable {E F : Chronicle} {l : Address} {c : LockCall} {r : Except Fault Bool} {g : List Address}
  {kind : LockKind}

theorem on_append : Chronicle.on (E ++ F) l = E.on l ++ Chronicle.on F l := List.filterMap_append

theorem on_quiet (quiet : F.on l = []) : Chronicle.on (E ++ F) l = E.on l := by
  rw [on_append, quiet, List.append_nil]

theorem on_call (here : c.target = some (kind, l)) :
    Chronicle.on (E ++ [.calls c r g]) l = E.on l ++ [(c, r, g)] := by
  simp [Chronicle.on, Deed.on, here]

/-- A call on another lock, or on none. -/
theorem on_elsewhere (off : ∀ kind, c.target ≠ some (kind, l)) :
    Chronicle.on [.calls c r g] l = [] := by
  refine List.filterMap_eq_nil_iff.2 fun x hx => ?_
  cases List.mem_singleton.1 hx
  refine if_neg fun here => ?_
  obtain ⟨⟨kind, m⟩, target, rfl⟩ := Option.map_eq_some_iff.1 here
  exact off kind target

theorem callers_call (here : c.target = some (kind, l)) :
    Chronicle.callers (E ++ [.calls c r g]) l = E.callers l ++ c.caller.toList := by
  cases e : c.caller <;> simp [callers, on_call here, e]

theorem granted_call (here : c.target = some (kind, l)) :
    Chronicle.granted (E ++ [.calls c r g]) l = E.granted l ++ g := by
  simp [granted, on_call here]

end Chronicle

namespace Contest

/-- What can happen in a contest, unless memory runs out. If it is polite, no thread calls while it
waits. -/
inductive Goes (polite : Bool) (k : Contest) : Chronicle → Contest → Prop where
  | thread {id : UInt64} {frame structs t : Address} {h : Heap}
    (run : Thread.create id frame structs k.heap = .ok t h) :
    Goes polite k [] ⟨t ::ₘ k.owned, { k.lobby with threads := t :: k.lobby.threads }, h⟩
  | lock {kind : LockKind} {initial : Int64} {l : Address} {h : Heap} (known : kind ∈ LockKind.all)
    (run : kind.create initial k.heap = .ok l h) :
    Goes polite k [.joins kind initial l]
      ⟨l ::ₘ k.owned, { k.lobby with locks := (kind, l) :: k.lobby.locks }, h⟩
  | done {c : LockCall} {b : Bool} {h : Heap} (present : c.Present k.lobby)
    (calm : polite = true → c.Among k.lobby k.heap) (run : c.run k.lobby k.heap = .ok b h) :
    Goes polite k [.calls c (.ok b) (k.gained { k with heap := h })] { k with heap := h }
  | failed {c : LockCall} {e : Fault} {h : Heap} (present : c.Present k.lobby)
    (calm : polite = true → c.Among k.lobby k.heap) (run : c.run k.lobby k.heap = .error e h)
    (enough : e.isShortage = false) :
    Goes polite k [.calls c (.error e) (k.gained { k with heap := h })] { k with heap := h }

end Contest

/-- A contest starts with a scheduler on a heap of which some references are owned. -/
inductive Contested (polite : Bool) : Contest → Chronicle → Prop where
  | opening {O : Multiset Address} {h h' : Heap} {s : Address} (own : Owns 0 8 O h)
    (run : Scheduler.create h = .ok s h') : Contested polite ⟨s ::ₘ O, ⟨s, [], []⟩, h'⟩ []
  | step {k k' : Contest} {E F : Chronicle} (before : Contested polite k E)
      (goes : k.Goes polite F k') :
    Contested polite k' (E ++ F)

/-- What a contest does to those who take part and to the desk. -/
inductive Story (polite : Bool) : Lobby → Desk → Chronicle → Prop where
  | opening {s : Address} : Story polite ⟨s, [], []⟩ ⟨fun _ => 0, fun _ => [], []⟩ []
  | thread {σ : Lobby} {D : Desk} {E : Chronicle} {t : Address} (before : Story polite σ D E) :
    Story polite { σ with threads := t :: σ.threads } D E
  | lock {σ : Lobby} {D : Desk} {E : Chronicle} {kind : LockKind} {initial : Int64} {l : Address}
    (before : Story polite σ D E) (new : ∀ kind', (kind', l) ∉ σ.locks) :
    Story polite { σ with locks := (kind, l) :: σ.locks } (D.addLock l initial)
    (E ++ [.joins kind initial l])
  | call {σ : Lobby} {D D' : Desk} {E : Chronicle} {c : LockCall} {r : Except Fault Bool}
    (before : Story polite σ D E) (present : c.Present σ)
    (calm : polite = true → ∀ t, c.caller = some t → D.Free σ t) (did : c.Does D r D') :
    Story polite σ D' (E ++ [.calls c r (D'.runnable.drop D.runnable.length)])

variable {σ : Lobby} {place : Option Address → Address} {D D' : Desk} {O : Multiset Address}
    {n : Nat}
  {h : Heap} {l m t : Address} {c : LockCall} {r : Except Fault Bool} {k k' : Contest}
  {a : Contest.Act}
  {E F : Chronicle} {polite : Bool} {kind : LockKind} {initial : Int64}

/-- A call that ends, other than for want of memory, does to the desk what it does. -/
theorem Contest.Goes.does {g : List Address} (goes : k.Goes polite [.calls c r g] k')
    (hosts : Hosts k.lobby place D 8 k.owned k.heap) :
    c.Present k.lobby ∧ (polite = true → c.Among k.lobby k.heap) ∧ ∃ D', k'.lobby = k.lobby ∧
      Hosts k.lobby place D' 8 k.owned k'.heap ∧ Hosts k'.lobby place D' 8 k'.owned k'.heap ∧
      c.Does D r D' ∧
      g = D'.runnable.drop D.runnable.length := by
  have gained : ∀ {D' : Desk} {h : Heap}, Hosts k.lobby place D' 8 k.owned h →
      k.gained { k with heap := h } = D'.runnable.drop D.runnable.length := fun {D' h} hosts' => by
    rw [Contest.gained, hosts.runnable, Hosts.runnable (k := { k with heap := h }) hosts']
  cases goes with
  | done present calm run =>
    obtain ⟨D', hosts', did⟩ := (LockCall.does (n := 0) hosts present).yields _ _ run
    exact ⟨present, calm, D', rfl, hosts', hosts', did, gained hosts'⟩
  | failed present calm run enough =>
    rcases LockCall.does (n := 0) hosts present with ⟨b, h', run', -⟩ | ⟨e, h', run', failed⟩
    · rw [run] at run'
      cases run'
    · rw [run] at run'
      cases run'
      rcases failed with ⟨short, -⟩ | ⟨D', hosts', did⟩
      · simp [enough] at short
      · exact ⟨present, calm, D', rfl, hosts', hosts', did, gained hosts'⟩

/-- The desk of a contest has a story. -/
theorem Contested.story (contested : Contested polite k E) :
    ∃ place D, Hosts k.lobby place D 8 k.owned k.heap ∧ Story polite k.lobby D E := by
  induction contested with
  | opening own run =>
    obtain ⟨place, hosts⟩ := Scheduler.create_hosts own _ _ run
    exact ⟨place, _, hosts, .opening⟩
  | @step k k' E F before goes ih =>
    obtain ⟨place, D, hosts, story⟩ := ih
    cases id goes with
    | thread run =>
      rw [List.append_nil]
      exact ⟨place, D, hosts.joinThread _ _ run, .thread story⟩
    | lock known run =>
      obtain ⟨new, place', hosts'⟩ := hosts.joinLock known _ _ run
      exact ⟨place', _, hosts', .lock story new⟩
    | done | failed =>
      obtain ⟨present, calm, D', -, -, hosts', did, gained⟩ := goes.does hosts
      refine ⟨place, D', hosts', ?_⟩
      rw [gained]
      exact .call story present (fun polite t ht => (calm polite).free hosts ht) did

namespace Story

/-- A lock that has joined is there. -/
theorem known (story : Story polite σ D E) (joined : .joins kind initial l ∈ E) :
    (kind, l) ∈ σ.locks := by
  induction story with
  | opening => cases joined
  | thread before ih => exact ih joined
  | lock before new ih =>
    rcases List.mem_append.1 joined with old | new
    · exact List.mem_cons_of_mem _ (ih old)
    · cases List.mem_singleton.1 new
      exact List.mem_cons_self
  | call before present calm did ih =>
    refine ih ((List.mem_append.1 joined).resolve_right fun h => ?_)
    cases List.mem_singleton.1 h

/-- What is one kind of lock is no other. -/
theorem one_kind {kind' : LockKind} (story : Story polite σ D E) (hl : (kind, l) ∈ σ.locks)
    (hl' : (kind', l) ∈ σ.locks) : kind = kind' := by
  induction story with
  | opening => cases hl
  | thread before ih => exact ih hl hl'
  | lock before new ih =>
    rcases List.mem_cons.1 hl with e | old <;> rcases List.mem_cons.1 hl' with e' | old'
    · cases e
      cases e'
      rfl
    · cases e
      exact (new _ old').elim
    · cases e'
      exact (new _ old).elim
    · exact ih old old'
  | call before present calm did ih => exact ih hl hl'

/-- There were no calls on a lock that is not there. -/
theorem off (story : Story polite σ D E) (out : ∀ kind, (kind, l) ∉ σ.locks) : E.on l = [] := by
  induction story with
  | opening => rfl
  | thread before ih => exact ih out
  | lock before new ih =>
    rw [Chronicle.on_append, ih fun kind h => out kind (List.mem_cons_of_mem _ h)]
    rfl
  | call before present calm did ih =>
    rw [Chronicle.on_quiet (Chronicle.on_elsewhere fun kind here => out kind (present.1 _ here)),
      ih out]

/-- Nobody waits twice if all are polite. -/
theorem once (story : Story true σ D E) : D.Once σ := by
  induction story with
  | opening =>
    rintro l m x y ⟨kind, hl⟩
    cases hl
  | thread before ih => exact ih
  | lock before new ih => exact ih.addLock
  | call before present calm did ih => exact did.once ih (calm rfl)

end Story

/-- A call on another lock, or on none, leaves a lock alone. -/
theorem LockCall.Does.elsewhere (did : c.Does D r D') (off : ∀ kind, c.target ≠ some (kind, l)) :
    D'.counter l = D.counter l ∧ D'.waiting l = D.waiting l := by
  rcases did.shift with ⟨kind, m, on, shift⟩ | ⟨t, rfl, rfl⟩ | ⟨rfl, rfl⟩
  · refine shift.elsewhere ?_
    rintro rfl
    exact off kind on
  · exact ⟨rfl, rfl⟩
  · exact ⟨rfl, rfl⟩

/-- A call on a semaphore or a wait group. -/
theorem LockCall.Does.counts (did : c.Does D r D') (here : c.target = some (kind, l))
    (other : kind ≠ .mutex) :
    c.Counts D r D' := by
  cases did
  case other counts => exact counts
  case enqueued | taken => cases here
  all_goals
    cases here
    exact absurd rfl other

theorem Hosts.waiting_nodup (hosts : Hosts σ place D n O h) (once : D.Once σ)
    (hl : (kind, l) ∈ σ.locks) :
    ((D.waiting l).map Prod.snd).Nodup := by
  obtain ⟨S, st, seated, -⟩ := hosts
  have has : σ.Has (some l) := ⟨kind, hl⟩
  have nodup : (D.waiting l).Nodup := .of_map _ (seated.nodup has)
  exact nodup.map_on fun x hx y hy e => (once has has hx hy e).2

/-- A deed leaves a lock alone, or it is a call on the lock. -/
theorem Contest.Goes.leaves_or_calls (goes : k.Goes polite F k')
    (hosts : Hosts k.lobby place D 8 k.owned k.heap)
    (hl : (kind, l) ∈ k.lobby.locks) : (kind, l) ∈ k'.lobby.locks ∧
      ((∃ place' D', Hosts k'.lobby place' D' 8 k'.owned k'.heap ∧ D'.counter l = D.counter l ∧
        D'.waiting l = D.waiting l) ∨
      ∃ c r g D', F = [.calls c r g] ∧ c.target = some (kind, l) ∧
        Hosts k'.lobby place D' 8 k'.owned k'.heap ∧ c.Does D r D') := by
  have called : ∀ {c r g}, F = [.calls c r g] → (kind, l) ∈ k'.lobby.locks ∧
      ((∃ place' D', Hosts k'.lobby place' D' 8 k'.owned k'.heap ∧ D'.counter l = D.counter l ∧
        D'.waiting l = D.waiting l) ∨
      ∃ c r g D', F = [.calls c r g] ∧ c.target = some (kind, l) ∧
        Hosts k'.lobby place D' 8 k'.owned k'.heap ∧ c.Does D r D') := by
    rintro c r g rfl
    obtain ⟨present, -, D', same, -, hosts', did, -⟩ := goes.does hosts
    refine ⟨same ▸ hl, ?_⟩
    by_cases here : ∃ kind, c.target = some (kind, l)
    · obtain ⟨kind', here⟩ := here
      obtain rfl := hosts.one_kind (present.1 _ here) hl
      exact .inr ⟨c, r, g, D', rfl, here, hosts', did⟩
    · have off : ∀ kind, c.target ≠ some (kind, l) := fun kind h => here ⟨kind, h⟩
      exact .inl ⟨place, D', hosts', did.elsewhere off⟩
  cases id goes with
  | thread run => exact ⟨hl, .inl ⟨place, D, hosts.joinThread _ _ run, rfl, rfl⟩⟩
  | @lock _ initial m _ known run =>
    obtain ⟨new, place', hosts'⟩ := hosts.joinLock known _ _ run
    have ne : l ≠ m := by
      rintro rfl
      exact new _ hl
    exact ⟨List.mem_cons_of_mem _ hl, .inl ⟨place', _, hosts', by simp [Desk.addLock, ne], by
      simp [Desk.addLock, ne]⟩⟩
  | done | failed => exact called rfl

/-- A thread that waits for a lock is made runnable by another's call on this lock only, if all are
polite. -/
theorem Contest.Goes.served (goes : k.Goes true F k')
    (hosts : Hosts k.lobby place D 8 k.owned k.heap)
    (once : D.Once k.lobby) (hl : (kind, l) ∈ k.lobby.locks)
    (waits : t ∈ (D.waiting l).map Prod.snd)
    (gained : t ∈ k.gained k') : ∃ c r D', F = [.calls c r (k.gained k')] ∧
    c.target = some (kind, l) ∧
      c.caller ≠ some t ∧ c.Does D r D' ∧ k.gained k' = D'.runnable.drop D.runnable.length := by
  obtain ⟨x, hx, rfl⟩ := List.mem_map.1 waits
  have has : k.lobby.Has (some l) := ⟨kind, hl⟩
  have unwoken : ∀ {place' D'}, Hosts k'.lobby place' D' 8 k'.owned k'.heap →
    D'.runnable = D.runnable →
      False := fun hosts' same => by
    rw [Contest.gained, hosts.runnable, hosts'.runnable, same, List.drop_length] at gained
    cases gained
  have called : ∀ {c r}, F = [.calls c r (k.gained k')] → ∃ c r D', F = [.calls c r (k.gained k')] ∧
      c.target = some (kind, l) ∧ c.caller ≠ some x.2 ∧ c.Does D r D' ∧
      k.gained k' = D'.runnable.drop D.runnable.length := by
    rintro c r rfl
    obtain ⟨present, calm, D', -, -, -, did, drop⟩ := goes.does hosts
    have others : c.caller ≠ some x.2 := fun mine => (calm rfl).free hosts mine has hx rfl
    refine ⟨c, r, D', rfl, ?_, others, did, drop⟩
    rcases did.gained drop _ gained with mine | ⟨kind', m, y, here, hy, same⟩
    · exact absurd mine others
    · have there := present.1 _ here
      obtain ⟨rfl, -⟩ := once has ⟨kind', there⟩ hx hy same.symm
      rw [here, hosts.one_kind there hl]
  cases id goes with
  | thread run => exact (unwoken (hosts.joinThread _ _ run) rfl).elim
  | lock known run =>
    obtain ⟨-, place', hosts'⟩ := hosts.joinLock known _ _ run
    exact (unwoken hosts' rfl).elim
  | done | failed => exact called rfl

/-! ## Writing the chronicle of a contest -/

namespace Contest

/-- What an act adds to the chronicle. -/
def deeds (k k' : Contest) : Act → Except Fault Bool → Chronicle
  | .thread .., _ => []
  | .lock kind initial, _ => k'.lobby.locks.head?.toList.map fun x => .joins kind initial x.2
  | .call c, r => [.calls c r (k.gained k')]

/-- Does some acts and writes the chronicle. -/
def tell (k : Contest) (E : Chronicle) : List Act → Option (Contest × Chronicle)
  | [] => some (k, E)
  | a :: acts => match k.perform a with
    | some (r, k') => k'.tell (E ++ k.deeds k' a r) acts
    | none => none

/-- A step of a contest is polite. -/
theorem Step.goes (step : k.Step a r k') : k.Goes true (k.deeds k' a r) k' := by
  cases step with
  | thread run => exact .thread run
  | lock known _ run => exact .lock known run
  | done among run => exact .done among.present (fun _ => among) run
  | failed among run enough => exact .failed among.present (fun _ => among) run enough

end Contest

theorem Contested.tell {acts : List Contest.Act} (contested : Contested true k E)
    (done : k.tell E acts = some (k', F)) : Contested true k' F := by
  induction acts generalizing k E with
  | nil =>
    cases done
    exact contested
  | cons a acts ih =>
    unfold Contest.tell at done
    split at done
    · next performed => exact ih (contested.step (Contest.step_of_perform performed).goes) done
    · cases done

theorem Contested.fresh {words : Nat} (made : Contest.fresh words = some k) :
    Contested true k [] := by
  obtain ⟨O, h, s, h', own, run, rfl⟩ := Contest.opening_of_fresh made
  exact .opening own run

/-! ## Counters -/

theorem toInt_add_of_fits {a b : Int64} (low : -2 ^ 63 ≤ a.toInt + b.toInt)
    (high : a.toInt + b.toInt < 2 ^ 63) :
    (a + b).toInt = a.toInt + b.toInt := by
  rw [Int64.toInt_add, Int.bmod_eq_of_le (by omega) (by omega)]

theorem toInt_sub_of_fits {a b : Int64} (low : -2 ^ 63 ≤ a.toInt - b.toInt)
    (high : a.toInt - b.toInt < 2 ^ 63) :
    (a - b).toInt = a.toInt - b.toInt := by
  rw [Int64.toInt_sub, Int.bmod_eq_of_le (by omega) (by omega)]

/-- What is added to a counter that is not negative gives the exact sum, unless the result is
negative. -/
theorem toInt_add_of_nonneg {a b : Int64} (ha : 0 ≤ a.toInt) (sum : 0 ≤ (a + b).toInt) :
    (a + b).toInt = a.toInt + b.toInt := by
  have := a.toInt_lt
  have := b.toInt_lt
  have := b.le_toInt
  rw [Int64.toInt_add, Int.bmod_def] at sum ⊢
  split at sum <;> omega

end GoMachine
