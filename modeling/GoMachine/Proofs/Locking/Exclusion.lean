import GoMachine.Proofs.Locking.Contention
/-!
# Exclusion

A mutex is held by one thread at a time. Its flag stays set while it is handed over, so that it is
not the flag that tells who holds it but the tally: each grant but the last has been followed by an
unlock.

* `Contest.Step.sound`: what each act keeps.
* `Contention.exclusion`: a mutex is granted to one thread at a time, in the order of the calls.
-/
namespace GoMachine

open Heap (Owns)

variable {σ : Lobby} {place : Option Address → Address} {D : Desk} {O : Multiset Address} {n : Nat}
  {h : Heap} {l m : Address} {c : LockCall} {r : Except Fault Bool} {k k' : Contest}
  {a : Contest.Act} {L L' : Address → Tally}

/-- What holds of every contest: the heap stores a desk at which nobody waits twice, and all tallies
are as they should be. -/
def Contest.Sound (k : Contest) (L : Address → Tally) : Prop :=
  ∃ place D, Hosts k.lobby place D 8 k.owned k.heap ∧ D.Once k.lobby ∧
    (∀ m, (.mutex, m) ∈ k.lobby.locks → D.Fair m (L m)) ∧
    ∀ m, (∀ kind, (kind, m) ∉ k.lobby.locks) → L m = .empty

theorem Hosts.runnable (hosts : Hosts k.lobby place D n k.owned k.heap) :
    k.runnable = D.runnable := by
  simp only [Contest.runnable, Query.orDefault, hosts.threads]

/-- What is one kind of lock is no other. -/
theorem Hosts.one_kind {kind kind' : LockKind} (hosts : Hosts σ place D n O h)
    (hl : (kind, l) ∈ σ.locks)
    (hl' : (kind', l) ∈ σ.locks) : kind = kind' := by
  obtain ⟨S, st, seated, -⟩ := hosts
  have same : kind.tag = kind'.tag := by simpa [seated.lock hl] using seated.lock hl'
  have known := seated.kind hl
  have known' := seated.kind hl'
  simp only [LockKind.all, List.mem_cons, List.not_mem_nil, or_false] at known known'
  rcases known with rfl | rfl | rfl <;> rcases known' with rfl | rfl | rfl <;>
    first | rfl | exact absurd same (by decide)

/-- A call that ends, other than for want of memory, does to the desk what it does. -/
theorem Contest.Step.does (step : k.Step (.call c) r k')
    (hosts : Hosts k.lobby place D 8 k.owned k.heap) :
    c.Among k.lobby k.heap ∧ k'.lobby = k.lobby ∧ ∃ D', Hosts k.lobby place D' 8 k.owned k'.heap ∧
      Hosts k'.lobby place D' 8 k'.owned k'.heap ∧ c.Does D r D' := by
  cases step with
  | done among run =>
    obtain ⟨D', hosts, did⟩ := (LockCall.does (n := 0) hosts among.present).yields _ _ run
    exact ⟨among, rfl, D', hosts, hosts, did⟩
  | failed among run enough =>
    rcases LockCall.does (n := 0) hosts among.present with ⟨b, h', run', -⟩ | ⟨e, h', run', failed⟩
    · rw [run] at run'
      cases run'
    · rw [run] at run'
      cases run'
      rcases failed with ⟨short, -⟩ | ⟨D', hosts, did⟩
      · simp [enough] at short
      · exact ⟨among, rfl, D', hosts, hosts, did⟩

/-- An act that is no call leaves the run queue as it is. -/
theorem Contest.Step.joins (step : k.Step a r k') (hosts : Hosts k.lobby place D 8 k.owned k.heap)
    (quiet : ∀ c, a ≠ .call c) : k.gained k' = [] := by
  have unwoken : ∀ {place' D'}, Hosts k'.lobby place' D' 8 k'.owned k'.heap →
    D'.runnable = D.runnable →
      k.gained k' = [] := fun hosts' same => by
    rw [Contest.gained, hosts.runnable, hosts'.runnable, same, List.drop_length]
  cases step with
  | thread run => exact unwoken (hosts.joinThread _ _ run) rfl
  | lock known start run =>
    obtain ⟨-, place', hosts'⟩ := hosts.joinLock known _ _ run
    exact unwoken hosts' rfl
  | done | failed => exact absurd rfl (quiet _)

theorem Contest.Step.sound (step : k.Step a r k') (sound : k.Sound L) :
    k'.Sound fun m => (L m).record m (k.gained k') a r := by
  obtain ⟨place, D, hosts, once, fair, off⟩ := sound
  cases a with
  | thread =>
    cases step with
    | thread run => exact ⟨place, D, hosts.joinThread _ _ run, once, fair, off⟩
  | lock kind initial =>
    cases step with
    | @lock _ _ l h known start run =>
      obtain ⟨new, place', hosts'⟩ := hosts.joinLock known _ _ run
      refine ⟨place', _, hosts', once.addLock, fun m hm => ?_, fun m hm => ?_⟩
      · rcases List.mem_cons.1 hm with e | old
        · obtain ⟨rfl, rfl⟩ : kind = .mutex ∧ m = l := by simpa [eq_comm] using e
          have emptied : L m = .empty := off m new
          rw [start rfl]
          exact ⟨by simp [Tally.record, emptied, Tally.empty, Desk.addLock],
            by simp [Tally.record, emptied, Tally.empty, Desk.addLock], by simp [Desk.addLock]⟩
        · have ne : m ≠ l := by
            rintro rfl
            exact new _ old
          exact (fair m old).congr (by simp [Desk.addLock, ne]) (by simp [Desk.addLock, ne])
      · exact off m fun kind' h => hm kind' (List.mem_cons_of_mem _ h)
  | call c =>
    obtain ⟨among, same, D', hosts₁, hosts', did⟩ := step.does hosts
    have gained : k.gained k' = D'.runnable.drop D.runnable.length := by
      rw [Contest.gained, hosts.runnable, hosts'.runnable]
    refine ⟨place, D', hosts', ?_, fun m hm => ?_, fun m hm => ?_⟩
    · rw [same]
      exact did.once once fun t ht => among.free hosts ht
    · rw [same] at hm
      rw [gained]
      refine did.fair (fun kind on => ?_) (fair m hm)
      exact hosts.one_kind (among.1 _ on) hm
    · rw [same] at hm
      have emptied := off m hm
      have out : ∀ kind, c.target ≠ some (kind, m) := fun kind on => hm kind (among.1 _ on)
      cases c with
      | lock m' t =>
        have ne : m' ≠ m := fun e => out .mutex (by rw [← e]; rfl)
        cases r <;> simp [Tally.record, ne, emptied]
      | unlock m' =>
        have ne : m' ≠ m := fun e => out .mutex (by rw [← e]; rfl)
        cases r <;> simp [Tally.record, ne, emptied]
      | _ => exact emptied

/-- A contest comes to sound states only. -/
theorem Contention.sound (contention : Contention k L) : k.Sound L := by
  induction contention with
  | opening own run =>
    obtain ⟨place, hosts⟩ := Scheduler.create_hosts own _ _ run
    refine ⟨place, _, hosts, ?_, nofun, fun _ _ => rfl⟩
    rintro l m x y ⟨kind, hl⟩
    cases hl
  | step before step ih => exact step.sound ih

/-- A mutex excludes: what its flag, its waiting threads and the run queue say, and what calls do
next. -/
structure Mutex.Excludes (k : Contest) (L : Tally) (m : Address) (held : Bool)
    (waiting run : List Address) :
    Prop where
  flag : Mutex.isLocked m k.heap = .ok held
  waiters : LockKind.mutex.waiting m k.heap = .ok waiting
  runQueue : Scheduler.threads k.lobby.scheduler k.heap = .ok run
  /-- At most one grant is outstanding. -/
  grants : L.grants.length = L.unlocks + held.toNat
  /-- Those who called were granted the mutex in this order, and the others wait in this order. -/
  order : L.calls = L.grants ++ waiting
  guarded : waiting ≠ [] → held = true
  /-- A call of `lock` goes through if the mutex is free, and only then makes the thread runnable.
  -/
  lock : ∀ {t b h}, t ∈ k.lobby.threads → Mutex.lock m t k.lobby.scheduler k.heap = .ok b h →
    b = !held ∧ Scheduler.threads k.lobby.scheduler h = .ok (if held then run else run ++ [t])
  /-- A call of `unlock` makes the first waiting thread runnable. -/
  unlock : ∀ {h}, Mutex.unlock m k.lobby.scheduler k.heap = .ok () h →
    held = true ∧ Scheduler.threads k.lobby.scheduler h = .ok (run ++ waiting.head?.toList)
  /-- Without a grant a call of `unlock` is refused, and changes nothing. -/
  refused : held = false → Mutex.unlock m k.lobby.scheduler k.heap = .error .unlockOfUnlocked k.heap
  /-- It is refused in no other case, unless memory has run out. -/
  granted : ∀ {e h}, Mutex.unlock m k.lobby.scheduler k.heap = .error e h → e.isShortage = false →
    held = false
  /-- Nothing but a call of `unlock` makes a waiting thread runnable. -/
  once : ∀ {a r k'}, k.Step a r k' → ∀ t ∈ waiting, t ∈ k.gained k' → a = .call (.unlock m)

/-- A mutex is granted to one thread at a time, in the order of the calls. -/
theorem Contention.exclusion (contention : Contention k L) (hm : (.mutex, m) ∈ k.lobby.locks) :
    ∃ held waiting run, Mutex.Excludes k (L m) m held waiting run := by
  obtain ⟨place, D, hosts, once, fair, -⟩ := contention.sound
  have fair := fair m hm
  have known : Mutex.isLocked m k.heap = .ok (D.counter m != 0) :=
    query_bind_ok.2 ⟨_, hosts.counter hm, rfl⟩
  refine ⟨D.counter m != 0, (D.waiting m).map Prod.snd, D.runnable, known, hosts.waiting hm,
    hosts.threads,
    fair.held, fair.calls, fun waits => bne_iff_ne.2 (fair.guarded fun e => waits (by simp [e])),
    fun {t b h} ht run => ?_, fun {h} run => ?_, fun free => ?_, fun {e h} run enough => ?_,
    fun {a r k'} step t ht gained => ?_⟩
  · rcases (hosts.lock (n := 0) hm ht).yields _ _ run with ⟨free, rfl, hosts⟩ | ⟨held, rfl, w,
      hosts⟩
    · exact ⟨by simp [free], by simp [free, hosts.threads, Desk.grant, Desk.count]⟩
    · exact ⟨by simp [held], by simp [held, hosts.threads, Desk.park]⟩
  · rcases hosts.unlock (n := 0) hm with ⟨free, failed⟩ | ⟨held, done⟩
    · rw [run] at failed
      cases failed
    · refine ⟨bne_iff_ne.2 held, ?_⟩
      rcases done.yields _ _ run with ⟨idle, hosts⟩ | ⟨x, rest, waits, hosts⟩
      · simp [hosts.threads, idle, Desk.count]
      · simp [hosts.threads, waits, Desk.grant, Desk.serve]
  · rcases hosts.unlock (n := 0) hm with ⟨-, failed⟩ | ⟨held, -⟩
    · exact failed
    · exact absurd (by simpa using free) held
  · rcases hosts.unlock (n := 0) hm with ⟨free, -⟩ | ⟨-, ⟨_, _, run', -⟩ | ⟨_, _, run', short, -⟩⟩
    · simp [free]
    · rw [run] at run'
      cases run'
    · rw [run] at run'
      cases run'
      simp [enough] at short
  · obtain ⟨x, hx, rfl⟩ := List.mem_map.1 ht
    have has : k.lobby.Has (some m) := ⟨_, hm⟩
    cases a with
    | thread => simp [step.joins hosts (by simp)] at gained
    | lock => simp [step.joins hosts (by simp)] at gained
    | call c =>
      obtain ⟨among, -, D', -, hosts', did⟩ := step.does hosts
      have e : k.gained k' = D'.runnable.drop D.runnable.length := by
        rw [Contest.gained, hosts.runnable, hosts'.runnable]
      rcases did.gained e _ gained with mine | ⟨kind, l, y, on, hy, same⟩
      · exact absurd rfl (among.free hosts mine has hx)
      · have here : k.lobby.Has (some l) := ⟨kind, among.1 _ on⟩
        obtain ⟨rfl, -⟩ := once has here hx hy same.symm
        obtain rfl : kind = .mutex := hosts.one_kind (among.1 _ on) hm
        cases c with
        | lock m' t =>
          cases on
          cases did with
          | takes free => exact absurd free (fair.guarded (List.ne_nil_of_mem hx))
          | waits held => simp [e, Desk.park] at gained
          | other on other => cases on; exact absurd rfl other
        | unlock m' =>
          cases on
          rfl
        | _ => cases on

/-! ## Playing a contest -/

instance LockCall.decidableAmong (σ : Lobby) (h : Heap) (c : LockCall) : Decidable (c.Among σ h) :=
  inferInstanceAs (Decidable ((∀ x ∈ c.target, _) ∧ ∀ t ∈ c.caller, _ ∧ ∀ x ∈ σ.locks, _))

namespace Contest

/-- Does an act, unless memory runs out. -/
def perform (k : Contest) : Act → Option (Except Fault Bool × Contest)
  | .thread id frame structs => match Thread.create id frame structs k.heap with
    | .ok t h =>
        some (.ok true, ⟨t ::ₘ k.owned, { k.lobby with threads := t :: k.lobby.threads }, h⟩)
    | .error .. => none
  | .lock kind initial =>
    if kind ∈ LockKind.all ∧ (kind = .mutex → initial = 0) then match kind.create initial
    k.heap with
      | .ok l h =>
          some (.ok true, ⟨l ::ₘ k.owned, { k.lobby with locks := (kind, l) :: k.lobby.locks }, h⟩)
      | .error .. => none
    else none
  | .call c => if c.Among k.lobby k.heap then match c.run k.lobby k.heap with
      | .ok b h => some (.ok b, { k with heap := h })
      | .error e h => if e.isShortage then none else some (.error e, { k with heap := h })
    else none

theorem step_of_perform (done : k.perform a = some (r, k')) : k.Step a r k' := by
  cases a with
  | thread id frame structs =>
    simp only [perform] at done
    split at done
    · next run =>
      cases done
      exact .thread run
    · cases done
  | lock kind initial =>
    simp only [perform] at done
    split at done
    · next known =>
      split at done
      · next run =>
        cases done
        exact .lock known.1 known.2 run
      · cases done
    · cases done
  | call c =>
    simp only [perform] at done
    split at done
    · next among =>
      split at done
      · next run =>
        cases done
        exact .done among run
      · next run =>
        split at done
        · cases done
        · next enough =>
          cases done
          exact .failed among run (Bool.eq_false_iff.2 enough)
    · cases done

/-- Does some acts and writes the tallies. -/
def play (k : Contest) (L : Address → Tally) : List Act → Option (Contest × (Address → Tally))
  | [] => some (k, L)
  | a :: acts => match k.perform a with
    | some (r, k') => k'.play (fun m => (L m).record m (k.gained k') a r) acts
    | none => none

/-- A scheduler on a heap of its own. -/
def fresh (words : Nat) : Option Contest :=
  match Heap.new words with
  | .ok h => match Scheduler.create h with
    | .ok s h' => some ⟨{s}, ⟨s, [], []⟩, h'⟩
    | .error .. => none
  | .error _ => none

end Contest

theorem Contention.play {acts : List Contest.Act} (contention : Contention k L)
    (done : k.play L acts = some (k', L')) : Contention k' L' := by
  induction acts generalizing k L with
  | nil =>
    cases done
    exact contention
  | cons a acts ih =>
    unfold Contest.play at done
    split at done
    · next performed => exact ih (contention.step (Contest.step_of_perform performed)) done
    · cases done

theorem Contest.opening_of_fresh {words : Nat} (made : Contest.fresh words = some k) : ∃ O h s h',
    Owns 0 8 O h ∧ Scheduler.create h = .ok s h' ∧ k = ⟨s ::ₘ O, ⟨s, [], []⟩, h'⟩ := by
  unfold Contest.fresh at made
  split at made
  · next h new =>
    split at made
    · next run =>
      cases made
      refine ⟨0, h, _, _, ⟨.new new, by decide, fun a _ => ?_⟩, run, rfl⟩
      simp [Heap.limit]
    · cases made
  · cases made

theorem Contention.fresh {words : Nat} (made : Contest.fresh words = some k) :
    Contention k fun _ => .empty := by
  obtain ⟨O, h, s, h', own, run, rfl⟩ := Contest.opening_of_fresh made
  exact .opening own run

/-- Of three threads that called `lock` two were granted the mutex, the second when the first one
gave it up, and the third waits. -/
theorem Contention.exclusion_hand_over : ∃ k L m run t₁ t₂ t₃, Contention k L ∧
    (L m).grants = [t₁, t₂] ∧ (L m).unlocks = 1 ∧ Mutex.Excludes k (L m) m true [t₃] run := by
  let acts : List Contest.Act :=
    [.thread 0 .nil .nil, .thread 1 .nil .nil, .thread 2 .nil .nil, .lock .mutex 0,
    .call (.lock ⟨113⟩ ⟨17⟩), .call (.lock ⟨113⟩ ⟨49⟩), .call .next, .call (.lock ⟨113⟩ ⟨81⟩),
    .call (.unlock ⟨113⟩)]
  have ran : (match Contest.fresh 256 with
    | some k₀ => match k₀.play (fun _ => .empty) acts with
      | some (k, L) =>
          (.mutex, ⟨113⟩) ∈ k.lobby.locks ∧ L ⟨113⟩ = ⟨[⟨17⟩, ⟨49⟩, ⟨81⟩], [⟨17⟩, ⟨49⟩], 1⟩
      | none => false
    | none => false) = true := by decide +kernel
  split at ran
  · next k₀ made =>
    split at ran
    · next k L played =>
      obtain ⟨hm, tally⟩ := of_decide_eq_true ran
      have contention := (Contention.fresh made).play played
      obtain ⟨held, waiting, run, excludes⟩ := Contention.exclusion contention hm
      have order := excludes.order
      have grants := excludes.grants
      simp only [tally, List.cons_append, List.nil_append, List.cons.injEq, true_and]
        at order grants
      obtain rfl : held = true := by
        cases held <;> simp at grants ⊢
      subst order
      exact ⟨k, L, ⟨113⟩, run, ⟨17⟩, ⟨49⟩, ⟨81⟩, contention, by simp [tally], by
        simp [tally], excludes⟩
    · cases ran
  · cases ran

end GoMachine
