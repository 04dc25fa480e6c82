import GoMachine.Proofs.Locking.Chronicle
/-!
# Semaphores

The counter of a semaphore is the number of its permits, or below zero the number of threads that
wait for one. That a permit which is given back while the counter is below zero finds a waiting
thread rests on the agreement of the counter with the queue.

* `LockCall.Does.metered`: what a call keeps.
* `Contested.permits_accounted`: what the permits come to, who waits, and whom calls put on the run
  queue.
-/
namespace GoMachine

variable {σ : Lobby} {place : Option Address → Address} {D D' : Desk} {O : Multiset Address}
    {n : Nat}
  {h : Heap} {l sem t : Address} {c : LockCall} {r : Except Fault Bool} {k k' : Contest} {p : Int64}
  {E F : Chronicle} {polite : Bool} {kind : LockKind} {g : List Address}

theorem toInt_pred {a : Int64} (low : Int64.minValue < a) : (a - 1).toInt = a.toInt - 1 := by
  have := a.toInt_lt
  rw [Int64.lt_iff_toInt_lt, Int64.toInt_minValue] at low
  rw [toInt_sub_of_fits, Int64.toInt_one] <;> rw [Int64.toInt_one] <;> omega

theorem toInt_succ {a : Int64} (high : a < Int64.maxValue) : (a + 1).toInt = a.toInt + 1 := by
  have := a.le_toInt
  rw [Int64.lt_iff_toInt_lt, Int64.toInt_maxValue] at high
  rw [toInt_add_of_fits, Int64.toInt_one] <;> rw [Int64.toInt_one] <;> omega

namespace Chronicle

/-- What the permits of a semaphore come to: it has started with `p`, each call of `acquire` takes
one and each call of `release` gives one. -/
def balance (E : Chronicle) (sem : Address) (p : Int64) : Int :=
  p.toInt - (E.callers sem).length + E.releases sem

/-- The counter of a semaphore has not overflown. -/
def Fits (E : Chronicle) (sem : Address) (p : Int64) : Prop :=
  ∀ F, F <+: E → -2 ^ 63 ≤ Chronicle.balance F sem p ∧ Chronicle.balance F sem p < 2 ^ 63

theorem Fits.of_append (fits : Chronicle.Fits (E ++ F) sem p) : E.Fits sem p :=
  fun G le => fits G (le.trans (List.prefix_append E F))

instance : Decidable (E.Fits sem p) :=
  decidable_of_iff (∀ F ∈ E.inits, -2 ^ 63 ≤ Chronicle.balance F sem p ∧
  Chronicle.balance F sem p < 2 ^ 63)
    (by simp only [List.mem_inits, Fits])

end Chronicle

/-- The counter of a semaphore says how many permits there are, or how many threads wait. -/
structure Desk.Metered (D : Desk) (sem : Address) (p : Int64) (E : Chronicle) : Prop where
  counter : (D.counter sem).toInt = E.balance sem p
  parked : ((D.waiting sem).length : Int) = max 0 (-(D.counter sem).toInt)
  order : E.callers sem = E.granted sem ++ (D.waiting sem).map Prod.snd

theorem Desk.Metered.congr (metered : D.Metered sem p E) (counter : D'.counter sem = D.counter sem)
    (waiting : D'.waiting sem = D.waiting sem) (quiet : F.on sem = []) :
    D'.Metered sem p (E ++ F) := by
  have same := Chronicle.on_quiet (E := E) quiet
  have balance : Chronicle.balance (E ++ F) sem p = E.balance sem p := by
    simp only [Chronicle.balance, Chronicle.callers, Chronicle.releases, same]
  refine ⟨by rw [counter, balance, metered.counter], by
    rw [waiting, counter]; exact metered.parked, ?_⟩
  simp only [Chronicle.callers, Chronicle.granted, same, waiting]
  exact metered.order

theorem Chronicle.balance_call (here : c.target = some (kind, sem)) :
    Chronicle.balance (E ++ [.calls c r g]) sem p =
      E.balance sem p - c.caller.toList.length + (if c = .release sem then 1 else 0) := by
  rw [balance, balance, callers_call here, releases, releases, on_call here, List.countP_append]
  simp only [List.countP_singleton, List.length_append, decide_eq_true_eq]
  split <;> push_cast <;> omega

/-- A call on a semaphore keeps the counter in step with the queue, and serves threads in the order
of their calls. -/
theorem LockCall.Counts.metered (counts : c.Counts D r D')
    (here : c.target = some (.semaphore, sem))
    (metered : D.Metered sem p E) (low : -2 ^ 63 ≤ Chronicle.balance (E ++ [.calls c r g]) sem p)
    (high : Chronicle.balance (E ++ [.calls c r g]) sem p < 2 ^ 63)
    (gained : g = D'.runnable.drop D.runnable.length) : D'.Metered sem p (E ++ [.calls c r g]) := by
  obtain ⟨counter, parked, order⟩ := metered
  have balance := Chronicle.balance_call (r := r) (g := g) (E := E) (p := p) here
  have callers := Chronicle.callers_call (r := r) (g := g) (E := E) here
  have granted := Chronicle.granted_call (r := r) (g := g) (E := E) here
  rw [← counter] at balance
  have less : ∀ {t}, c = .acquire sem t → (D.counter sem - 1).toInt = (D.counter sem).toInt - 1 :=
    fun e => by
    simp only [e, LockCall.caller, Option.toList_some, List.length_singleton, reduceCtorEq,
      if_false] at balance low high
    rw [toInt_sub_of_fits, Int64.toInt_one] <;> rw [Int64.toInt_one] <;> omega
  have more : c = .release sem → (D.counter sem + 1).toInt = (D.counter sem).toInt + 1 := fun e =>
    by
    simp only [e, LockCall.caller, Option.toList_none, List.length_nil, if_true] at balance low high
    rw [toInt_add_of_fits, Int64.toInt_one] <;> rw [Int64.toInt_one] <;> omega
  cases counts <;> cases here <;>
    simp only [LockCall.caller, Option.toList_some, Option.toList_none,
    List.length_singleton, List.length_nil, reduceCtorEq, if_false, if_true] at balance callers
  case admits t free =>
    have less := less rfl
    rw [Int64.le_iff_toInt_le, less, Int64.toInt_zero] at free
    have idle : D.waiting sem = [] := List.eq_nil_of_length_eq_zero (by omega)
    have only : g = [t] := by simpa [Desk.grant, Desk.count] using gained
    refine ⟨?_, ?_, ?_⟩
    · simp only [Desk.grant, Desk.count, Function.update_self]
      omega
    · simp only [Desk.grant, Desk.count, Function.update_self, idle, List.length_nil]
      omega
    · rw [callers, granted, order, only]
      simp [Desk.grant, Desk.count, idle]
  case queues t w owed =>
    have less := less rfl
    rw [Int64.le_iff_toInt_le, less, Int64.toInt_zero] at owed
    have only : g = [] := by simpa [Desk.park, Desk.count] using gained
    refine ⟨?_, ?_, ?_⟩
    · simp only [Desk.park, Desk.count, Function.update_self]
      omega
    · simp only [Desk.park, Desk.count, Function.update_self, List.length_append,
        List.length_singleton]
      omega
    · rw [callers, granted, order, only]
      simp [Desk.park, Desk.count]
  case returns free =>
    have more := more rfl
    rw [Int64.le_iff_toInt_le, more, Int64.toInt_zero] at free
    have only : g = [] := by simpa [Desk.count] using gained
    refine ⟨?_, ?_, ?_⟩
    · simp only [Desk.count, Function.update_self]
      omega
    · simp only [Desk.count, Function.update_self]
      omega
    · rw [callers, granted, order, only]
      simp [Desk.count]
  case passes x rest owed waits =>
    have more := more rfl
    rw [Int64.le_iff_toInt_le, more, Int64.toInt_zero] at owed
    have only : g = [x.2] := by simpa [Desk.grant, Desk.serve, Desk.count] using gained
    rw [waits, List.length_cons] at parked
    refine ⟨?_, ?_, ?_⟩
    · simp only [Desk.grant, Desk.serve, Desk.count, Function.update_self]
      omega
    · simp only [Desk.grant, Desk.serve, Desk.count, Function.update_self, waits, List.tail_cons]
      omega
    · rw [callers, granted, order, only]
      simp [Desk.grant, Desk.serve, Desk.count, waits]
  case unaccounted owed idle =>
    -- nobody waits, so that the counter is not below zero
    have more := more rfl
    rw [Int64.le_iff_toInt_le, more, Int64.toInt_zero] at owed
    rw [idle, List.length_nil] at parked
    omega

/-- The counter of a semaphore that has started with permits is in step with the queue, all along.
-/
theorem Story.metered (story : Story polite σ D E) (joined : .joins .semaphore p sem ∈ E)
    (start : 0 ≤ p)
    (fits : E.Fits sem p) : D.Metered sem p E := by
  induction story with
  | opening => cases joined
  | thread before ih => exact ih joined fits
  | @lock σ D E kind initial l before new ih =>
    rcases List.mem_append.1 joined with old | joins
    · have ne : sem ≠ l := by
        rintro rfl
        exact new _ (before.known old)
      exact (ih old fits.of_append).congr (by simp [Desk.addLock, ne])
        (by simp [Desk.addLock, ne]) rfl
    · cases List.mem_singleton.1 joins
      have emptied : Chronicle.on (E ++ [.joins .semaphore p sem]) sem = [] := by
        rw [Chronicle.on_quiet rfl, before.off new]
      have start : 0 ≤ p.toInt := by simpa [Int64.le_iff_toInt_le] using start
      refine ⟨?_, ?_, ?_⟩
      · simp [Desk.addLock, Chronicle.balance, Chronicle.callers, Chronicle.releases, emptied]
      · simp only [Desk.addLock, Function.update_self, List.length_nil]
        omega
      · simp [Desk.addLock, Chronicle.callers, Chronicle.granted, emptied]
  | @call σ D D' E c r before present calm did ih =>
    have old : .joins .semaphore p sem ∈ E := (List.mem_append.1 joined).resolve_right (by simp)
    have metered := ih old fits.of_append
    by_cases here : ∃ kind, c.target = some (kind, sem)
    · obtain ⟨kind, here⟩ := here
      obtain rfl := before.one_kind (present.1 _ here) (before.known old)
      obtain ⟨low, high⟩ := fits _ List.prefix_rfl
      exact (did.counts here (by decide)).metered here metered low high rfl
    · have off : ∀ kind, c.target ≠ some (kind, sem) := fun kind h => here ⟨kind, h⟩
      exact metered.congr (did.elsewhere off).1 (did.elsewhere off).2 (Chronicle.on_elsewhere off)

/-! ## What calls on a semaphore find and do -/

/-- A semaphore that started with `p` permits accounts for them: what its counter, its waiting
threads and the run queue say, and what calls do next. -/
structure Semaphore.Accounts (polite : Bool) (k : Contest) (E : Chronicle) (sem : Address)
    (p permits : Int64)
    (waiting run : List Address) : Prop where
  counter : Semaphore.permits sem k.heap = .ok permits
  waiters : LockKind.semaphore.waiting sem k.heap = .ok waiting
  runQueue : Scheduler.threads k.lobby.scheduler k.heap = .ok run
  /-- Each call of `acquire` has taken a permit, and each call of `release` has given one. -/
  balance : permits.toInt = p.toInt - (E.callers sem).length + E.releases sem
  parked : (waiting.length : Int) = max 0 (-permits.toInt)
  /-- Those who called got a permit, and were put on the run queue, in this order, and the others
  wait in this order. -/
  order : E.callers sem = E.granted sem ++ waiting
  /-- A call of `acquire` goes through if there is a permit, and the thread waits otherwise. -/
  acquire : ∀ {t b h}, t ∈ k.lobby.threads → Int64.minValue < permits →
    Semaphore.acquire sem t k.lobby.scheduler k.heap = .ok b h →
    b = decide (0 < permits) ∧
      LockKind.semaphore.waiting sem h = .ok (if b then waiting else waiting ++ [t]) ∧
      Scheduler.threads k.lobby.scheduler h = .ok (if b then run ++ [t] else run)
  /-- A call of `release` makes the first waiting thread runnable. -/
  release : ∀ {h}, permits < Int64.maxValue →
  Semaphore.release sem k.lobby.scheduler k.heap = .ok () h →
    LockKind.semaphore.waiting sem h = .ok waiting.tail ∧
      Scheduler.threads k.lobby.scheduler h = .ok (run ++ waiting.head?.toList)
  /-- It fails for want of memory only. -/
  accounted : ∀ {e h}, permits < Int64.maxValue →
    Semaphore.release sem k.lobby.scheduler k.heap = .error e h → e.isShortage
  /-- Nobody waits twice, and nothing but a call of `release` makes a waiting thread runnable. -/
  once : polite = true → waiting.Nodup ∧ ∀ {F k'}, k.Goes true F k' →
  ∀ t ∈ waiting, t ∈ k.gained k' →
    ∃ r g, F = [.calls (.release sem) r g]

/-- A semaphore that starts with permits grants them in the order of the calls, and its counter says
how many are left or how many threads wait. -/
theorem Contested.permits_accounted (contested : Contested polite k E)
    (joined : .joins .semaphore p sem ∈ E)
    (start : 0 ≤ p) (fits : E.Fits sem p) :
    ∃ permits waiting run, Semaphore.Accounts polite k E sem p permits waiting run := by
  obtain ⟨place, D, hosts, story⟩ := contested.story
  have hl := story.known joined
  have metered := story.metered joined start fits
  have parked := metered.parked
  refine ⟨D.counter sem, (D.waiting sem).map Prod.snd, D.runnable, hosts.counter hl,
    hosts.waiting hl,
    hosts.threads, metered.counter, by
      rwa [List.length_map], metered.order, fun {t b h} ht low run => ?_,
    fun {h} high run => ?_, fun {e h} high run => ?_, ?_⟩
  · have free_iff : 0 ≤ D.counter sem - 1 ↔ 0 < D.counter sem := by
      rw [Int64.le_iff_toInt_le, Int64.lt_iff_toInt_lt, toInt_pred low, Int64.toInt_zero]
      omega
    rcases (hosts.acquire (n := 0) hl ht).yields _ _ run with ⟨free, rfl, hosts⟩ | ⟨owed, rfl, w,
      hosts⟩
    · exact ⟨by simp [free_iff.1 free], by simp [hosts.waiting hl, Desk.grant, Desk.count],
        by simp [hosts.threads, Desk.grant, Desk.count]⟩
    · rw [free_iff] at owed
      exact ⟨by simp [owed], by simp [hosts.waiting hl, Desk.park, Desk.count],
        by simp [hosts.threads, Desk.park, Desk.count]⟩
  · rcases (hosts.release (n := 0) hl).yields _ _ run with ⟨free, hosts⟩ | ⟨owed, x, rest, waits,
      hosts⟩
    · rw [Int64.le_iff_toInt_le, toInt_succ high, Int64.toInt_zero] at free
      have idle : D.waiting sem = [] := List.eq_nil_of_length_eq_zero (by omega)
      exact ⟨by simp [hosts.waiting hl, Desk.count, idle], by
        simp [hosts.threads, Desk.count, idle]⟩
    · exact ⟨by simp [hosts.waiting hl, Desk.grant, Desk.serve, Desk.count, waits],
        by simp [hosts.threads, Desk.grant, Desk.serve, Desk.count, waits]⟩
  · rcases hosts.release (n := 0) hl with ⟨_, _, run', -⟩ | ⟨_, _, run',
      ⟨short, -⟩ | ⟨-, owed, idle, -⟩⟩
    · rw [run] at run'
      cases run'
    · rw [run] at run'
      cases run'
      exact short
    · rw [Int64.le_iff_toInt_le, toInt_succ high, Int64.toInt_zero] at owed
      rw [idle, List.length_nil] at parked
      omega
  · rintro rfl
    have once : D.Once k.lobby := story.once
    refine ⟨hosts.waiting_nodup once hl, fun {F k'} goes t ht gained => ?_⟩
    obtain ⟨c, r, D', rfl, here, others, did, drop⟩ := goes.served hosts once hl ht gained
    have counts := did.counts here (by decide)
    cases counts with
    | @admits _ t' =>
      have mine : t = t' := by simpa [drop, Desk.grant, Desk.count] using gained
      exact absurd (congrArg some mine.symm) others
    | queues => simp [drop, Desk.park, Desk.count] at gained
    | returns | passes | unaccounted =>
      cases here
      exact ⟨_, _, rfl⟩
    | negative | adds | opens | goesOn | stays => cases here

/-- A semaphore starts with one permit and three threads ask for one. The first gets it, the second
does when it is given back, and the third waits. -/
theorem Contested.accounted_one_permit : ∃ k E sem run t₁ t₂ t₃, Contested true k E ∧
    .joins .semaphore 1 sem ∈ E ∧ (0 : Int64) ≤ 1 ∧ E.Fits sem 1 ∧ E.granted sem = [t₁, t₂] ∧
    Semaphore.Accounts true k E sem 1 (-1) [t₃] run := by
  let acts : List Contest.Act :=
    [.thread 0 .nil .nil, .thread 1 .nil .nil, .thread 2 .nil .nil, .lock .semaphore 1,
    .call (.acquire ⟨113⟩ ⟨17⟩), .call (.acquire ⟨113⟩ ⟨49⟩), .call .next,
    .call (.acquire ⟨113⟩ ⟨81⟩),
    .call (.release ⟨113⟩)]
  have ran : (match Contest.fresh 256 with
    | some k₀ => match k₀.tell [] acts with
      | some (_, E) =>
          .joins .semaphore 1 ⟨113⟩ ∈ E ∧ E.Fits ⟨113⟩ 1 ∧ E.callers ⟨113⟩ = [⟨17⟩, ⟨49⟩, ⟨81⟩] ∧
        E.granted ⟨113⟩ = [⟨17⟩, ⟨49⟩] ∧ E.releases ⟨113⟩ = 1
      | none => false
    | none => false) = true := by decide +kernel
  split at ran
  · next k₀ made =>
    split at ran
    · next k E told =>
      obtain ⟨joined, fits, callers, granted, releases⟩ := of_decide_eq_true ran
      have contested := (Contested.fresh made).tell told
      obtain ⟨permits, waiting, run, accounts⟩ :=
        Contested.permits_accounted contested joined (by decide) fits
      have order := accounts.order
      have balance := accounts.balance
      simp only [callers, granted, List.cons_append, List.nil_append, List.cons.injEq,
        true_and] at order
      simp only [callers, releases, List.length_cons, List.length_nil] at balance
      obtain rfl : permits = -1 := Int64.toInt_inj.1 (by simpa using balance)
      subst order
      exact ⟨k, E, ⟨113⟩, run, ⟨17⟩, ⟨49⟩, ⟨81⟩, contested, joined, by
        decide, fits, granted, accounts⟩
    · cases ran
  · cases ran

end GoMachine
