import GoMachine.Proofs.Locking.Chronicle
/-!
# Wait groups

The counter of a wait group is the sum of the changes that it has accepted. It is never negative,
and threads wait only while it is positive: the change that brings it to zero lets all of them go
on.

* `LockCall.Counts.gathered`: what a call keeps.
* `Contested.barrier`: what the counter is, who waits, and whom calls put on the run queue.
-/
namespace GoMachine

variable {σ : Lobby} {place : Option Address → Address} {D D' : Desk} {O : Multiset Address}
    {n : Nat}
  {h : Heap} {l wg t : Address} {c : LockCall} {r : Except Fault Bool} {k k' : Contest}
  {E F : Chronicle} {polite : Bool} {kind : LockKind} {g : List Address}

theorem Chronicle.deltas_call (here : c.target = some (kind, wg)) :
    Chronicle.deltas (E ++ [.calls c r g]) wg = E.deltas
    wg ++ (LockCall.delta? (c, r, g)).toList := by
  cases e : LockCall.delta? (c, r, g) <;> simp [deltas, on_call here, e]

/-- The counter of a wait group is the sum of the changes, and positive while threads wait. -/
structure Desk.Gathered (D : Desk) (wg : Address) (E : Chronicle) : Prop where
  counter : (D.counter wg).toInt = ((E.deltas wg).map Int64.toInt).sum
  nonneg : 0 ≤ (D.counter wg).toInt
  positive : D.waiting wg ≠ [] → D.counter wg ≠ 0
  order : E.callers wg = E.granted wg ++ (D.waiting wg).map Prod.snd

theorem Desk.Gathered.congr (gathered : D.Gathered wg E) (counter : D'.counter wg = D.counter wg)
    (waiting : D'.waiting wg = D.waiting wg) (quiet : F.on wg = []) : D'.Gathered wg (E ++ F) := by
  have same := Chronicle.on_quiet (E := E) quiet
  refine ⟨?_, by rw [counter]; exact gathered.nonneg, by
    rw [waiting, counter]; exact gathered.positive, ?_⟩
  · simp only [Chronicle.deltas, same, counter]
    exact gathered.counter
  · simp only [Chronicle.callers, Chronicle.granted, same, waiting]
    exact gathered.order

/-- A call on a wait group keeps the counter the sum of the changes, and lets threads go on in the
order in which they came. -/
theorem LockCall.Counts.gathered (counts : c.Counts D r D')
    (here : c.target = some (.waitGroup, wg))
    (gathered : D.Gathered wg E) (gained : g = D'.runnable.drop D.runnable.length) :
    D'.Gathered wg (E ++ [.calls c r g]) := by
  obtain ⟨counter, nonneg, positive, order⟩ := gathered
  have deltas := Chronicle.deltas_call (r := r) (g := g) (E := E) here
  have callers := Chronicle.callers_call (r := r) (g := g) (E := E) here
  have granted := Chronicle.granted_call (r := r) (g := g) (E := E) here
  cases counts <;> cases here <;> simp only [LockCall.delta?, LockCall.caller, Option.toList_some,
    Option.toList_none, List.append_nil] at deltas callers
  case negative delta negative =>
    have only : g = [] := by simpa using gained
    refine ⟨by rw [deltas, counter], nonneg, positive, ?_⟩
    rw [callers, granted, order, only, List.append_nil]
  case adds delta positive' nonzero =>
    have sum := toInt_add_of_nonneg nonneg (by simpa [Int64.lt_iff_toInt_lt] using positive')
    have only : g = [] := by simpa [Desk.count] using gained
    refine ⟨?_, ?_, ?_, ?_⟩
    · simp only [deltas, Desk.count, Function.update_self, List.map_append, List.sum_append, sum,
        counter]
      simp
    · simpa [Desk.count, Int64.lt_iff_toInt_lt] using positive'
    · simpa [Desk.count] using fun _ => nonzero
    · rw [callers, granted, order, only]
      simp [Desk.count]
  case opens delta zero =>
    have sum := toInt_add_of_nonneg (a := D.counter wg) (b := delta) nonneg (by simp [zero])
    rw [zero, Int64.toInt_zero] at sum
    have only : g = (D.waiting wg).map Prod.snd := by simpa [Desk.serveAll, Desk.count] using gained
    refine ⟨?_, ?_, ?_, ?_⟩
    · simp [deltas, Desk.serveAll, Desk.count, ← counter, ← sum]
    · simp [Desk.serveAll, Desk.count]
    · simp [Desk.serveAll, Desk.count]
    · rw [callers, granted, order, only]
      simp [Desk.serveAll, Desk.count]
  case goesOn t zero =>
    have idle : D.waiting wg = [] := by
      by_contra waits
      exact positive waits zero
    have only : g = [t] := by simpa [Desk.grant] using gained
    refine ⟨by rw [deltas]; exact counter, nonneg, positive, ?_⟩
    rw [callers, granted, order, only]
    simp [Desk.grant, idle]
  case stays t w nonzero =>
    have only : g = [] := by simpa [Desk.park] using gained
    refine ⟨by rw [deltas]; exact counter, nonneg, fun _ => nonzero, ?_⟩
    rw [callers, granted, order, only]
    simp [Desk.park]

theorem Story.gathered (story : Story polite σ D E) (joined : .joins .waitGroup 0 wg ∈ E) :
    D.Gathered wg E := by
  induction story with
  | opening => cases joined
  | thread before ih => exact ih joined
  | @lock σ D E kind initial l before new ih =>
    rcases List.mem_append.1 joined with old | joins
    · have ne : wg ≠ l := by
        rintro rfl
        exact new _ (before.known old)
      exact (ih old).congr (by simp [Desk.addLock, ne]) (by simp [Desk.addLock, ne]) rfl
    · cases List.mem_singleton.1 joins
      have emptied : Chronicle.on (E ++ [.joins .waitGroup 0 wg]) wg = [] := by
        rw [Chronicle.on_quiet rfl, before.off new]
      exact ⟨by simp [Desk.addLock, Chronicle.deltas, emptied], by simp [Desk.addLock], by
        simp [Desk.addLock],
        by simp [Desk.addLock, Chronicle.callers, Chronicle.granted, emptied]⟩
  | @call σ D D' E c r before present calm did ih =>
    have old : .joins .waitGroup 0 wg ∈ E := (List.mem_append.1 joined).resolve_right (by simp)
    by_cases here : ∃ kind, c.target = some (kind, wg)
    · obtain ⟨kind, here⟩ := here
      obtain rfl := before.one_kind (present.1 _ here) (before.known old)
      exact (did.counts here (by decide)).gathered here (ih old) rfl
    · have off : ∀ kind, c.target ≠ some (kind, wg) := fun kind h => here ⟨kind, h⟩
      exact (ih old).congr (did.elsewhere off).1 (did.elsewhere off).2 (Chronicle.on_elsewhere off)

/-! ## What calls on a wait group find and do -/

/-- A wait group is a barrier: what its counter, its waiting threads and the run queue say, and what
calls do next. -/
structure WaitGroup.Barrier (polite : Bool) (k : Contest) (E : Chronicle) (wg : Address)
    (count : Int64)
    (waiting run : List Address) : Prop where
  counter : WaitGroup.count wg k.heap = .ok count
  waiters : LockKind.waitGroup.waiting wg k.heap = .ok waiting
  runQueue : Scheduler.threads k.lobby.scheduler k.heap = .ok run
  /-- The counter is the sum of the accepted changes. -/
  sum : count.toInt = ((E.deltas wg).map Int64.toInt).sum
  nonneg : 0 ≤ count
  positive : waiting ≠ [] → 0 < count
  /-- Those who called `wait` were put on the run queue in this order, and the others wait in this
  order. -/
  order : E.callers wg = E.granted wg ++ waiting
  /-- A call of `wait` goes through if the counter is zero, and the thread waits otherwise. -/
  wait : ∀ {t b h}, t ∈ k.lobby.threads → WaitGroup.wait wg t k.lobby.scheduler k.heap = .ok b h →
    b = decide (count = 0) ∧
      LockKind.waitGroup.waiting wg h = .ok (if b then waiting else waiting ++ [t]) ∧
      Scheduler.threads k.lobby.scheduler h = .ok (if b then run ++ [t] else run)
  /-- A call of `add` that brings the counter to zero makes all waiting threads runnable at once;
  any other one makes none runnable. -/
  add : ∀ {delta h}, WaitGroup.add wg delta k.lobby.scheduler k.heap = .ok () h →
    0 ≤ count.toInt + delta.toInt ∧ WaitGroup.count wg h = .ok (count + delta) ∧
      LockKind.waitGroup.waiting wg h = .ok
      (if count.toInt + delta.toInt = 0 then [] else waiting) ∧
      Scheduler.threads k.lobby.scheduler h = .ok
      (if count.toInt + delta.toInt = 0 then run ++ waiting else run)
  /-- A call that would make the counter negative is refused, and changes nothing. -/
  refused : ∀ {delta}, count.toInt + delta.toInt < 0 →
    WaitGroup.add wg delta k.lobby.scheduler k.heap = .error .negativeWaitGroup k.heap
  /-- Any other one fails for want of memory only, unless the counter overflows. -/
  accepted : ∀ {delta e h}, 0 ≤ count.toInt + delta.toInt → count.toInt + delta.toInt < 2 ^ 63 →
    WaitGroup.add wg delta k.lobby.scheduler k.heap = .error e h → e.isShortage
  /-- Threads wait until the counter is brought to zero, whatever else happens. -/
  patient : ∀ {F k'}, k.Goes polite F k' → LockKind.waitGroup.waiting wg k'.heap = .ok waiting ∨
    (∃ t r g, F = [.calls (.wait wg t) r g]) ∨
    ∃ delta r g, F = [.calls (.add wg delta) r g] ∧ count.toInt + delta.toInt = 0
  /-- Nobody waits twice, and a waiting thread is made runnable together with all the others, when
  the counter is brought to zero and not before. -/
  once : polite = true → waiting.Nodup ∧ ∀ {F k'}, k.Goes true F k' →
  ∀ t ∈ waiting, t ∈ k.gained k' →
    ∃ delta r, F = [.calls (.add wg delta) r waiting] ∧ count.toInt + delta.toInt = 0

/-- A sum with a counter that is not negative is zero if it is zero in 64 bits. -/
theorem add_eq_zero_iff {a b : Int64} (ha : 0 ≤ a.toInt) : a + b = 0 ↔ a.toInt + b.toInt = 0 := by
  constructor
  · intro zero
    rw [← toInt_add_of_nonneg ha (by simp [zero]), zero, Int64.toInt_zero]
  · intro zero
    rw [← Int64.toInt_inj, Int64.toInt_add, zero]
    rfl

/-- A wait group lets nobody go on before its counter is zero, and then all who wait for it. -/
theorem Contested.barrier (contested : Contested polite k E) (joined : .joins .waitGroup 0 wg ∈ E) :
    ∃ count waiting run, WaitGroup.Barrier polite k E wg count waiting run := by
  obtain ⟨place, D, hosts, story⟩ := contested.story
  have hl := story.known joined
  obtain ⟨counter, nonneg, positive, order⟩ := story.gathered joined
  have zero_iff : ∀ {delta}, D.counter wg + delta = 0 ↔ (D.counter wg).toInt + delta.toInt = 0 :=
    add_eq_zero_iff nonneg
  refine ⟨D.counter wg, (D.waiting wg).map Prod.snd, D.runnable, hosts.counter hl, hosts.waiting hl,
    hosts.threads, counter, by simpa [Int64.le_iff_toInt_le] using nonneg, fun waits => ?_, order,
    fun {t b h} ht run => ?_, fun {delta h} run => ?_, fun {delta} negative => ?_,
    fun {delta e h} low high run => ?_, fun {F k'} goes => ?_, ?_⟩
  · have ne : (D.counter wg).toInt ≠ 0 := fun e =>
      positive (fun idle => waits (by simp [idle])) (Int64.toInt_inj.1 e)
    rw [Int64.lt_iff_toInt_lt, Int64.toInt_zero]
    omega
  · rcases (hosts.wait (n := 0) hl ht).yields _ _ run with ⟨zero, rfl, hosts⟩ | ⟨nonzero, rfl, w,
      hosts⟩
    · exact ⟨by simp [zero], by simp [hosts.waiting hl, Desk.grant], by
        simp [hosts.threads, Desk.grant]⟩
    · exact ⟨by simp [nonzero], by simp [hosts.waiting hl, Desk.park], by
        simp [hosts.threads, Desk.park]⟩
  · rcases hosts.add (n := 0) hl delta with ⟨negative, refused⟩ | ⟨fits, done⟩
    · rw [run] at refused
      cases refused
    · have sum := toInt_add_of_nonneg nonneg (by simpa [Int64.lt_iff_toInt_lt] using fits)
      have low : 0 ≤ (D.counter wg).toInt + delta.toInt := by
        rw [← sum]
        simpa [Int64.lt_iff_toInt_lt] using fits
      rcases done.yields _ _ run with ⟨nonzero, hosts⟩ | ⟨zero, hosts⟩
      · rw [if_neg (zero_iff.not.1 nonzero), if_neg (zero_iff.not.1 nonzero)]
        exact ⟨low, (hosts.counter hl).trans (by simp [Desk.count]), hosts.waiting hl,
          hosts.threads⟩
      · rw [if_pos (zero_iff.1 zero), if_pos (zero_iff.1 zero), zero]
        exact ⟨low, (hosts.counter hl).trans (by simp [Desk.serveAll, Desk.count]),
          (hosts.waiting hl).trans (by simp [Desk.serveAll, Desk.count]), hosts.threads⟩
  · rcases hosts.add (n := 0) hl delta with ⟨-, refused⟩ | ⟨fits, -⟩
    · exact refused
    · have := delta.le_toInt
      rw [Int64.lt_iff_toInt_lt, Int64.toInt_zero, toInt_add_of_fits (by omega) (by omega)] at fits
      exact absurd negative fits
  · rcases hosts.add (n := 0) hl delta with ⟨negative, -⟩ | ⟨-,
      ⟨_, _, run', -⟩ | ⟨_, _, run', short, -⟩⟩
    · rw [Int64.lt_iff_toInt_lt, Int64.toInt_zero, toInt_add_of_fits (by omega) high] at negative
      omega
    · rw [run] at run'
      cases run'
    · rw [run] at run'
      cases run'
      exact short
  · obtain ⟨hl', ⟨_, D', hosts', -, same⟩ | ⟨c, r, g, D', rfl, here, hosts', did⟩⟩ :=
      goes.leaves_or_calls hosts hl
    · exact .inl (same ▸ hosts'.waiting hl')
    · have counts := did.counts here (by decide)
      cases counts with
      | negative | adds | goesOn => exact .inl (hosts'.waiting hl')
      | stays =>
        cases here
        exact .inr (.inl ⟨_, _, _, rfl⟩)
      | opens zero =>
        cases here
        exact .inr (.inr ⟨_, _, _, rfl, zero_iff.1 zero⟩)
      | admits | queues | returns | passes | unaccounted => cases here
  · rintro rfl
    have once : D.Once k.lobby := story.once
    refine ⟨hosts.waiting_nodup once hl, fun {F k'} goes t ht gained => ?_⟩
    obtain ⟨c, r, D', rfl, here, others, did, drop⟩ := goes.served hosts once hl ht gained
    have counts := did.counts here (by decide)
    cases counts with
    | negative => simp [drop] at gained
    | adds => simp [drop, Desk.count] at gained
    | opens zero =>
      cases here
      exact ⟨_, .ok true, by simp [drop, Desk.serveAll, Desk.count], zero_iff.1 zero⟩
    | @goesOn _ t' =>
      have mine : t = t' := by simpa [drop, Desk.grant] using gained
      exact absurd (congrArg some mine.symm) others
    | stays => simp [drop, Desk.park] at gained
    | admits | queues | returns | passes | unaccounted => cases here

/-- Two threads go on when the counter is brought back to zero, and a third one waits after the wait
group is used again. -/
theorem Contested.barrier_reused : ∃ k E wg run t₁ t₂ t₃, Contested true k E ∧
    .joins .waitGroup 0 wg ∈ E ∧
    E.deltas wg = [3, -3, 1] ∧ E.granted wg = [t₁, t₂] ∧
    WaitGroup.Barrier true k E wg 1 [t₃] run := by
  let acts : List Contest.Act := [.thread 0 .nil .nil, .thread 1 .nil .nil, .thread 2 .nil .nil,
    .lock .waitGroup 0, .call (.add ⟨113⟩ 3), .call (.wait ⟨113⟩ ⟨17⟩), .call (.wait ⟨113⟩ ⟨49⟩),
    .call (.add ⟨113⟩ (-3)), .call .next, .call (.add ⟨113⟩ (-1)), .call (.add ⟨113⟩ 1),
    .call (.wait ⟨113⟩ ⟨81⟩)]
  have ran : (match Contest.fresh 256 with
    | some k₀ => match k₀.tell [] acts with
      | some (_, E) => .joins .waitGroup 0 ⟨113⟩ ∈ E ∧ E.callers ⟨113⟩ = [⟨17⟩, ⟨49⟩, ⟨81⟩] ∧
        E.granted ⟨113⟩ = [⟨17⟩, ⟨49⟩] ∧ E.deltas ⟨113⟩ = [3, -3, 1]
      | none => false
    | none => false) = true := by decide +kernel
  split at ran
  · next k₀ made =>
    split at ran
    · next k E told =>
      obtain ⟨joined, callers, granted, deltas⟩ := of_decide_eq_true ran
      have contested := (Contested.fresh made).tell told
      obtain ⟨count, waiting, run, barrier⟩ := Contested.barrier contested joined
      have order := barrier.order
      have sum := barrier.sum
      simp only [callers, granted, List.cons_append, List.nil_append, List.cons.injEq,
        true_and] at order
      rw [deltas] at sum
      obtain rfl : count = 1 := Int64.toInt_inj.1 sum
      subst order
      exact ⟨k, E, ⟨113⟩, run, ⟨17⟩, ⟨49⟩, ⟨81⟩, contested, joined, deltas, granted, barrier⟩
    · cases ran
  · cases ran

end GoMachine
