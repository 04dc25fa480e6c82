import GoMachine.Proofs.Exchange.Session
/-!
# A select is completed once

A thread that waits behind one waker for the first of several cases is left alone by others until an
operation reaches one of its instances. It is served then, once, and waits nowhere any more.

* `Scene.Does.alike_or_resumed`: one event leaves a waiting thread alone or serves it.
* `Session.fate`: so does a whole continuation.
* `Session.select_once`: what comes of a `select`.
-/
namespace GoMachine

variable {M M' M'' : Scene} {t u v w z zero ch : Address} {zeros : List Address} {cases : List Case}
  {x y : Waiter} {c : Case} {e : Event} {got : Option Address} {again : Bool}

/-- The event is not one of a thread. -/
def Event.Avoids (t : Address) : Event → Prop
  | .completed _ u _ | .parked u _ => u ≠ t
  | _ => True

namespace Scene

/-- As far as a thread is concerned, two scenes look the same. -/
structure Alike (t : Address) (M M' : Scene) : Prop where
  senders : ∀ ch, (M'.channel ch).senders.filter (·.thread = t) = (M.channel ch).senders.filter
      (·.thread = t)
  receivers : ∀ ch,
    (M'.channel ch).receivers.filter (·.thread = t) = (M.channel ch).receivers.filter (·.thread = t)
  stash : M'.stash t = M.stash t
  control : M'.control t = M.control t
  turns : M'.runnable.count t = M.runnable.count t

/-- A thread waits nowhere. -/
def Free (M : Scene) (t : Address) : Prop := ∀ ch, ∀ x ∈ (M.channel ch).waiters, x.thread ≠ t

/-- A thread that waited has gone on with a case: it got a value, if any, and the body of the case,
and is in the run queue once more. -/
structure Resumed (t : Address) (M M' : Scene) (c : Case) (got : Option Address) : Prop where
  free : M'.Free t
  stash : M'.stash t = got.toList ++ M.stash t
  control : M'.control t = (if c.body.isNil then [] else [c.body]) ++ M.control t
  turns : M'.runnable.count t = M.runnable.count t + 1

/-- An event reaches the instance of a waiting thread for a case, which gets a value if it receives.
-/
inductive Reaches (M : Scene) (t : Address) : Event → Case → Option Address → Prop where
  | send {again : Bool} {u ch v b : Address} {x : Waiter} {xs : List Waiter}
    (first : (M.channel ch).receivers = x :: xs) (mine : x.thread = t) :
    Reaches M t (.completed again u (.send ch v b)) (.receive ch x.body) (some v)
  | receive {again : Bool} {u ch b : Address} {x : Waiter} {xs : List Waiter}
    (first : (M.channel ch).senders = x :: xs) (mine : x.thread = t) :
    Reaches M t (.completed again u (.receive ch b)) (.send ch x.value x.body) none
  | close {ch zero : Address} {x : Waiter}
    (first : ((M.channel ch).receivers.filter (·.thread = t)).head? = some x) :
    Reaches M t (.closed ch) (.receive ch x.body) (some zero)

/-- A thread waits behind one waker, and nobody else does. -/
def Tied (M : Scene) (t : Address) : Prop := ∀ ch, ∀ x ∈ (M.channel ch).waiters, ∀ ch', ∀ y ∈
  (M.channel ch').waiters, x.thread = t → (y.thread = t ↔ y.waker = x.waker)

/-! ## Left alone -/

namespace Alike

theorem refl : Alike t M M := ⟨fun _ => rfl, fun _ => rfl, rfl, rfl, rfl⟩

theorem trans (a : Alike t M M') (b : Alike t M' M'') : Alike t M M'' where
  senders ch := (b.senders ch).trans (a.senders ch)
  receivers ch := (b.receivers ch).trans (a.receivers ch)
  stash := b.stash.trans a.stash
  control := b.control.trans a.control
  turns := b.turns.trans a.turns

/-- The same threads wait. -/
theorem of_waiters (views : ∀ ch, (M'.channel ch).senders = (M.channel ch).senders ∧
      (M'.channel ch).receivers = (M.channel ch).receivers) (stash : M'.stash t = M.stash t)
    (control : M'.control t = M.control t) (turns : M'.runnable.count t = M.runnable.count t) :
    Alike t M M' :=
  ⟨fun ch => by rw [(views ch).1], fun ch => by rw [(views ch).2], stash, control, turns⟩

theorem push (other : u ≠ t) : Alike t M (M.push u v) :=
  of_waiters (fun _ => ⟨rfl, rfl⟩) (Function.update_of_ne other.symm ..) rfl rfl

theorem setBuffer {vs : List Address} : Alike t M (M.setBuffer ch vs) := by
  refine of_waiters (fun c => ?_) rfl rfl rfl
  rw [Scene.setBuffer, channel_put]
  split
  · next e => exact e ▸ ⟨rfl, rfl⟩
  · exact ⟨rfl, rfl⟩

theorem enqueueIf (other : u ≠ t) : Alike t M (M.enqueueIf again u) := by
  cases again with
  | false => exact refl
  | true =>
    refine of_waiters (fun _ => ⟨rfl, rfl⟩) rfl rfl ?_
    simp [Scene.enqueueIf, enqueue, other]

/-- Another thread goes on. -/
theorem wake (other : x.thread ≠ t)
    (apart : ∀ ch, ∀ y ∈ (M.channel ch).waiters, y.thread = t → y.waker ≠ x.waker) :
        Alike t M (M.wake x) := by
  have still {l : List Waiter} (mem : ∀ y ∈ l, y.thread = t → y.waker ≠ x.waker) :
      (l.filter (·.waker ≠ x.waker)).filter (·.thread = t) = l.filter (·.thread = t) := by
    rw [List.filter_filter]
    refine List.filter_congr fun y hy => ?_
    by_cases mine : y.thread = t
    · simp [mine, mem y hy mine]
    · simp [mine]
  refine ⟨fun ch => still fun y hy => apart ch y (List.mem_append_left _ hy),
    fun ch => still fun y hy => apart ch y (List.mem_append_right _ hy), rfl, ?_, ?_⟩
  · unfold Scene.wake
    split
    · rfl
    · exact Function.update_of_ne other.symm ..
  · simp [Scene.wake, other]

theorem park (other : u ≠ t) : Alike t M (M.park w u cases) := by
  have emptied (l : List Case) : (l.map (·.waiter w u)).filter (·.thread = t) = [] := by
    refine List.filter_eq_nil_iff.2 fun y hy => ?_
    obtain ⟨k, -, rfl⟩ := List.mem_map.1 hy
    exact ne_true_of_eq_false (decide_eq_false other)
  have rest : (M.park w u cases).stash = M.stash ∧ (M.park w u cases).control = M.control ∧
      (M.park w u cases).runnable = M.runnable := by
    induction cases generalizing M with
    | nil => exact ⟨rfl, rfl, rfl⟩
    | cons k cases ih =>
      obtain ⟨stash, control, turns⟩ := ih (M := M.register w u k)
      have here : (M.register w u k).stash = M.stash ∧ (M.register w u k).control = M.control ∧
          (M.register w u k).runnable = M.runnable := by
        cases k <;> simp only [register] <;> split <;> exact ⟨rfl, rfl, rfl⟩
      exact ⟨stash.trans here.1, control.trans here.2.1, turns.trans here.2.2⟩
  refine ⟨fun ch => ?_, fun ch => ?_, congrFun rest.1 t, congrFun rest.2.1 t, by rw [rest.2.2]⟩
  · rw [park_channel, List.filter_append, emptied, List.append_nil]
  · rw [park_channel, List.filter_append, emptied, List.append_nil]

/-- Who waits nowhere waits nowhere still. -/
theorem free (a : Alike t M M') (free : M.Free t) : M'.Free t := by
  intro ch x hx mine
  rcases List.mem_append.1 hx with hx | hx
  · have : x ∈ (M.channel ch).senders.filter (·.thread = t) := by
      rw [← a.senders ch]
      exact List.mem_filter.2 ⟨hx, by simpa using mine⟩
    exact free ch x (List.mem_append_left _ (List.mem_filter.1 this).1) mine
  · have : x ∈ (M.channel ch).receivers.filter (·.thread = t) := by
      rw [← a.receivers ch]
      exact List.mem_filter.2 ⟨hx, by simpa using mine⟩
    exact free ch x (List.mem_append_right _ (List.mem_filter.1 this).1) mine

end Alike

/-! ## Served -/

namespace Resumed

/-- Others leave it alone afterwards. -/
theorem trans (r : Resumed t M M' c got) (a : Alike t M' M'') : Resumed t M M'' c got where
  free := a.free r.free
  stash := a.stash.trans r.stash
  control := a.control.trans r.control
  turns := a.turns.trans r.turns

theorem of_alike (a : Alike t M M') (r : Resumed t M' M'' c got) : Resumed t M M'' c got where
  free := r.free
  stash := r.stash.trans (by rw [a.stash])
  control := r.control.trans (by rw [a.control])
  turns := r.turns.trans (by rw [a.turns])

/-- The thread of an instance goes on, and waits nowhere any more. -/
theorem wake (tied : M.Tied t) (hx : x ∈ (M.channel ch).waiters) (mine : x.thread = t)
    (body : c.body = x.body) :
    Resumed t M (M.wake x) c none where
  free ch' y hy mine' := by
    have kept : y ∈ (M.channel ch').waiters ∧ y.waker ≠ x.waker := by
      rcases List.mem_append.1 hy with hy | hy
      · exact ⟨List.mem_append_left _ (List.mem_filter.1 hy).1, by
          simpa using (List.mem_filter.1 hy).2⟩
      · exact ⟨List.mem_append_right _ (List.mem_filter.1 hy).1, by
          simpa using (List.mem_filter.1 hy).2⟩
    exact kept.2 ((tied ch x hx ch' y kept.1 mine).1 mine')
  stash := rfl
  control := by
    unfold Scene.wake
    rw [body]
    split
    · rfl
    · simp [mine]
  turns := by simp [Scene.wake, mine]

theorem push (r : Resumed t M M' c none) : Resumed t M (M'.push t v) c (some v) where
  free := r.free
  stash := by simp [Scene.push, r.stash]
  control := r.control
  turns := r.turns

end Resumed
/-! ## One event -/

namespace Tied

/-- Somebody else is behind another waker. -/
theorem apart (tied : M.Tied t) (hx : x ∈ (M.channel ch).waiters) (other : x.thread ≠ t)
    (ch' : Address)
    (y : Waiter) (hy : y ∈ (M.channel ch').waiters) (mine : y.thread = t) : y.waker ≠ x.waker :=
  fun e => other ((tied ch' y hy ch x hx mine).2 e.symm)

theorem of_subset (tied : M.Tied t) (less : ∀ ch,
    (M'.channel ch).waiters ⊆ (M.channel ch).waiters) :
    M'.Tied t := fun ch x hx ch' y hy => tied ch x (less ch hx) ch' y (less ch' hy)

theorem wake (tied : M.Tied t) : (M.wake x).Tied t := tied.of_subset fun ch y hy => by
  rcases List.mem_append.1 hy with hy | hy
  · exact List.mem_append_left _ (List.mem_filter.1 hy).1
  · exact List.mem_append_right _ (List.mem_filter.1 hy).1

end Tied

/-- The threads that wait to receive get a value each: a thread among them is served once, with the
first of its instances. -/
theorem flush_alike_or_resumed (ch : Address) (zeros : List Address) (tied : M.Tied t) :
    Alike t M (M.flush ch zeros) ∨ ∃ x zero,
    ((M.channel ch).receivers.filter (·.thread = t)).head? = some x ∧
      Resumed t M (M.flush ch zeros) (.receive ch x.body) (some zero) := by
  induction zeros generalizing M with
  | nil => exact .inl .refl
  | cons z zs ih =>
    cases receivers : (M.channel ch).receivers with
    | nil =>
      refine .inl ?_
      rw [flush, receivers]
      exact .refl
    | cons x xs =>
      have hx : x ∈ (M.channel ch).waiters := List.mem_append_right _ (by simp [receivers])
      have next : M.flush ch (z :: zs) = ((M.wake x).push x.thread z).flush ch zs := by
        rw [flush, receivers]
      have rest := ih (M := (M.wake x).push x.thread z) tied.wake
      rw [next]
      by_cases mine : x.thread = t
      · have served : Resumed t M ((M.wake x).push x.thread z) (.receive ch x.body) (some z) := by
          rw [mine]
          exact (Resumed.wake tied hx mine rfl).push
        refine .inr ⟨x, z, by simp [mine], ?_⟩
        rcases rest with alike | ⟨y, -, first, -⟩
        · exact served.trans alike
        · obtain ⟨hy, mine'⟩ := List.mem_filter.1 (List.mem_of_mem_head? first)
          exact absurd (by simpa using mine') (served.free ch y (List.mem_append_right _ hy))
      · have alike : Alike t M ((M.wake x).push x.thread z) :=
          (Alike.wake mine (tied.apart hx mine)).trans (.push mine)
        rcases rest with alike' | ⟨y, zero, first, served⟩
        · exact .inl (alike.trans alike')
        · refine .inr ⟨y, zero, ?_, served.of_alike alike⟩
          rwa [alike.receivers ch, receivers] at first

/-- An event of others leaves a thread alone that waits behind one waker, or it reaches one of its
instances and serves it. -/
theorem Does.alike_or_resumed (did : M.Does e M') (tied : M.Tied t) (avoids : e.Avoids t) :
    Alike t M M' ∨ ∃ c got, M.Reaches t e c got ∧ Resumed t M M' c got := by
  cases did with
  | none => exact .inl .refl
  | @channel ch cap new =>
    refine .inl (.of_waiters (fun c => ?_) rfl rfl rfl)
    rw [channel_put]
    split
    · next e => rw [e, new]; exact ⟨rfl, rfl⟩
    · exact ⟨rfl, rfl⟩
  | parked => exact .inl (.park avoids)
  | @closed ch zeros _ served =>
    have same : Alike t M (M.put ch { M.channel ch with closed := true }) := by
      refine .of_waiters (fun c => ?_) rfl rfl rfl
      rw [channel_put]
      split
      · next e => exact e ▸ ⟨rfl, rfl⟩
      · exact ⟨rfl, rfl⟩
    have here : ((M.put ch { M.channel ch with closed := true }).channel ch).receivers =
        (M.channel ch).receivers := by rw [channel_put, if_pos rfl]
    have tied' : (M.put ch { M.channel ch with closed := true }).Tied t := tied.of_subset fun c =>
        by
      rw [channel_put]
      split
      · next e => exact e ▸ List.Subset.refl _
      · exact List.Subset.refl _
    rcases flush_alike_or_resumed ch zeros tied' with alike | ⟨x, zero, first, resumed⟩
    · exact .inl (same.trans alike)
    · exact .inr ⟨_, _, .close (here ▸ first), resumed.of_alike same⟩
  | @completed again u zero k ready =>
    have others : u ≠ t := avoids
    cases k with
    | send ch v body =>
      cases receivers : (M.channel ch).receivers with
      | nil =>
        refine .inl (.trans ?_ (.enqueueIf others))
        rw [complete, send_nil receivers]
        exact .setBuffer
      | cons x xs =>
        have hx : x ∈ (M.channel ch).waiters := List.mem_append_right _ (by simp [receivers])
        rw [complete, send_cons receivers]
        by_cases mine : x.thread = t
        · refine .inr ⟨_, _, .send receivers mine, .trans ?_ (.enqueueIf others)⟩
          rw [mine]
          exact (Resumed.wake tied hx mine rfl).push
        · exact .inl (((Alike.wake mine (tied.apart hx mine)).trans (.push mine)).trans
              (.enqueueIf others))
    | receive ch body =>
      cases senders : (M.channel ch).senders with
      | nil =>
        refine .inl (.trans ?_ (.enqueueIf others))
        cases buffer : (M.channel ch).buffer with
        | nil =>
          rw [complete, receive_zero senders buffer]
          exact .push others
        | cons v vs =>
          rw [complete, receive_buffer senders buffer]
          exact Alike.setBuffer.trans (.push others)
      | cons x xs =>
        have hx : x ∈ (M.channel ch).waiters := List.mem_append_left _ (by simp [senders])
        obtain ⟨front, rest, -, seen⟩ := receive_cons u zero senders
        have after : Alike t (M.wake x)
            ((M.complete u zero (.receive ch body)).enqueueIf again u) := by
          rw [complete, seen]
          exact (Alike.setBuffer.trans (.push others)).trans (.enqueueIf others)
        by_cases mine : x.thread = t
        · exact .inr ⟨_, _, .receive senders mine, (Resumed.wake tied hx mine rfl).trans after⟩
        · exact .inl ((Alike.wake mine (tied.apart hx mine)).trans after)

end Scene
/-! ## A continuation -/

/-- The thread that calls. -/
def Act.caller : Act → Option Address
  | .call c => c.caller
  | _ => none

namespace Exchange

/-- Others than a thread go on for a while. -/
inductive Goes (t : Address) (k : Exchange) : Exchange → Prop where
  | refl : Goes t k k
  | step {k' k'' : Exchange} {a : Act} {e : Event} (before : Goes t k k') (step : k'.Step a e k'')
    (others : a.caller ≠ some t) : Goes t k k''

/-- What becomes of a thread that waits for the first of some cases while others go on. Nothing has
happened to it, or one of the cases was completed by the first operation that reached one of its
instances, and nothing has happened to it since. -/
inductive Fate (t : Address) (cases : List Case) (k k' : Exchange) : Prop where
  | waiting (alone : k.scene.Alike t k'.scene)
  | completed {k₂ k₃ : Exchange} {a : Act} {e : Event} {c : Case} {got : Option Address}
    (before : k.Goes t k₂) (alone : k.scene.Alike t k₂.scene)
    (step : k₂.Step a e k₃) (others : a.caller ≠ some t) (did : k₂.scene.Does e k₃.scene)
    (one : c ∈ cases) (reached : k₂.scene.Reaches t e c got)
    (resumed : k₂.scene.Resumed t k₃.scene c got)
    (after : k₃.Goes t k') (alike : k₃.scene.Alike t k'.scene)

end Exchange

variable {k k' k₁ : Exchange} {a : Act} {L : Log}

/-- An act of others is an event of others. -/
theorem Exchange.Step.avoids (step : k.Step a e k') (real : t ≠ .nil) (others : a.caller ≠ some t) :
    e.Avoids t := by
  cases step with
  | channel => trivial
  | thread => trivial
  | number => trivial
  | @call c r h among run =>
    have others : c.caller ≠ some t := others
    unfold Call.event
    split <;> try split
    all_goals first
      | trivial
      | exact real.symm
      | exact fun e => others (congrArg some e)

theorem Session.goes (session : Session k L) (goes : k.Goes t k') : ∃ L', Session k' L' := by
  induction goes with
  | refl => exact ⟨L, session⟩
  | step before step others ih =>
    obtain ⟨L', session⟩ := ih
    exact ⟨_, session.step step⟩

/-- In a session each waker has one thread. -/
theorem Session.same_thread (session : Session k L) {ch' : Address}
    (hx : x ∈ (k.scene.channel ch).waiters)
    (hy : y ∈ (k.scene.channel ch').waiters) (same : x.waker = y.waker) : x.thread = y.thread := by
  obtain ⟨⟨place, I, stands⟩, -⟩ := session.sound
  have seen : k.scene = I.scene := stands.scene_eq
  rw [seen] at hx hy
  have thread {ch : Address} {x : Waiter} (hx : x ∈ (I.scene.channel ch).waiters) :
      x.thread = I.thread x.waker := by
    have live : ∃ p : Part, x ∈ I.live (I.content p) := (List.mem_append.1 hx).elim
      (fun h => ⟨.senders ch, h⟩) fun h => ⟨.receivers ch, h⟩
    obtain ⟨p, hx⟩ := live
    obtain ⟨j, -, here⟩ := List.mem_filterMap.1 hx
    obtain ⟨-, rfl⟩ := Stage.waiter?_eq_some.1 here
    rfl
  rw [thread hx, thread hy, same]

/-- A thread that waits behind one waker is tied to it. -/
theorem Session.tied (session : Session k L)
    (one : ∀ ch, ∀ x ∈ (k.scene.channel ch).waiters, x.thread = t → x.waker = w) :
    k.scene.Tied t := by
  intro ch x hx ch' y hy mine
  constructor
  · exact fun mine' => (one ch' y hy mine').trans (one ch x hx mine).symm
  · exact fun same => (session.same_thread hy hx same).trans mine

/-- Who waits for a thread in a scene that looks the same to it waited before. -/
theorem Scene.Alike.mem (ch : Address) (a : Scene.Alike t M M') (mine : x.thread = t) :
    (x ∈ (M'.channel ch).senders → x ∈ (M.channel ch).senders) ∧
    (x ∈ (M'.channel ch).receivers → x ∈ (M.channel ch).receivers) := by
  constructor
  · intro hx
    have : x ∈ (M.channel ch).senders.filter (·.thread = t) := by
      rw [← a.senders ch]
      exact List.mem_filter.2 ⟨hx, by simpa using mine⟩
    exact (List.mem_filter.1 this).1
  · intro hx
    have : x ∈ (M.channel ch).receivers.filter (·.thread = t) := by
      rw [← a.receivers ch]
      exact List.mem_filter.2 ⟨hx, by simpa using mine⟩
    exact (List.mem_filter.1 this).1

/-- The instances of a thread that waits for some cases, and that waited nowhere before, are those
of the cases. -/
theorem Scene.parked_case (ch : Address) (free : M.Free t) (a : Scene.Alike t (M.park w t cases) M')
    (mine : x.thread = t) :
    (x ∈ (M'.channel ch).senders → x.waker = w ∧ .send ch x.value x.body ∈ cases) ∧
    (x ∈ (M'.channel ch).receivers → x.waker = w ∧ .receive ch x.body ∈ cases) := by
  obtain ⟨senders, receivers⟩ := a.mem ch mine
  rw [park_channel] at senders receivers
  constructor
  · intro hx
    rcases List.mem_append.1 (senders hx) with old | new
    · exact absurd mine (free ch x (List.mem_append_left _ old))
    · obtain ⟨k, hk, rfl⟩ := List.mem_map.1 new
      obtain ⟨known, on⟩ := List.mem_filter.1 hk
      obtain ⟨c, v, body⟩ | ⟨c, body⟩ := k
      · obtain ⟨rfl, -⟩ : c = ch ∧ c.isNil = false := by simpa [Case.sendsOn] using on
        exact ⟨rfl, known⟩
      · cases on
  · intro hx
    rcases List.mem_append.1 (receivers hx) with old | new
    · exact absurd mine (free ch x (List.mem_append_right _ old))
    · obtain ⟨k, hk, rfl⟩ := List.mem_map.1 new
      obtain ⟨known, on⟩ := List.mem_filter.1 hk
      obtain ⟨c, v, body⟩ | ⟨c, body⟩ := k
      · cases on
      · obtain ⟨rfl, -⟩ : c = ch ∧ c.isNil = false := by simpa [Case.receivesOn] using on
        exact ⟨rfl, known⟩

/-- An event that reaches a waiting thread reaches one of its cases. -/
theorem Scene.Reaches.mem_cases (r : M'.Reaches t e c got) (free : M.Free t)
    (a : Scene.Alike t (M.park w t cases) M') : c ∈ cases := by
  cases r with
  | send first mine => exact ((Scene.parked_case _ free a mine).2 (by simp [first])).2
  | receive first mine => exact ((Scene.parked_case _ free a mine).1 (by simp [first])).2
  | close first =>
    obtain ⟨hx, mine⟩ := List.mem_filter.1 (List.mem_of_mem_head? first)
    exact ((Scene.parked_case _ free a (by simpa using mine)).2 hx).2

/-- A thread that waits for the first of some cases is served at most once. -/
theorem Session.fate (session : Session k L) (real : t ≠ .nil) (free : M.Free t)
    (parked : k.scene = M.park w t cases) (goes : k.Goes t k') : k.Fate t cases k' := by
  induction goes with
  | refl => exact .waiting .refl
  | @step k' k'' a e before step others ih =>
    obtain ⟨L', now⟩ := session.goes before
    obtain ⟨⟨place, I, stands⟩, bal, -⟩ := now.sound
    have seen : k'.scene = I.scene := stands.scene_eq
    obtain ⟨place', J, at₁, did⟩ := step.does (n := 0) stands (seen ▸ bal)
    have seen' : k''.scene = J.scene := at₁.scene_eq
    rw [← seen, ← seen'] at did
    have avoids := step.avoids real others
    cases ih with
    | waiting alone =>
      have tied : k'.scene.Tied t := now.tied (w := w) fun ch x hx mine => by
        have cases_ := Scene.parked_case ch free (parked ▸ alone) mine
        exact (List.mem_append.1 hx).elim (fun h => (cases_.1 h).1) fun h => (cases_.2 h).1
      rcases did.alike_or_resumed tied avoids with alike | ⟨c, got, reached, resumed⟩
      · exact .waiting (alone.trans alike)
      · exact .completed before alone step others did
            (reached.mem_cases free (parked ▸ alone)) reached
          resumed .refl .refl
    | completed before₁ alone step₁ others₁ did₁ one reached resumed after still =>
      have gone : k'.scene.Free t := still.free resumed.free
      have tied : k'.scene.Tied t := fun ch x hx _ _ _ mine => absurd mine (gone ch x hx)
      rcases did.alike_or_resumed tied avoids with alike | ⟨c', got', reached', -⟩
      · exact .completed before₁ alone step₁ others₁ did₁ one reached resumed
            (after.step step others)
          (still.trans alike)
      · -- nobody waits for the thread any more, so nothing can reach it
        exfalso
        cases reached' with
        | send first mine =>
          exact gone _ _ (List.mem_append_right _ (first ▸ List.mem_cons_self)) mine
        | receive first mine =>
          exact gone _ _ (List.mem_append_left _ (first ▸ List.mem_cons_self)) mine
        | close first =>
          obtain ⟨hx, mine⟩ := List.mem_filter.1 (List.mem_of_mem_head? first)
          exact gone _ _ (List.mem_append_right _ hx) (by simpa using mine)

/-! ## A select -/

/-- Who waits for the other side of a case. -/
def Case.partner (V : ChannelView) : Case → Option Waiter
  | .send .. => V.receivers.head?
  | .receive .. => V.senders.head?

/-- Another channel is not touched, but for the instances of the partner. -/
theorem Scene.complete_elsewhere (ne : ch ≠ c.channel) : (M.complete t zero c).channel ch =
    ((c.partner (M.channel c.channel)).elim (M.channel ch) fun x =>
    (M.channel ch).without x.waker) := by
  cases c with
  | send ch' v body =>
    replace ne : ch ≠ ch' := ne
    show (M.send ch' v).channel ch = ((M.channel ch').receivers.head?).elim _ _
    cases receivers : (M.channel ch').receivers with
    | nil =>
      rw [send_nil receivers, setBuffer, channel_put, if_neg ne]
      rfl
    | cons x xs =>
      rw [send_cons receivers]
      rfl
  | receive ch' body =>
    replace ne : ch ≠ ch' := ne
    show (M.receive ch' t zero).channel ch = ((M.channel ch').senders.head?).elim _ _
    cases senders : (M.channel ch').senders with
    | nil =>
      cases buffer : (M.channel ch').buffer with
      | nil =>
        rw [receive_zero senders buffer]
        rfl
      | cons v vs =>
        rw [receive_buffer senders buffer]
        exact (channel_put (M := M)).trans (if_neg ne)
    | cons x xs =>
      obtain ⟨front, rest, -, seen⟩ := receive_cons t zero senders
      rw [seen]
      exact (channel_put (M := M.wake x)).trans (if_neg ne)

/-- What a thread comes to with a `select`. -/
structure Exchange.Selected (k k' : Exchange) (cases : List Case) (hasDefault : Bool) (t : Address)
    (o : Outcome) : Prop where
  /-- All of it can be seen, before and after. -/
  shown : k.parties.Shown k.heap ∧ k'.parties.Shown k'.heap
  /-- None is completed only if no case can proceed. -/
  stuck : (o = .default ∨ o = .blocked) ↔ ∀ c ∈ cases, ¬k.scene.Ready c
  /-- Which of the two it is then. -/
  fallback : (o = .default → hasDefault = true) ∧ (o = .blocked → hasDefault = false)
  /-- Exactly one case is completed: its channel and the thread are as its operation leaves them,
  and of other channels only the instances of the partner are gone. -/
  ready : ∀ i, o = .ready i → ∃ c zero, cases[i]? = some c ∧ k.scene.Ready c ∧
    k'.scene = k.scene.complete t zero c ∧ ∀ ch, ch ≠ c.channel → k'.scene.channel ch =
      ((c.partner (k.scene.channel c.channel)).elim (k.scene.channel ch) fun x =>
        (k.scene.channel ch).without x.waker)
  /-- Nothing changes. -/
  default : o = .default → k'.scene = k.scene
  /-- The thread waits for all cases, and is served at most once. -/
  blocked : o = .blocked → ∃ w, k.scene.Unused w ∧ k'.scene = k.scene.park w t cases ∧
    (k.scene.Free t → ∀ k'', k'.Goes t k'' → k'.Fate t cases k'')

/-- A `select` completes exactly one case, now or later. -/
theorem Session.select_once (session : Session k L) {order : List Nat} {hasDefault : Bool}
    {o : Outcome}
    {h : Heap} (among : (Call.select cases order hasDefault t).Among k.parties)
    (run : Select.run cases order hasDefault t k.parties.structs k.parties.scheduler k.heap =
        .ok o h) :
    k.Selected { k with heap := h } cases hasDefault t o := by
  obtain ⟨⟨place, I, stands⟩, bal, -⟩ := session.sound
  have seen : k.scene = I.scene := stands.scene_eq
  obtain ⟨known, ht, all⟩ := id among
  obtain ⟨J, at₁, came⟩ := stands.select (n := 0) known ht (seen ▸ bal.drained)
    (fun i hi => all.mem_iff.2 (List.mem_range.2 hi)) _ _ run
  have seen₁ : Exchange.scene { k with heap := h } = J.scene := at₁.scene_eq
  have called : Call.run k.parties (.select cases order hasDefault t) k.heap = .ok (.chose o) h :=
    bind_ok.2 ⟨o, h, run, rfl⟩
  have real : t ≠ .nil := fun e => by
    have := stands.thread_ne_nil ht
    rw [e] at this
    cases this
  rw [← seen, ← seen₁] at came
  refine ⟨⟨stands.shown, at₁.shown⟩, ?_, ?_, ?_, ?_, ?_⟩
  · rcases came with ⟨i, c, zero, rfl, hc, ready, -⟩ | ⟨stuck, ⟨-, rfl, -⟩ | ⟨-, rfl, -⟩⟩
    · exact ⟨fun h => by simp at h, fun h => absurd ready (h c (List.mem_of_getElem? hc))⟩
    · exact ⟨fun _ => stuck, fun _ => .inl rfl⟩
    · exact ⟨fun _ => stuck, fun _ => .inr rfl⟩
  · rcases came with ⟨i, c, zero, rfl, -⟩ | ⟨-, ⟨hd, rfl, -⟩ | ⟨hd, rfl, -⟩⟩
    · exact ⟨nofun, nofun⟩
    · exact ⟨fun _ => hd, nofun⟩
    · exact ⟨nofun, fun _ => hd⟩
  · rintro i rfl
    rcases came with ⟨j, c, zero, e, hc, ready, after⟩ | ⟨-, ⟨-, e, -⟩ | ⟨-, e, -⟩⟩
    · cases e
      exact ⟨c, zero, hc, ready, after, fun ch ne => after ▸ Scene.complete_elsewhere ne⟩
    · cases e
    · cases e
  · rintro rfl
    rcases came with ⟨j, c, zero, e, -⟩ | ⟨-, ⟨-, -, after⟩ | ⟨-, e, -⟩⟩
    · cases e
    · exact after
    · cases e
  · rintro rfl
    rcases came with ⟨j, c, zero, e, -⟩ | ⟨-, ⟨-, e, -⟩ | ⟨-, -, w, unused, after⟩⟩
    · cases e
    · cases e
    · exact ⟨w, unused, after, fun free k'' goes =>
        (session.step (.call among called)).fate real free after goes⟩

/-- Nobody waits if nobody is seen to wait on the channels of the parties. -/
theorem Exchange.free_of_channels (idle : ∀ ch ∈ k.parties.channels,
    (k.scene.channel ch).waiters = []) :
    k.scene.Free t := by
  intro ch x hx
  by_cases hc : ch ∈ k.parties.channels
  · simp [idle ch hc] at hx
  · have blank : k.scene.channel ch = default := if_neg hc
    rw [blank] at hx
    cases hx

/-- A thread and two channels are made, and the thread waits on both for the first of a receive and
a send. -/
def waitingRun (acts : List Act) : Bool :=
  match Exchange.fresh 256 with
  | some k₀ => match k₀.play .empty acts with
    | some (k, _) => match k.parties.channels, k.parties.threads with
      | [ch, ch'], [t] =>
        match Select.run [.receive ch .nil, .send ch' ch .nil] [1, 0] false t k.parties.structs
          k.parties.scheduler k.heap with
        | .ok o _ => o = .blocked ∧ (∀ c ∈ k.parties.channels, (k.scene.channel c).waiters = []) ∧
          (Call.select [.receive ch .nil, .send ch' ch .nil] [1, 0] false t).Among k.parties
        | .error .. => false
      | _, _ => false
    | none => false
  | none => false

/-- A thread that waits on two channels for the first of a receive and a send. -/
theorem Session.select_once_waiting : ∃ k L h cases t, Session k L ∧ k.scene.Free t ∧
    cases.length = 2 ∧
    Exchange.Selected k { k with heap := h } cases false t .blocked := by
  let acts : List Act := [.thread 0 .nil .nil, .channel .nil 0, .channel .nil 0]
  have ran : waitingRun acts = true := by decide +kernel
  unfold waitingRun at ran
  split at ran
  case h_2 => cases ran
  next k₀ made =>
  split at ran
  case h_2 => cases ran
  next k L played =>
  split at ran
  case h_2 => cases ran
  next ch ch' t _ _ =>
  split at ran
  case h_2 => cases ran
  next o h run =>
  obtain ⟨rfl, idle, among⟩ := of_decide_eq_true ran
  have session := (Session.fresh made).play played
  exact ⟨k, L, h, _, t, session, Exchange.free_of_channels idle, rfl,
    Session.select_once session among run⟩

end GoMachine
