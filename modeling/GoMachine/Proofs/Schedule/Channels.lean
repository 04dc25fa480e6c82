import GoMachine.Proofs.Owns.Channels
import GoMachine.Proofs.Schedule.Round
/-!
# The run queue and channels

An operation that completes brings back the thread that waited for it, and the running thread goes
to the back of the queue or waits, once in all. While the cases of a `select` are tried, their
operands and bodies stay as they are.
-/
namespace GoMachine

open Heap (Owns Guards Secure)

variable {R : Round} {O P B C : Multiset Address} {G : Facts} {us c d : List Address}
  {h : Heap} {n : Nat} {a b v w structs : Address}

/-! ## Waiting instances -/

namespace Waiting

theorem create_tame (hw : w ∈ .nil :: c) (hv : v ∈ .nil :: c) (hb : b ∈ .nil :: c) :
    Tame c (create w v b) := by
  unfold create
  refine .bind ?_ fun inst => .bind ?_ fun _ => .bind ?_ fun _ => .bind ?_ fun _ => ?_ <;> grind

theorem body_asks : Asks c (body a) := .child (.inl rfl)

theorem takeValue_tame : Tame c (takeValue a) := .heap (.takeChild (.inl rfl))

theorem firstAmong_stands (ne : a ≠ R.queue) : ∀ {k : Nat} {h : Heap}, R.Stands O us c h →
    Yields (firstAmong a k) h fun inst h' => R.Stands O us (inst :: c) h'
  | 0, _, st => .pure st.nil
  | k + 1, h, st => by
    refine (Queue.dequeue_stands st ne).bind fun inst h₁ st => ?_
    split
    · next e =>
      rw [Address.isNil_iff.1 e] at st
      exact .pure st
    refine .read fun stale _ => ?_
    split
    · exact .pure st
    · refine (st.tame (.heap (.free (by simp)))).bind fun _ h₂ st => ?_
      exact firstAmong_stands ne (st.mono (by simp))

theorem firstLive_stands (st : R.Stands O us c h) (ne : a ≠ R.queue) :
    Yields (firstLive a) h fun inst h' => R.Stands O us (inst :: c) h' :=
  .get (firstAmong_stands ne st)

/-- The thread of an instance comes back with the value and the body. -/
theorem deliver_stands {x : Option Address} (g : Guards G B (n + 3) (x.elim 0 ({·}) + P) h)
    (st : R.Stands O us c h) (hx : ∀ v ∈ x, v ∈ c) (sub : d ⊆ c) (sec : ∀ a ∈ d, Secure G B a) :
    Yields (deliver a x R.scheduler) h fun _ h' => R.Stands O us d h' ∧
    Guards G B (n + 3) P h' := by
  refine .read fun w _ => .read fun t _ => ?_
  extract_lets wake rest
  have other : ∀ {i : Nat} {stack : Address} {c : List Address} {h : Heap}, R.Stands O us c h →
    i < 2 →
      Query.child t .thread i h = .ok stack → ∀ tag, Query.tag stack h = .ok tag →
      tag.isSteady = false := by
    intro i stack c h st hi run tag tagged
    rcases st.stack_tag hi run tagged with rfl | rfl | rfl <;> rfl
  have rest_stands : ∀ h, R.Stands O us d h → Guards G B (n + 3) P h →
      Yields (rest ⟨⟩) h fun _ h' => R.Stands O us d h' ∧ Guards G B (n + 3) P h' := by
    intro h st g
    refine .read fun body run => ?_
    split
    · refine .read fun control run' => ?_
      refine (((st.asks body_asks run).push (i := 0) (by decide) run' (by simp)).and
        (Stack.push_guards g (other st (i := 0) (by decide) run'))).bind fun _ h₁ ⟨st, g⟩ => ?_
      exact ((Waker.wake_stands g (st.mono (by simp)) sec).and (Waker.wake_owns g).yields).bind
        fun _ _ done => .pure done
    · exact ((Waker.wake_stands g st sec).and (Waker.wake_owns g).yields).bind
        fun _ _ done => .pure done
  cases x with
  | none => exact rest_stands h (st.mono sub) (by simpa using g)
  | some value =>
    refine .read fun stash run => ?_
    refine ((st.pushOwned (i := 1) (by decide) run (by simp [hx value rfl])).and
      (Stack.pushOwned_guards (O := P) g (other st (i := 1) (by decide) run))).bind
      fun _ h₁ ⟨st, g⟩ => ?_
    exact rest_stands h₁ (st.mono sub) g

end Waiting

/-! ## Channels -/

instance : Mentions Attempt where
  addresses
    | .done => []
    | .wait queue => [queue]

@[simp, grind =]
theorem addresses_done : addresses Attempt.done = [] := rfl

@[simp, grind =]
theorem addresses_wait : addresses (Attempt.wait a) = [a] := rfl

namespace Channel

variable {i : Nat}

theorem slot_asks : Asks c (slot a i) := .bind .unit fun _ => .child (.inl rfl)

/-- An instance is dropped after its operation completed. -/
theorem releasing_stands {x : Action Unit} (held : Heap.Held G B)
    (hx : Yields x h fun _ h' => R.Stands O us (a :: d) h' ∧ Guards G (a ::ₘ B) n P h') :
    Yields (Action.releasing a x) h fun _ h' => R.Stands O us d h' ∧ Guards G B n P h' := by
  refine hx.afterwards fun _ h₁ ⟨st, g⟩ => Yields.and (fun r h' run => ?_) (g.unstay held).free
  exact (st.tame (.heap (.free (by simp))) r h' (lift_heap_ok.2 run)).mono
    (List.subset_append_of_subset_right _ (List.subset_cons_self a d))

/-- What stays, and an instance that is held until its operation completed. -/
theorem secure_cons (sec : ∀ a ∈ d, Secure G B a) : ∀ b ∈ a :: d, Secure G (a ::ₘ B) b :=
  List.forall_mem_cons.2 ⟨.inr (.inl (by simp)), fun b hb => (sec b hb).cons⟩

theorem trySend_stands (g : Guards G B (n + 6) P h) (st : R.Stands O us c h) (hv : v ∈ c)
    (sub : d ⊆ c) (sec : ∀ a ∈ d, Secure G B a) :
    Yields (trySend a v R.scheduler) h fun r h' =>
      R.Stands O us (addresses r ++ d) h' ∧ Guards G B (n + 6) P h' := by
  refine .read fun closed _ => .guard fun _ => .read fun buffer run => .read fun receivers run' =>
    ?_
  have ne := (st.asks slot_asks run').ne_queue
  refine ((Waiting.firstLive_stands (st.asks slot_asks run) ne).and
    (Waiting.firstLive_owns g).yields).bind
    fun receiver h₁ ⟨st, g₁⟩ => ?_
  extract_lets rest
  split
  · next e =>
    rw [Address.isNil_iff.1 e] at g₁
    have g := (Guards.cons_nil.1 g₁).tighten g.spare
    refine .read fun size _ => .read fun cap _ => ?_
    split
    · refine .read fun senders run => .pure ⟨(st.asks slot_asks run).mono ?_, g⟩
      grind
    · refine ((st.tame (Queue.enqueue_tame (by simp) (by simp [hv]))).and
        (Queue.enqueue_owns g).yields).bind
        fun _ h₂ ⟨st, g⟩ => .pure ⟨st.mono ?_, g⟩
      grind
  · refine ((st.tame (Queue.enqueue_tame (by simp) (by simp [hv]))).and
      (Queue.enqueue_owns g₁).yields).bind
      fun _ h₂ ⟨st, g₂⟩ => ?_
    refine ((st.tame (Queue.dequeue_tame (by simp))).and (Queue.dequeue_owns g₂).yields).bind
      fun received h₃ ⟨st, g₃⟩ => ?_
    have g₄ : Guards G (receiver ::ₘ B) (n + 1 + 3) (received ::ₘ P) h₃ := g₃.swap.stay
    have delivered := Waiting.deliver_stands (a := receiver) (x := some received) g₄ st (by grind)
      (by grind)
      (secure_cons sec)
    refine (releasing_stands g.held delivered).bind fun _ h₄ ⟨st, g₄⟩ =>
      .pure ⟨st, g₄.tighten g.spare⟩

/-- If there was nothing to receive, then what stays is still known. -/
theorem tryRecv_stands (g : Guards G B (n + 6) P h) (st : R.Stands O [R.thread] c h)
    (sub : d ⊆ c) (sec : ∀ a ∈ d, Secure G B a) :
    Yields (tryRecv a R.thread structs R.scheduler) h fun r h' =>
      R.Stands O [R.thread] (addresses r ++ d) h' ∧ (r ≠ .done → Guards G B (n + 6) P h') := by
  refine .read fun buffer run => .read fun senders run' => ?_
  have st := st.asks slot_asks run
  have apart := st.ne_queue
  have ne := (st.asks slot_asks run').ne_queue
  refine ((Waiting.firstLive_stands st ne).and (Waiting.firstLive_owns g).yields).bind
    fun sender h₁ ⟨st, g₁⟩ => ?_
  extract_lets rest
  have rest_stands : ∀ h, R.Stands O [R.thread] d h → Guards G B (n + 6) P h →
    Yields (rest ⟨⟩) h fun r h' =>
      R.Stands O [R.thread] (addresses r ++ d) h' ∧ (r ≠ .done → Guards G B (n + 6) P h') := by
    intro h st g
    refine .read fun stash run => .read fun empty _ => ?_
    split
    · have taken : Yields (Queue.dequeue buffer) h fun v h' =>
        R.Stands O [R.thread] (v :: buffer :: d) h' ∧
          Query.child R.thread .thread 1 h' = .ok stash :=
        Queue.dequeue_of_tag st.sound fun k => (st.of_queue k apart).tame_child
          (Queue.dequeue_tame (by simp)) (by simp) run
      refine taken.bind fun v h₁ ⟨st, run⟩ => ?_
      refine (st.pushOwned (i := 1) (by decide) run (by simp)).bind fun _ h₂ st => ?_
      exact .pure ⟨st.mono (by grind), fun no => absurd rfl no⟩
    · refine .read fun closed _ => ?_
      split
      · refine .read fun elem _ => (st.tame_child zeroValue_tame (by simp) run).bind
          fun v h₁ ⟨st, run⟩ => ?_
        refine (st.pushOwned (i := 1) (by decide) run (by simp)).bind fun _ h₂ st => ?_
        exact .pure ⟨st.mono (by grind), fun no => absurd rfl no⟩
      · exact .read fun receivers run => .pure ⟨(st.asks slot_asks run).mono (by grind), fun _ => g⟩
  split
  · refine ((st.tame Waiting.takeValue_tame).and (Waiting.takeValue_owns g₁).yields).bind
      fun pending h₂ ⟨st, g₂⟩ => ?_
    have g₃ : Guards G (sender ::ₘ B) (n + 4) (pending ::ₘ P) h₂ := g₂.swap.stay
    have refilled := (st.tame (Queue.enqueueOwned_tame (a := buffer) (by simp) (by simp))).and
      (Queue.enqueueOwned_owns g₃).yields
    refine (releasing_stands g.held (refilled.bind fun _ h₃ ⟨st, g₄⟩ =>
      Waiting.deliver_stands (x := none) (n := n + 1) (P := P) (by simpa using g₄) st (by simp)
        (by grind) (secure_cons sec))).bind fun _ h₄ ⟨st, g₅⟩ => ?_
    exact rest_stands h₄ st (g₅.tighten g.spare)
  · next e =>
    have e : sender = .nil := Address.isNil_iff.1 (by simpa using e)
    rw [e] at g₁
    exact rest_stands h₁ (st.mono (by grind)) ((Guards.cons_nil.1 g₁).tighten g.spare)

/-- The running thread waits on a channel. -/
theorem register_stands (own : Owns 0 n C h) (st : R.Stands O [R.thread] c h)
    (mine : R.thread ∈ R.parked)
    (ha : a ∈ c) (hv : v ∈ .nil :: c) :
    Yields (register a R.thread v) h fun _ h' => R.Stands O [] c h' := by
  refine (Waker.create_stands st own mine).bind fun w h₁ st => ?_
  refine (st.tame (.releasing (by simp) (Waiting.create_tame (w := w) (v := v) (b := .nil) (by simp)
    (by grind) (by simp)))).bind fun inst h₂ st => ?_
  exact (st.tame (Queue.enqueueOwned_tame (a := a) (v := inst) (by simp [ha]) (by simp))).mono
    fun _ _ st => st.mono (by grind)

theorem send_stands (own : Owns 0 (n + 6) C h) (st : R.Stands O [R.thread] c h)
    (mine : R.thread ∈ R.parked)
    (hv : v ∈ c) (sec : ∀ a ∈ c, a = .nil ∨ a ∈ C) :
    Yields (send a v R.thread R.scheduler) h fun _ h' => R.Stands O [] c h' := by
  unfold send
  split
  · exact .pure st.stop
  have tried := trySend_stands (a := a) (Guards.none_iff.2 own) st hv (List.Subset.refl c)
    fun a ha => Heap.secure_none.2 (sec a ha)
  refine tried.bind fun attempt h₁ ⟨st, g⟩ => ?_
  have own := Guards.none_iff.1 g
  cases attempt with
  | done => exact (st.enqueue own mine fun a ha => own.live (sec a ha)).bind fun _ _ st => .pure st
  | wait waiters =>
    refine (register_stands own st mine (by simp) (by simp [hv])).bind fun _ _ st => ?_
    exact .pure (st.mono (by grind))

theorem recv_stands (own : Owns 0 (n + 6) C h) (st : R.Stands O [R.thread] c h)
    (mine : R.thread ∈ R.parked)
    (sec : ∀ a ∈ c, a = .nil ∨ a ∈ C) :
    Yields (recv a R.thread structs R.scheduler) h fun _ h' => R.Stands O [] c h' := by
  unfold recv
  split
  · exact .pure st.stop
  have tried : Yields (tryRecv a R.thread structs R.scheduler) h _ :=
    tryRecv_stands (Guards.none_iff.2 own) st (List.Subset.refl c) fun a ha =>
    Heap.secure_none.2 (sec a ha)
  refine (tried.and (tryRecv_owns own).yields).bind fun attempt h₁ ⟨⟨st, _⟩, own⟩ => ?_
  cases attempt with
  | done => exact (st.enqueue own mine fun a ha => own.live (sec a ha)).bind fun _ _ st => .pure st
  | wait waiters =>
    refine (register_stands own st mine (a := waiters) (v := .nil) (by simp) (by simp)).bind
      fun _ _ st => .pure (st.mono (by grind))

theorem flush_stands {elem : Address} (ne : a ≠ R.queue) (sec : ∀ a ∈ c, a = .nil ∨ a ∈ C) :
    ∀ {k : Nat} {h : Heap}, Owns 0 (n + 6) C h → R.Stands O us c h →
    Yields (flush a elem structs R.scheduler k) h fun _ h' => R.Stands O us c h'
  | 0, _, _, st => .pure st
  | k + 1, h, own, st => by
    refine ((Waiting.firstLive_stands st ne).and (Waiting.firstLive_owns own).yields).bind
      fun receiver h₁ ⟨st, own₁⟩ => ?_
    split
    · exact .pure (st.mono (by simp))
    have unheld : ∀ {B}, Heap.Held (fun _ => none) B := nofun
    have completed : Yields
      (do Waiting.deliver receiver (some (← zeroValue structs elem)) R.scheduler)
        h₁ fun _ h' => R.Stands O us (receiver :: c) h' ∧
          Guards (fun _ => none) (receiver ::ₘ C) (n + 5) 0 h' := by
      refine ((st.tame zeroValue_tame).and (zeroValue_makes (n := n + 4) own₁).yields).bind
        fun zero h₂ ⟨st, own₂⟩ => ?_
      refine Waiting.deliver_stands (x := some zero) (n := n + 2) (P := 0)
        ((Guards.none_iff.2 own₂).unstay unheld) st (by simp) (by simp) (secure_cons fun a ha => ?_)
      exact Heap.secure_none.2 (sec a ha)
    refine (releasing_stands unheld completed).bind fun _ h₃ ⟨st, g⟩ => ?_
    exact flush_stands ne sec ((Guards.none_iff.1 g).tighten own.spare) st

/-- An error if a thread waits to send. -/
theorem close_stands (own : Owns 0 (n + 6) C h) (st : R.Stands O us c h)
    (sec : ∀ a ∈ c, a = .nil ∨ a ∈ C) :
    Yields (close a structs R.scheduler) h fun _ h' => R.Stands O us c h' := by
  refine .guard fun _ => .read fun closed _ => .guard fun _ => ?_
  refine ((st.tame (.heap (.setField (.inl rfl)))).and own.setField.heap.yields).bind
    fun _ h₁ ⟨st, own⟩ => ?_
  refine .read fun receivers run => .read fun elem _ => .get ?_
  have ne := (st.asks slot_asks run).ne_queue
  refine (flush_stands ne sec own (st.mono (by simp))).bind fun _ h₂ st => ?_
  refine .read fun senders run => ?_
  have ne := (st.asks slot_asks run).ne_queue
  refine (Waiting.firstLive_stands st ne).bind fun sender h₃ st => ?_
  split
  · exact (st.tame (.heap (.free (by simp)))).bind fun _ _ _ => .throw
  · exact .pure (st.mono (by simp))

end Channel

/-! ## Select -/

instance : Mentions Case where
  addresses
    | .send ch value body => [ch, value, body]
    | .receive ch body => [ch, body]

@[simp, grind =]
theorem addresses_send : addresses (Case.send a v b) = [a, v, b] := rfl

@[simp, grind =]
theorem addresses_receive : addresses (Case.receive a b) = [a, b] := rfl

/-- A thread that still has to be taken care of. -/
def Outcome.idle (t : Address) : Outcome → List Address
  | .blocked => []
  | _ => [t]

namespace Select

theorem tryCase_stands {k : Case} (g : Guards G B (n + 6) P h) (st : R.Stands O [R.thread] c h)
    (hk : addresses k ⊆ c) (sec : ∀ a ∈ c, Secure G B a) :
    Yields (tryCase R.thread structs R.scheduler k) h fun r h' =>
      R.Stands O [R.thread] c h' ∧ (r = false → Guards G B (n + 6) P h') := by
  cases k with
  | send ch value body =>
    rw [tryCase]
    split
    · exact .pure ⟨st, fun _ => g⟩
    refine (Channel.trySend_stands g st (by grind) (List.Subset.refl c) sec).bind
      fun r h₁ ⟨st, g⟩ => ?_
    exact .pure ⟨st.mono (by grind), fun _ => g⟩
  | receive ch body =>
    rw [tryCase]
    split
    · exact .pure ⟨st, fun _ => g⟩
    refine (Channel.tryRecv_stands g st (List.Subset.refl c) sec).bind fun r h₁ ⟨st, g⟩ => ?_
    exact .pure ⟨st.mono (by grind), fun e => g (by simpa using e)⟩

theorem tryInOrder_stands {cases : List Case} (hk : addresses cases ⊆ c)
    (sec : ∀ a ∈ c, Secure G B a) : ∀ {order : List Nat} {h : Heap}, Guards G B (n + 6) P h →
    R.Stands O [R.thread] c h →
    Yields (tryInOrder cases R.thread structs R.scheduler order) h fun r h' =>
      R.Stands O [R.thread] c h' ∧ (r = none → Guards G B (n + 6) P h')
  | [], _, g, st => .pure ⟨st, fun _ => g⟩
  | i :: order, h, g, st => by
    unfold tryInOrder
    split
    · exact tryInOrder_stands hk sec g st
    · next k hi =>
      have hk' : addresses k ⊆ c := fun a ha =>
        hk (mem_addresses_list.2 ⟨k, List.mem_of_getElem? hi, ha⟩)
      refine (tryCase_stands g st hk' sec).bind fun r h₁ ⟨st, g⟩ => ?_
      split
      · exact .pure ⟨st, nofun⟩
      · next e => exact tryInOrder_stands hk sec (g (by simpa using e)) st

theorem register_tame {k : Case} (hw : w ∈ c) (hk : addresses k ⊆ c) : Tame c (register w k) := by
  cases k with
  | send ch value body =>
    rw [register]
    split
    · exact .pure (List.nil_subset _)
    refine .bind (.query Channel.slot_asks) fun waiters =>
      .bind (Waiting.create_tame ?_ ?_ ?_) fun inst =>
      Queue.enqueueOwned_tame ?_ ?_
    all_goals grind
  | receive ch body =>
    rw [register]
    split
    · exact .pure (List.nil_subset _)
    refine .bind (.query Channel.slot_asks) fun waiters =>
      .bind (Waiting.create_tame ?_ ?_ ?_) fun inst =>
      Queue.enqueueOwned_tame ?_ ?_
    all_goals grind

theorem run_stands {cases : List Case} {order : List Nat} {hasDefault : Bool}
    (g : Guards G B (n + 6) P h) (st : R.Stands O [R.thread] c h) (mine : R.thread ∈ R.parked)
    (hk : addresses cases ⊆ c) (sec : ∀ a ∈ c, Secure G B a) :
    Yields (run cases order hasDefault R.thread structs R.scheduler) h fun outcome h' =>
      R.Stands O (outcome.idle R.thread) c h' := by
  refine (tryInOrder_stands hk sec g st).bind fun r h₁ ⟨st, g⟩ => ?_
  cases r with
  | some i => exact .pure st
  | none =>
    dsimp only
    split
    · exact .pure st
    refine (Waker.create_stands st (g rfl).owns mine).bind fun shared h₂ st => ?_
    refine (st.tame (.releasing (by simp) (.forM fun k hk' => register_tame (by simp) ?_))).bind
      fun _ h₃ st => .pure (st.mono (by simp))
    exact fun a ha => List.mem_cons_of_mem _ (hk (mem_addresses_list.2 ⟨k, hk', ha⟩))

end Select
end GoMachine
