import GoMachine.Proofs.Exchange.Scene
/-!
# Who can wait

`Scene.Does M e M'` says what an event does to a scene. A channel is balanced if its buffer is not
too long, a thread waits to send only when the buffer is full and to receive only when it is empty,
and threads do not wait for each other on it: who waits to send and to receive is the same thread
behind the same waker.

* `Scene.Does.keeps_balance`: an event keeps all channels balanced.
* `Scene.flush_channel`: who waits where after a channel was closed.
-/
namespace GoMachine

/-- What a thread did. -/
inductive Event where
  /-- It did nothing to channels, or another channel was made. -/
  | none
  | channel (ch : Address) (cap : Nat)
  /-- The operation of a case was completed, and the thread is runnable again if it is said so. -/
  | completed (again : Bool) (thread : Address) (c : Case)
  /-- It waits for the first of some cases. -/
  | parked (thread : Address) (cases : List Case)
  | closed (ch : Address)
  deriving DecidableEq

namespace Scene

/-- A thread is runnable if it is said so. -/
def enqueueIf (M : Scene) (again : Bool) (t : Address) : Scene := if again then M.enqueue t else M

/-- What an event does to a scene. -/
inductive Does (M : Scene) : Event → Scene → Prop where
  | none : Does M .none M
  | channel {ch : Address} {cap : Nat} (new : M.channel ch = default) :
    Does M (.channel ch cap) (M.put ch { (default : ChannelView) with cap := cap })
  | completed {again : Bool} {t zero : Address} {c : Case} (ready : M.Ready c) :
    Does M (.completed again t c) ((M.complete t zero c).enqueueIf again t)
  | parked {w t : Address} {cases : List Case} (stuck : ∀ c ∈ cases, ¬M.Ready c)
      (new : M.Unused w) :
    Does M (.parked t cases) (M.park w t cases)
  | closed {ch : Address} {zeros : List Address} (isOpen : (M.channel ch).closed = false)
    (served : ((M.close ch zeros).channel ch).waiters = []) : Does M (.closed ch) (M.close ch zeros)

end Scene

variable {V : ChannelView} {M M' : Scene} {ch c t v w zero : Address} {ws ws' zeros : List Address}
  {x : Waiter} {cases : List Case} {e : Event}

/-! ## Views -/

namespace ChannelView

theorem withoutAll_congr (same : ∀ w, w ∈ ws ↔ w ∈ ws') : V.withoutAll ws = V.withoutAll ws' := by
  simp only [withoutAll, same]

@[simp]
theorem withoutAll_nil : V.withoutAll [] = V := by simp [withoutAll]

theorem withoutAll_without : (V.without w).withoutAll ws = V.withoutAll (w :: ws) := by
  simp only [withoutAll, without, List.filter_filter, ChannelView.mk.injEq, true_and]
  constructor <;> exact List.filter_congr fun x _ => by simp [Bool.and_comm]

/-- Fewer threads wait. -/
structure Fewer (V' V : ChannelView) : Prop where
  cap : V'.cap = V.cap
  closed : V'.closed = V.closed
  buffer : V'.buffer = V.buffer
  senders : V'.senders ⊆ V.senders
  receivers : V'.receivers ⊆ V.receivers

theorem without_fewer : (V.without w).Fewer V :=
  ⟨rfl, rfl, rfl, List.filter_subset_self .., List.filter_subset_self ..⟩

theorem withoutAll_fewer : (V.withoutAll ws).Fewer V :=
  ⟨rfl, rfl, rfl, List.filter_subset_self .., List.filter_subset_self ..⟩

/-- The buffer is not too long, and nobody waits without need. -/
structure Balanced (V : ChannelView) : Prop where
  bounded : V.buffer.length ≤ V.cap
  sending : V.senders ≠ [] → V.buffer.length = V.cap
  receiving : V.receivers ≠ [] → V.buffer = [] ∧ V.closed = false
  meeting : ∀ x ∈ V.senders, ∀ y ∈ V.receivers, x.waker = y.waker

theorem Balanced.fewer {V' : ChannelView} (bal : V.Balanced) (less : V'.Fewer V) : V'.Balanced where
  bounded := by
    rw [less.buffer, less.cap]
    exact bal.bounded
  sending waits := by
    rw [less.buffer, less.cap]
    exact bal.sending fun idle => waits (List.subset_nil.1 (idle ▸ less.senders))
  receiving waits := by
    rw [less.buffer, less.closed]
    exact bal.receiving fun idle => waits (List.subset_nil.1 (idle ▸ less.receivers))
  meeting x hx y hy := bal.meeting x (less.senders hx) y (less.receivers hy)

theorem balanced_default {cap : Nat} : Balanced { (default : ChannelView) with cap := cap } where
  bounded := Nat.zero_le _
  sending waits := absurd rfl waits
  receiving waits := absurd rfl waits
  meeting _ hx := nomatch hx

end ChannelView

namespace Scene

/-- All channels are balanced. -/
def Balanced (M : Scene) : Prop := ∀ ch, (M.channel ch).Balanced

/-! ## What is seen afterwards -/

theorem channel_put {V : ChannelView} : (M.put ch V).channel c = if c = ch then V else M.channel
    c :=
  Function.update_apply ..

@[simp]
theorem channel_enqueueIf {again : Bool} : (M.enqueueIf again t).channel = M.channel := by
  cases again <;> rfl

/-- A send to a thread that waits. -/
theorem send_cons {xs : List Waiter} (waits : (M.channel ch).receivers = x :: xs) :
    M.send ch v = (M.wake x).push x.thread v := by
  rw [send, waits]

/-- A send into the buffer. -/
theorem send_nil (idle : (M.channel ch).receivers = []) :
    M.send ch v = M.setBuffer ch ((M.channel ch).buffer ++ [v]) := by
  rw [send, idle]

/-- What a thread receives from one that waits is the front of the buffer with the value behind it.
-/
theorem receive_cons (t zero : Address) {xs : List Waiter}
    (waits : (M.channel ch).senders = x :: xs) :
    ∃ front rest, (M.channel ch).buffer ++ [x.value] = front :: rest ∧
      M.receive ch t zero = ((M.wake x).setBuffer ch rest).push t front := by
  rw [receive, waits]
  cases e : (M.channel ch).buffer with
  | nil => exact ⟨_, _, rfl, rfl⟩
  | cons front vs => exact ⟨_, _, rfl, rfl⟩

theorem receive_buffer {vs : List Address} (idle : (M.channel ch).senders = [])
    (buffered : (M.channel ch).buffer = v :: vs) :
    M.receive ch t zero = (M.setBuffer ch vs).push t v := by
  rw [receive, idle, buffered]
  rfl

theorem receive_zero (idle : (M.channel ch).senders = []) (empty : (M.channel ch).buffer = []) :
    M.receive ch t zero = M.push t zero := by
  rw [receive, idle, empty]
  rfl

/-- Who waits where when all threads that waited to receive on a channel have gone on. -/
theorem flush_channel (served : ((M.flush ch zeros).channel ch).receivers = []) :
    (M.flush ch zeros).channel c = (M.channel c).withoutAll
    ((M.channel ch).receivers.map (·.waker)) := by
  induction zeros generalizing M with
  | nil =>
    have idle : (M.channel ch).receivers = [] := served
    simp [idle, flush]
  | cons z zs ih =>
    cases receivers : (M.channel ch).receivers with
    | nil => simp [flush, receivers]
    | cons x xs =>
      have next : M.flush ch (z :: zs) = ((M.wake x).push x.thread z).flush ch zs := by
        rw [flush, receivers]
      rw [next] at served ⊢
      rw [ih served]
      show ((M.channel c).without x.waker).withoutAll
        (((M.channel ch).without x.waker).receivers.map _) = _
      rw [ChannelView.withoutAll_without]
      refine ChannelView.withoutAll_congr fun w => ?_
      simp only [ChannelView.without, receivers, List.mem_cons, List.mem_map, List.mem_filter,
        decide_eq_true_eq, List.map_cons]
      by_cases e : w = x.waker
      · simp [e]
      · simp only [e, false_or]
        constructor
        · rintro ⟨y, ⟨rfl | hy, ne⟩, rfl⟩
          · exact absurd rfl ne
          · exact ⟨y, hy, rfl⟩
        · rintro ⟨y, hy, rfl⟩
          exact ⟨y, ⟨.inr hy, e⟩, rfl⟩

/-- Who waits where after a channel was closed. -/
theorem close_channel (served : ((M.close ch zeros).channel ch).receivers = []) :
    (M.close ch zeros).channel c =
    ((M.put ch { M.channel ch with closed := true }).channel c).withoutAll
      ((M.channel ch).receivers.map (·.waker)) := by
  rw [close, flush_channel served, channel_put, channel_put, if_pos rfl]

/-- Who waits behind a waker for some cases. -/
theorem park_channel : (M.park w t cases).channel ch = { M.channel ch with
    senders := (M.channel ch).senders ++ (cases.filter (·.sendsOn ch)).map (·.waiter w t)
    receivers := (M.channel ch).receivers ++ (cases.filter (·.receivesOn ch)).map (·.waiter w t)
    } := by
  induction cases generalizing M with
  | nil => simp [park]
  | cons k cases ih =>
    rw [park, List.foldl_cons, ← park, ih]
    obtain ⟨c, v, body⟩ | ⟨c, body⟩ := k
    all_goals
      by_cases absent : c.isNil
      · simp [register, absent, Case.sendsOn, Case.receivesOn]
      · by_cases e : c = ch
        · subst e
          simp [register, absent, channel_put, Case.sendsOn, Case.receivesOn, Case.waiter,
            Case.value, Case.body]
        · simp [register, absent, channel_put, e, Ne.symm e, Case.sendsOn, Case.receivesOn]

/-- No case can proceed: then a channel that is sent on is full, and nobody waits to receive there.
-/
theorem stuck_send {k : Case} (stuck : ¬M.Ready k) (on : k.sendsOn ch) :
    (M.channel ch).receivers = [] ∧ (M.channel ch).cap ≤ (M.channel ch).buffer.length := by
  obtain ⟨c, v, body⟩ | ⟨c, body⟩ := k
  · obtain ⟨rfl, real⟩ : c = ch ∧ c.isNil = false := by simpa [Case.sendsOn] using on
    have cannot : ¬(M.channel c).CanSend := fun can => stuck ⟨by simp [Case.channel, real], can⟩
    simpa [ChannelView.CanSend] using cannot
  · cases on

theorem stuck_receive {k : Case} (stuck : ¬M.Ready k) (on : k.receivesOn ch) :
    (M.channel ch).senders = [] ∧ (M.channel ch).buffer = [] ∧ (M.channel ch).closed = false := by
  obtain ⟨c, v, body⟩ | ⟨c, body⟩ := k
  · cases on
  · obtain ⟨rfl, real⟩ : c = ch ∧ c.isNil = false := by simpa [Case.receivesOn] using on
    have cannot : ¬(M.channel c).CanReceive := fun can => stuck ⟨by simp [Case.channel, real], can⟩
    simpa [ChannelView.CanReceive] using cannot

/-! ## Balance -/

namespace Balanced

theorem wake (bal : M.Balanced) : (M.wake x).Balanced := fun c =>
    (bal c).fewer ChannelView.without_fewer

theorem put {V : ChannelView} (bal : M.Balanced) (here : V.Balanced) : (M.put ch V).Balanced := by
  intro c
  rw [channel_put]
  split
  · exact here
  · exact bal c

theorem send (bal : M.Balanced) (can : (M.channel ch).CanSend) : (M.send ch v).Balanced := by
  cases receivers : (M.channel ch).receivers with
  | cons x xs =>
    rw [send_cons receivers]
    exact bal.wake (x := x)
  | nil =>
    rw [send_nil receivers]
    have room : (M.channel ch).buffer.length < (M.channel ch).cap :=
      can.resolve_left (absurd receivers)
    -- nobody waits to send as long as there is room
    have senders : (M.channel ch).senders = [] := by
      by_contra waits
      exact absurd ((bal ch).sending waits) (Nat.ne_of_lt room)
    refine bal.put ⟨?_, fun h => absurd senders h, fun h => absurd receivers h, ?_⟩
    · simpa [Nat.succ_le_iff] using room
    · simp [senders]

theorem receive (bal : M.Balanced) : (M.receive ch t zero).Balanced := by
  cases senders : (M.channel ch).senders with
  | cons x xs =>
    obtain ⟨front, rest, e, seen⟩ := receive_cons t zero senders
    rw [seen]
    have length : rest.length = (M.channel ch).buffer.length := by
      simpa using (congrArg List.length e).symm
    -- who waits to receive there does it behind the waker that is spent now
    have receivers : ((M.channel ch).without x.waker).receivers = [] := by
      refine List.filter_eq_nil_iff.2 fun y hy => ?_
      simpa using ((bal ch).meeting x (by simp [senders]) y hy).symm
    have here := (bal ch).fewer (ChannelView.without_fewer (w := x.waker))
    refine (bal.wake (x := x)).put ⟨?_, fun h => ?_, fun h => absurd receivers h, here.meeting⟩
    · exact length ▸ here.bounded
    · exact length ▸ here.sending h
  | nil =>
    cases buffer : (M.channel ch).buffer with
    | nil =>
      rw [receive_zero senders buffer]
      exact bal
    | cons v vs =>
      rw [receive_buffer senders buffer]
      have receivers : (M.channel ch).receivers = [] := by
        by_contra waits
        simpa [buffer] using ((bal ch).receiving waits).1
      refine bal.put ⟨?_, fun h => absurd senders h, fun h => absurd receivers h, ?_⟩
      · have := (bal ch).bounded
        rw [buffer, List.length_cons] at this
        exact Nat.le_of_succ_le this
      · simp [senders]

theorem park (bal : M.Balanced) (stuck : ∀ c ∈ cases, ¬M.Ready c) :
    (M.park w t cases).Balanced := by
  intro ch
  rw [park_channel]
  have sending (k : Case) (hk : k ∈ cases.filter (·.sendsOn ch)) := by
    obtain ⟨hk, on⟩ := List.mem_filter.1 hk
    exact stuck_send (stuck k hk) on
  have receiving (k : Case) (hk : k ∈ cases.filter (·.receivesOn ch)) := by
    obtain ⟨hk, on⟩ := List.mem_filter.1 hk
    exact stuck_receive (stuck k hk) on
  refine ⟨(bal ch).bounded, fun waits => ?_, fun waits => ?_, fun x hx y hy => ?_⟩
  · rcases not_and_or.1 (waits ∘ List.append_eq_nil_iff.2) with old | new
    · exact (bal ch).sending old
    · obtain ⟨k, hk⟩ := List.exists_mem_of_ne_nil _ (new ∘ List.map_eq_nil_iff.2)
      exact Nat.le_antisymm (bal ch).bounded (sending k hk).2
  · rcases not_and_or.1 (waits ∘ List.append_eq_nil_iff.2) with old | new
    · exact (bal ch).receiving old
    · obtain ⟨k, hk⟩ := List.exists_mem_of_ne_nil _ (new ∘ List.map_eq_nil_iff.2)
      exact (receiving k hk).2
  · rcases List.mem_append.1 hx with oldX | newX <;> rcases List.mem_append.1 hy with oldY | newY
    · exact (bal ch).meeting x oldX y oldY
    · obtain ⟨k, hk, rfl⟩ := List.mem_map.1 newY
      simp [(receiving k hk).1] at oldX
    · obtain ⟨k, hk, rfl⟩ := List.mem_map.1 newX
      simp [(sending k hk).1] at oldY
    · obtain ⟨k, -, rfl⟩ := List.mem_map.1 newX
      obtain ⟨k', -, rfl⟩ := List.mem_map.1 newY
      rfl

theorem close (bal : M.Balanced) (served : ((M.close ch zeros).channel ch).waiters = []) :
    (M.close ch zeros).Balanced := by
  obtain ⟨senders, receivers⟩ := List.append_eq_nil_iff.1 served
  intro c
  by_cases e : c = ch
  · subst e
    have length : ((M.close c zeros).channel c).buffer.length ≤
      ((M.close c zeros).channel c).cap := by
      rw [close_channel receivers, channel_put, if_pos rfl]
      exact (bal c).bounded
    exact ⟨length, fun h => absurd senders h, fun h => absurd receivers h, by simp [senders]⟩
  · rw [close_channel receivers, channel_put, if_neg e]
    exact (bal c).fewer ChannelView.withoutAll_fewer

end Balanced

/-- An event keeps all channels balanced. -/
theorem Does.keeps_balance (did : M.Does e M') (bal : M.Balanced) : M'.Balanced := by
  cases did with
  | none => exact bal
  | channel new => exact bal.put ChannelView.balanced_default
  | parked stuck => exact bal.park stuck
  | closed _ served => exact bal.close served
  | @completed again t zero k ready =>
    intro c
    rw [channel_enqueueIf]
    cases k with
    | send ch v body => exact bal.send ready.2 c
    | receive ch body => exact bal.receive c

theorem Balanced.drained (bal : M.Balanced) (ch : Address) (waits : (M.channel ch).receivers ≠ []) :
    (M.channel ch).buffer = [] := ((bal ch).receiving waits).1

end Scene
end GoMachine
