import GoMachine.Proofs.Exchange.Balance
/-!
# What became of the values

A `Log` tells of each channel which values were sent on it and which were handed to threads that
received them. A send of a waiting thread is open until the value was taken; it is withdrawn when
another case of its `select` is completed. `Log.record` writes the log from what is seen before and
after an event, with the values that were handed over as they are found on the stash of the
receiving thread.

`Log.Agrees.record`: what was sent is what was handed over, then what is in the buffer, and then
what the waiting threads want to send.
-/
namespace GoMachine

/-- A value that was sent, with the waker of the thread that waits until it is taken, or nil if it
was taken or is in the buffer. -/
structure Sent where
  value : Address
  waker : Address
  deriving DecidableEq

/-- Which values were sent on each channel and not withdrawn, and which were handed over. -/
structure Log where
  sent : Address → List Sent
  handed : Address → List Address

namespace Log

/-- Nothing happened yet. -/
def empty : Log := ⟨fun _ => [], fun _ => []⟩

/-- A value is sent. -/
def issue (L : Log) (ch v w : Address) : Log :=
  { L with sent := Function.update L.sent ch (L.sent ch ++ [⟨v, w⟩]) }

/-- A value is handed over. -/
def handOver (L : Log) (ch v : Address) : Log :=
  { L with handed := Function.update L.handed ch (L.handed ch ++ [v]) }

/-- The first open send behind a waker is settled. -/
def settleFirst (w : Address) : List Sent → List Sent
  | [] => []
  | s :: l => if s.waker = w then ⟨s.value, .nil⟩ :: l else s :: settleFirst w l

/-- The first open send behind a waker on a channel is settled. -/
def settle (L : Log) (ch w : Address) : Log :=
  { L with sent := Function.update L.sent ch (settleFirst w (L.sent ch)) }

/-- The open sends behind some wakers are withdrawn. -/
def withdraw (L : Log) (ws : List Address) : Log :=
  { L with sent := fun ch => (L.sent ch).filter (·.waker ∉ ws) }

/-- A send was completed: if a thread waited to receive, the value is on its stash, and its other
cases are withdrawn. -/
def sends (L : Log) (M M' : Scene) (ch v : Address) : Log :=
  match (M.channel ch).receivers with
  | x :: _ => ((L.withdraw [x.waker]).issue ch v .nil).handOver ch ((M'.stash x.thread).headD .nil)
  | [] => L.issue ch v .nil

/-- A receive was completed: the value is on the stash of the thread. If a thread waited to send,
its send is settled and its other sends are withdrawn. The zero value of a closed channel was not
sent.
-/
def receives (L : Log) (M M' : Scene) (ch t : Address) : Log :=
  match (M.channel ch).senders with
  | x :: _ => ((L.settle ch x.waker).withdraw [x.waker]).handOver ch ((M'.stash t).headD .nil)
  | [] => if (M.channel ch).buffer = [] then L else L.handOver ch ((M'.stash t).headD .nil)

/-- A thread waits for a case behind the waker that was the last to come. -/
def park (M' : Scene) (L : Log) : Case → Log
  | .send ch v _ =>
    if ch.isNil then L
    else L.issue ch v (((M'.channel ch).senders.getLast?.map (·.waker)).getD .nil)
  | .receive .. => L

/-- What an event adds to the log. -/
def record (L : Log) (M M' : Scene) : Event → Log
  | .none | .channel .. => L
  | .completed _ _ (.send ch v _) => L.sends M M' ch v
  | .completed _ t (.receive ch _) => L.receives M M' ch t
  | .parked _ cases => cases.foldl (park M') L
  | .closed ch => L.withdraw ((M.channel ch).receivers.map (·.waker))

end Log

variable {L : Log} {M M' : Scene} {ch c t v w zero : Address} {ws zeros : List Address}
  {x : Waiter} {cases : List Case} {e : Event}

/-- The open send of a waiting thread. -/
def Waiter.pending (x : Waiter) : Sent := ⟨x.value, x.waker⟩

/-- A send that was settled. -/
def Sent.settled (v : Address) : Sent := ⟨v, .nil⟩

namespace Log

/-- The log agrees with what is seen: of each channel, what was sent is what was handed over, what
is in the buffer and what waiting threads want to send. -/
def Agrees (L : Log) (M : Scene) : Prop := ∀ ch, L.sent ch =
  (L.handed ch ++ (M.channel ch).buffer).map .settled ++ (M.channel ch).senders.map (·.pending)

theorem filter_settled (named : Address.nil ∉ ws) (l : List Address) :
    (l.map Sent.settled).filter (·.waker ∉ ws) = l.map .settled := by
  refine List.filter_eq_self.2 fun s hs => ?_
  obtain ⟨v, -, rfl⟩ := List.mem_map.1 hs
  exact decide_eq_true named

theorem settleFirst_settled (named : w ≠ .nil) (l : List Address) (x : Waiter) (xs : List Sent)
    (e : x.waker = w) :
    settleFirst w (l.map Sent.settled ++ x.pending :: xs) =
    (l ++ [x.value]).map Sent.settled ++ xs := by
  induction l with
  | nil => simp [settleFirst, Waiter.pending, Sent.settled, e]
  | cons v l ih => simpa [settleFirst, Sent.settled, named.symm] using ih

namespace Agrees

/-- The values, in order. -/
theorem values (agrees : L.Agrees M) (ch : Address) : (L.sent ch).map (·.value) =
    L.handed ch ++ (M.channel ch).buffer ++ (M.channel ch).senders.map (·.value) := by
  rw [agrees ch]
  simp [Sent.settled, Waiter.pending, Function.comp_def]

theorem withdraw (agrees : L.Agrees M) (named : Address.nil ∉ ws)
    (gone : ∀ ch, M'.channel ch = (M.channel ch).withoutAll ws) : (L.withdraw ws).Agrees M' := by
  intro ch
  rw [gone ch]
  simp only [Log.withdraw, agrees ch, ChannelView.withoutAll, List.filter_append,
    filter_settled named]
  rw [List.filter_map]
  rfl

/-- The same, for a thread that goes on. -/
theorem wake (agrees : L.Agrees M) (named : x.waker ≠ .nil) :
    (L.withdraw [x.waker]).Agrees (M.wake x) := by
  refine agrees.withdraw (by simpa using named.symm) fun ch => ?_
  simp [Scene.wake, ChannelView.without, ChannelView.withoutAll]

/-- A value that goes into the buffer while nobody waits to send. -/
theorem issue (agrees : L.Agrees M) (v : Address) (idle : (M.channel ch).senders = []) :
    (L.issue ch v .nil).Agrees (M.setBuffer ch ((M.channel ch).buffer ++ [v])) := by
  intro c
  by_cases e : c = ch
  · subst e
    simp [Log.issue, Scene.setBuffer, Scene.put, agrees c, idle, Sent.settled]
  · simp [Log.issue, Scene.setBuffer, Scene.put, agrees c, e]

/-- The front of a buffer is handed over. -/
theorem handOver (agrees : L.Agrees M) (ch v : Address) (vs : List Address)
    (front : (M.channel ch).buffer = v :: vs) :
    (L.handOver ch v).Agrees (M.setBuffer ch vs) := by
  intro c
  by_cases e : c = ch
  · subst e
    simp [Log.handOver, Scene.setBuffer, Scene.put, agrees c, front]
  · simp [Log.handOver, Scene.setBuffer, Scene.put, agrees c, e]

theorem sends (agrees : L.Agrees M) (bal : M.Balanced) (named : M.Unused .nil)
    (can : (M.channel ch).CanSend) {again : Bool} :
    (L.sends M ((M.send ch v).enqueueIf again t) ch v).Agrees (M.send ch v) := by
  cases receivers : (M.channel ch).receivers with
  | cons x xs =>
    have hx : x ∈ (M.channel ch).receivers := by simp [receivers]
    have hnil : x.waker ≠ .nil := named ch x (List.mem_append_right _ hx)
    have idle : ((M.wake x).channel ch).senders = [] := by
      refine List.filter_eq_nil_iff.2 fun y hy => ?_
      simpa using (bal ch).meeting y hy x hx
    have empty : ((M.wake x).channel ch).buffer = [] := bal.drained ch (by simp [receivers])
    have top : (((M.send ch v).enqueueIf again t).stash x.thread).headD .nil = v := by
      cases again <;> simp [Scene.send_cons receivers, Scene.push, Scene.enqueueIf, Scene.enqueue]
    have both := ((agrees.wake hnil).issue v idle).handOver ch v []
      (by simp [Scene.setBuffer, Scene.put, empty])
    intro c
    simp only [Log.sends, receivers, top]
    rw [both c, Scene.send_cons receivers]
    by_cases e : c = ch
    · subst e
      simp [Scene.setBuffer, Scene.put, Scene.push, empty]
    · simp [Scene.setBuffer, Scene.put, Scene.push, e]
  | nil =>
    have room := can.resolve_left (absurd receivers)
    have idle : (M.channel ch).senders = [] := by
      by_contra waits
      exact absurd ((bal ch).sending waits) (Nat.ne_of_lt room)
    simp only [Log.sends, receivers, Scene.send_nil receivers]
    exact agrees.issue v idle

theorem receives (agrees : L.Agrees M) (named : M.Unused .nil) {again : Bool} :
    (L.receives M ((M.receive ch t zero).enqueueIf again t) ch t).Agrees (M.receive ch t zero) := by
  cases senders : (M.channel ch).senders with
  | cons x xs =>
    obtain ⟨front, rest, e, seen⟩ := Scene.receive_cons t zero senders
    have hnil : x.waker ≠ .nil := named ch x (List.mem_append_left _ (by simp [senders]))
    have top : (((M.receive ch t zero).enqueueIf again t).stash t).headD .nil = front := by
      cases again <;> simp [seen, Scene.push, Scene.enqueueIf, Scene.enqueue]
    have taken : ((L.settle ch x.waker).withdraw [x.waker]).Agrees
        ((M.wake x).setBuffer ch ((M.channel ch).buffer ++ [x.value])) := by
      have settled : (L.settle ch x.waker).Agrees (M.put ch { M.channel ch with
          buffer := (M.channel ch).buffer ++ [x.value]
          senders := xs }) := by
        intro c
        by_cases e : c = ch
        · subst e
          simp only [settle, Function.update_self, agrees c, senders, List.map_cons]
          rw [settleFirst_settled hnil _ _ _ rfl]
          simp [Scene.put]
        · simp [settle, Scene.put, agrees c, e]
      refine settled.withdraw (by simpa using hnil.symm) fun c => ?_
      by_cases e : c = ch
      · subst e
        simp [Scene.setBuffer, Scene.put, Scene.wake, ChannelView.without, ChannelView.withoutAll,
          senders]
      · simp [Scene.setBuffer, Scene.put, Scene.wake, ChannelView.without, ChannelView.withoutAll,
          e]
    have both := taken.handOver ch front rest (by simp [Scene.setBuffer, Scene.put, e])
    intro c
    simp only [Log.receives, senders, top]
    rw [both c, seen]
    by_cases e : c = ch
    · subst e
      simp [Scene.setBuffer, Scene.put, Scene.push]
    · simp [Scene.setBuffer, Scene.put, Scene.push, e]
  | nil =>
    cases buffer : (M.channel ch).buffer with
    | nil =>
      simp only [Log.receives, senders, buffer, if_true, Scene.receive_zero senders buffer]
      exact agrees
    | cons v vs =>
      have top : (((M.receive ch t zero).enqueueIf again t).stash t).headD .nil = v := by
        cases again <;>
          simp [Scene.receive_buffer senders buffer, Scene.push, Scene.enqueueIf, Scene.enqueue]
      simp only [Log.receives, senders, buffer, top, reduceCtorEq, if_false]
      rw [Scene.receive_buffer senders buffer]
      exact agrees.handOver ch v vs buffer

/-- Who waits for some cases has sent what these send. -/
theorem park_sent (M' : Scene) (w t ch : Address) (last : ∀ k ∈ cases, k.sendsOn ch →
      (((M'.channel ch).senders.getLast?.map (·.waker)).getD .nil) = w) :
    (cases.foldl (Log.park M') L).sent ch =
      L.sent ch ++ ((cases.filter (·.sendsOn ch)).map (·.waiter w t)).map (·.pending) ∧
    (cases.foldl (Log.park M') L).handed = L.handed := by
  induction cases generalizing L with
  | nil => simp
  | cons k cases ih =>
    obtain ⟨sent, handed⟩ := ih (L := Log.park M' L k) fun k' hk' => last k' (by simp [hk'])
    have last := last k (by simp)
    rw [List.foldl_cons, sent, handed]
    obtain ⟨c, v, body⟩ | ⟨c, body⟩ := k
    · by_cases absent : c.isNil
      · simp [Log.park, absent, Case.sendsOn]
      · by_cases e : c = ch
        · subst e
          have last := last (by simp [Case.sendsOn, absent])
          simp [Log.park, absent, Case.sendsOn, Log.issue, last, Case.waiter, Waiter.pending,
            Case.value]
        · simp [Log.park, absent, e, Ne.symm e, Case.sendsOn, Log.issue]
    · simp [Log.park, Case.sendsOn]

theorem park (agrees : L.Agrees M) :
    (cases.foldl (Log.park (M.park w t cases)) L).Agrees (M.park w t cases) := by
  intro ch
  obtain ⟨sent, handed⟩ := park_sent (L := L) (M.park w t cases) w t ch fun k hk on => by
      have new : (cases.filter (·.sendsOn ch)).map (·.waiter w t) ≠ [] :=
        List.ne_nil_of_mem (List.mem_map_of_mem (List.mem_filter.2 ⟨hk, on⟩))
      rw [Scene.park_channel]
      simp only [List.getLast?_append_of_ne_nil _ new, List.getLast?_eq_getLast_of_ne_nil new,
        Option.map_some,
        Option.getD_some]
      obtain ⟨k', -, e⟩ := List.mem_map.1 (List.getLast_mem new)
      rw [← e]
      rfl
  rw [sent, handed, agrees ch, Scene.park_channel]
  simp

/-- The log that is written agrees with what is seen then. -/
theorem record (agrees : L.Agrees M) (bal : M.Balanced) (named : M.Unused .nil)
    (did : M.Does e M') :
    (L.record M M' e).Agrees M' := by
  cases did with
  | none => exact agrees
  | @channel ch cap new =>
    intro c
    have := agrees c
    by_cases e : c = ch
    · subst e
      simpa [Log.record, Scene.put, new] using this
    · simpa [Log.record, Scene.put, e] using this
  | parked => exact agrees.park
  | closed _ served =>
    obtain ⟨-, receivers⟩ := List.append_eq_nil_iff.1 served
    refine withdraw (M := M.put _ { M.channel _ with closed := true }) (fun c => ?_) ?_ fun c =>
      Scene.close_channel receivers
    · have := agrees c
      rw [Scene.channel_put]
      split
      · next e => exact e ▸ this
      · exact this
    · intro hnil
      obtain ⟨x, hx, e⟩ := List.mem_map.1 hnil
      exact named _ x (List.mem_append_right _ hx) e
  | @completed again t zero k ready =>
    intro c
    rw [Scene.channel_enqueueIf]
    cases k with
    | send ch v body => exact agrees.sends bal named ready.2 c
    | receive ch body => exact agrees.receives named c

end Agrees
end Log
end GoMachine
