import GoMachine.Proofs.Exchange.Log
import GoMachine.Proofs.Exchange.Select
import GoMachine.Proofs.Exchange.Shown
/-!
# Sessions

In a session channels and threads come together on a heap and call the operations of channels, in
any order. An `Exchange` is the heap with those who take part, `Exchange.Step` is one act of theirs
and `Session k L` says that a session has come to `k` with the log `L`.

* `Call.does`: a call that succeeds does to the scene what its event says.
* `Session.fifo`: channels lose, duplicate and reorder nothing.
-/
namespace GoMachine

open Heap (Owns)

/-- A call of an operation. A nil channel may be used in any of them. -/
inductive Call where
  | trySend (ch value : Address)
  | tryRecv (ch t : Address)
  | send (ch value t : Address)
  | recv (ch t : Address)
  | close (ch : Address)
  | select (cases : List Case) (order : List Nat) (hasDefault : Bool) (t : Address)

/-- What a call came to. -/
inductive Reply where
  /-- Whether the operation was done. -/
  | done (b : Bool)
  | chose (o : Outcome)
  deriving DecidableEq

namespace Call

/-- Runs a call. -/
def run (σ : Parties) : Call → Action Reply
  | trySend ch v => return .done ((← Channel.trySend ch v σ.scheduler) = .done)
  | tryRecv ch t => return .done ((← Channel.tryRecv ch t σ.structs σ.scheduler) = .done)
  | send ch v t => return .done (← Channel.send ch v t σ.scheduler)
  | recv ch t => return .done (← Channel.recv ch t σ.structs σ.scheduler)
  | close ch => do
    Channel.close ch σ.structs σ.scheduler
    return .done true
  | select cases order hasDefault t =>
    return .chose (← Select.run cases order hasDefault t σ.structs σ.scheduler)

/-- The channels and the thread of a call are among the parties, and a `select` tries its cases in
some order. -/
def Among (σ : Parties) : Call → Prop
  | trySend ch _ => σ.Knows ch
  | tryRecv ch t => σ.Knows ch ∧ t ∈ σ.threads
  | send ch _ t => σ.Knows ch ∧ t ∈ σ.threads
  | recv ch t => σ.Knows ch ∧ t ∈ σ.threads
  | close ch => σ.Knows ch
  | select cases order _ t =>
    (∀ c ∈ cases, σ.Knows c.channel) ∧ t ∈ σ.threads ∧ order.Perm (List.range cases.length)

/-- The thread that calls, where it matters who it is. -/
def caller : Call → Option Address
  | trySend .. | close _ => none
  | tryRecv _ t | send _ _ t | recv _ t | select _ _ _ t => some t

/-- What was done, by the reply. -/
def event : Call → Reply → Event
  | trySend ch v, .done true => .completed false .nil (.send ch v .nil)
  | tryRecv ch t, .done true => .completed false t (.receive ch .nil)
  | send ch v t, .done true => .completed true t (.send ch v .nil)
  | send ch v t, .done false => .parked t [.send ch v .nil]
  | recv ch t, .done true => .completed true t (.receive ch .nil)
  | recv ch t, .done false => .parked t [.receive ch .nil]
  | close ch, _ => .closed ch
  | select cases _ _ t, .chose (.ready i) =>
    match cases[i]? with
    | some c => .completed false t c
    | none => .none
  | select cases _ _ t, .chose .blocked => .parked t cases
  | _, _ => .none

end Call

/-- A heap with those who take part in a session, and the references that are owned. -/
structure Exchange where
  owned : Multiset Address
  parties : Parties
  heap : Heap

/-- What can happen in a session. -/
inductive Act where
  | channel (elem : Address) (cap : Int)
  | thread (id : UInt64) (frame structs : Address)
  /-- A number is made, which can be sent. -/
  | number (tag : Tag) (bits : UInt64)
  | call (c : Call)

namespace Exchange

/-- What is seen. -/
def scene (k : Exchange) : Scene := k.parties.scene k.heap

/-- One act, with what it did to channels. No act fails. -/
inductive Step (k : Exchange) : Act → Event → Exchange → Prop where
  | channel {elem ch : Address} {cap : Int} {h : Heap}
      (run : Channel.create elem cap k.heap = .ok ch h) :
    Step k (.channel elem cap) (.channel ch cap.toNat.toUInt64.toNat)
      ⟨ch ::ₘ k.owned, k.parties.withChannel ch, h⟩
  | thread {id : UInt64} {frame structs t : Address} {h : Heap}
    (run : Thread.create id frame structs k.heap = .ok t h) :
    Step k (.thread id frame structs) .none ⟨t ::ₘ k.owned, k.parties.withThread t, h⟩
  | number {tag : Tag} {bits : UInt64} {v : Address} {h : Heap}
    (run : Scalar.new tag bits k.heap = .ok v h) :
    Step k (.number tag bits) .none ⟨v ::ₘ k.owned, k.parties, h⟩
  | call {c : Call} {r : Reply} {h : Heap} (among : c.Among k.parties)
    (run : c.run k.parties k.heap = .ok r h) : Step k (.call c) (c.event r) { k with heap := h }

end Exchange

/-- A session starts with a scheduler on a heap of which some references are owned. -/
inductive Session : Exchange → Log → Prop where
  | opening {O : Multiset Address} {h h' : Heap} {s structs : Address} (own : Owns 0 8 O h)
    (run : Scheduler.create h = .ok s h') : Session ⟨s ::ₘ O, ⟨s, structs, [], []⟩, h'⟩ .empty
  | step {k k' : Exchange} {L : Log} {a : Act} {e : Event} (before : Session k L)
      (step : k.Step a e k') :
    Session k' (L.record k.scene k'.scene e)

variable {σ : Parties} {place : Part → Address} {I : Stage} {X Y : List Address}
    {O : Multiset Address}
  {n : Nat} {h : Heap} {ch t : Address} {c : Call} {k k' : Exchange} {a : Act} {e : Event} {L : Log}

namespace At

/-- A channel that can be used is not nil. -/
theorem check_real (stands : At σ place I X Y n O h) {u : Unit} (e : Channel.check ch h = .ok u) :
    ch.isNil = false := by
  obtain ⟨S, st, -⟩ := stands
  have sound := st.owns.exact.sound
  obtain ⟨tag, found, e⟩ := query_bind_ok.1 e
  refine Bool.eq_false_iff.2 fun absent => ?_
  obtain ⟨-, rfl⟩ | ⟨d, hd, rfl⟩ := sound.tag_ok.1 (ofHeap_ok.1 found)
  · rw [if_neg (by decide)] at e
    exact query_throw_ok.1 e
  · have := sound.isNil_eq_false (Heap.cell?_eq_some.1 hd).1
    simp [absent] at this

/-- Nobody waits behind nil. -/
theorem unused_nil (stands : At σ place I X Y n O h) : I.scene.Unused .nil := by
  obtain ⟨-, unused⟩ := stands.scene_addWaker (t := .nil) (w := .nil) fun i hi e => by
    obtain ⟨S, st, k, -⟩ := stands
    exact st.ne_nil (k.waker _ (.inr ⟨i, hi, rfl⟩)).1 e
  exact unused

end At

namespace Scene.Does

variable {M : Scene} {k : Case} {v w : Address} {again : Bool}

/-- A send is completed, whatever the zero value. -/
theorem sent {b : Address} (ready : M.Ready (.send ch v b)) :
    M.Does (.completed again t (.send ch v b)) ((M.send ch v).enqueueIf again t) :=
  @completed M again t .nil _ ready

/-- A thread waits for one case. -/
theorem parked_one (stuck : ¬M.Ready k) (new : M.Unused w) :
    M.Does (.parked t [k]) (M.register w t k) :=
  parked (fun _ hk => List.mem_singleton.1 hk ▸ stuck) new

/-- A thread that waits on a nil channel is not seen to wait. -/
theorem parked_nil (absent : k.channel.isNil = true) (unused : M.Unused .nil) :
    M.Does (.parked t [k]) M := by
  have did : M.Does (.parked t [k]) (M.register .nil t k) :=
    parked_one (fun ready => ready.1 absent) unused
  have stay : M.register .nil t k = M := by
    cases k <;> exact if_pos absent
  rwa [stay] at did

end Scene.Does

/-- A call that succeeds does what its event says. -/
theorem Call.does (stands : At σ place I X Y (n + 8) O h) (among : c.Among σ)
    (bal : I.scene.Balanced) :
    Yields (c.run σ) h fun r h' => ∃ J, At σ place J X Y (n + 8) O h' ∧
    I.scene.Does (c.event r) J.scene := by
  cases c with
  | trySend ch v =>
    rcases among with absent | hc
    · refine .bind (Q := fun _ _ => False) (.read fun closed e => ?_) fun _ _ => False.elim
      obtain ⟨u, checked, -⟩ := query_bind_ok.1 e
      simp [stands.check_real checked] at absent
    · refine (stands.trySend hc (bal.drained ch)).bind ?_
      rintro r h' ⟨_, J, at₁, came⟩
      refine .pure ⟨J, at₁, ?_⟩
      have real := stands.channel_ne_nil hc
      rcases came with ⟨rfl, can, seen⟩ | ⟨rfl, -, seen⟩
      · rw [seen]
        exact .sent ⟨by simp [Case.channel, real], can⟩
      · rw [seen]
        exact .none
  | tryRecv ch t =>
    obtain ⟨absent | hc, ht⟩ := among
    · refine .bind (Q := fun _ _ => False) (.read fun b e => ?_) fun _ _ => False.elim
      obtain ⟨u, checked, -⟩ := query_bind_ok.1 e
      simp [stands.check_real checked] at absent
    · refine (stands.tryRecv hc ht).bind ?_
      rintro r h' ⟨J, at₁, came⟩
      refine .pure ⟨J, at₁, ?_⟩
      have real := stands.channel_ne_nil hc
      rcases came with ⟨rfl, can, zero, seen⟩ | ⟨rfl, -, seen⟩
      · rw [seen]
        exact .completed (c := .receive ch .nil) ⟨by simp [Case.channel, real], can⟩
      · rw [seen]
        exact .none
  | send ch v t =>
    obtain ⟨absent | hc, ht⟩ := among
    · have idle : Channel.send ch v t σ.scheduler = pure false := if_pos absent
      refine Yields.bind (Q := fun r h' => r = false ∧ h' = h) (idle ▸ .pure ⟨rfl, rfl⟩) ?_
      rintro r h' ⟨rfl, rfl⟩
      exact .pure ⟨I, stands, .parked_nil absent stands.unused_nil⟩
    · refine (stands.send hc ht (bal.drained ch)).bind ?_
      rintro r h' ⟨J, at₁, came⟩
      refine .pure ⟨J, at₁, ?_⟩
      have real := stands.channel_ne_nil hc
      rcases came with ⟨rfl, can, seen⟩ | ⟨rfl, cannot, w, unused, seen⟩
      · rw [seen]
        exact .sent (b := .nil) ⟨by simp [Case.channel, real], can⟩
      · rw [seen]
        exact .parked_one (fun ready => cannot ready.2) unused
  | recv ch t =>
    obtain ⟨absent | hc, ht⟩ := among
    · have idle : Channel.recv ch t σ.structs σ.scheduler = pure false := if_pos absent
      refine Yields.bind (Q := fun r h' => r = false ∧ h' = h) (idle ▸ .pure ⟨rfl, rfl⟩) ?_
      rintro r h' ⟨rfl, rfl⟩
      exact .pure ⟨I, stands, .parked_nil absent stands.unused_nil⟩
    · refine (stands.recv hc ht).bind ?_
      rintro r h' ⟨J, at₁, came⟩
      refine .pure ⟨J, at₁, ?_⟩
      have real := stands.channel_ne_nil hc
      rcases came with ⟨rfl, can, zero, seen⟩ | ⟨rfl, cannot, w, unused, seen⟩
      · rw [seen]
        exact .completed (c := .receive ch .nil) ⟨by simp [Case.channel, real], can⟩
      · rw [seen]
        exact .parked_one (fun ready => cannot ready.2) unused
  | close ch =>
    rcases among with absent | hc
    · have stops : Yields (Channel.close ch σ.structs σ.scheduler) h fun _ _ => False :=
        .guard fun real => absurd absent real
      exact stops.bind fun _ _ => False.elim
    · refine (stands.close hc).bind ?_
      rintro _ h' ⟨isOpen, J, zeros, at₁, seen, receivers, senders⟩
      refine .pure ⟨J, at₁, ?_⟩
      rw [seen]
      refine .closed isOpen ?_
      rw [← seen]
      exact List.append_eq_nil_iff.2 ⟨senders, receivers⟩
  | select cases order hasDefault t =>
    obtain ⟨known, ht, all⟩ := among
    refine (stands.select known ht bal.drained fun i hi => all.mem_iff.2 (List.mem_range.2 hi)).bind
      ?_
    rintro r h' ⟨J, at₁, came⟩
    refine .pure ⟨J, at₁, ?_⟩
    rcases came with ⟨i, k, zero, rfl, hk, ready, seen⟩ | ⟨stuck,
      ⟨-, rfl, seen⟩ | ⟨-, rfl, w, unused, seen⟩⟩
    · rw [seen]
      simp only [Call.event, hk]
      exact .completed ready
    · rw [seen]
      exact .none
    · rw [seen]
      exact .parked stuck unused

/-- An act does what its event says, and the parties are on a stage again. -/
theorem Exchange.Step.does (step : k.Step a e k')
    (stands : At k.parties place I [] [] (n + 8) k.owned k.heap)
    (bal : I.scene.Balanced) : ∃ place' J, At k'.parties place' J [] [] (n + 8) k'.owned k'.heap ∧
      I.scene.Does e J.scene := by
  cases step with
  | channel run =>
    obtain ⟨new, place', J, at₁, seen⟩ := stands.joinChannel _ _ run
    refine ⟨place', J, at₁, seen ▸ .channel ?_⟩
    rw [← stands.scene_eq]
    exact if_neg new
  | thread run =>
    obtain ⟨-, place', at₁⟩ := stands.joinThread _ _ run
    exact ⟨place', I, at₁, .none⟩
  | number run => exact ⟨place, I, stands.adds Scalar.new_adds _ _ run, .none⟩
  | call among run =>
    obtain ⟨J, at₁, did⟩ := Call.does stands among bal _ _ run
    exact ⟨place, J, at₁, did⟩

/-- What holds in every session. -/
structure Exchange.Sound (k : Exchange) (L : Log) : Prop where
  staged : ∃ place I, At k.parties place I [] [] 8 k.owned k.heap
  balanced : k.scene.Balanced
  agrees : L.Agrees k.scene

/-- A session comes to sound states only. -/
theorem Session.sound (session : Session k L) : k.Sound L := by
  induction session with
  | @opening O h h' s structs own run =>
    obtain ⟨place, stands⟩ := Scheduler.create_at structs own _ _ run
    have seen : Exchange.scene ⟨s ::ₘ O, ⟨s, structs, [], []⟩, h'⟩ = .empty := stands.scene_eq
    refine ⟨⟨place, _, stands⟩, ?_, ?_⟩
    · rw [seen]
      exact fun _ => ChannelView.balanced_default
    · rw [seen]
      exact fun _ => rfl
  | @step k k' L a e before step ih =>
    obtain ⟨⟨place, I, stands⟩, bal, agrees⟩ := ih
    have seen : k.scene = I.scene := stands.scene_eq
    rw [seen] at bal agrees
    obtain ⟨place', J, at₁, did⟩ := step.does (n := 0) stands bal
    have seen' : k'.scene = J.scene := at₁.scene_eq
    refine ⟨⟨place', J, at₁⟩, ?_, ?_⟩
    · rw [seen']
      exact did.keeps_balance bal
    · rw [seen, seen']
      exact agrees.record bal stands.unused_nil did

/-- Channels lose, duplicate and reorder nothing, and nobody waits on them without need. -/
theorem Session.fifo (session : Session k L) (hc : ch ∈ k.parties.channels) :
    ∃ V, Channel.view ch k.heap = .ok V ∧
      L.handed ch ++ V.buffer ++ V.senders.map (·.value) = (L.sent ch).map (·.value) ∧
      V.Balanced := by
  obtain ⟨⟨place, I, stands⟩, bal, agrees⟩ := session.sound
  exact ⟨_, stands.shown.channel ch hc, (agrees.values ch).symm, bal ch⟩

/-! ## Playing a session -/

instance (σ : Parties) (ch : Address) : Decidable (σ.Knows ch) :=
    inferInstanceAs (Decidable (_ ∨ _))

instance (σ : Parties) : (c : Call) → Decidable (c.Among σ)
  | .trySend ch _ | .close ch => inferInstanceAs (Decidable (σ.Knows ch))
  | .tryRecv .. | .send .. | .recv .. => inferInstanceAs (Decidable (_ ∧ _))
  | .select .. => inferInstanceAs (Decidable (_ ∧ _ ∧ _))

namespace Exchange

/-- Does an act, if it does not fail. -/
def perform (k : Exchange) : Act → Option (Event × Exchange)
  | .channel elem cap => match Channel.create elem cap k.heap with
    | .ok ch h =>
        some (.channel ch cap.toNat.toUInt64.toNat, ⟨ch ::ₘ k.owned, k.parties.withChannel ch, h⟩)
    | .error .. => none
  | .thread id frame structs => match Thread.create id frame structs k.heap with
    | .ok t h => some (.none, ⟨t ::ₘ k.owned, k.parties.withThread t, h⟩)
    | .error .. => none
  | .number tag bits => match Scalar.new tag bits k.heap with
    | .ok v h => some (.none, ⟨v ::ₘ k.owned, k.parties, h⟩)
    | .error .. => none
  | .call c => if c.Among k.parties then match c.run k.parties k.heap with
      | .ok r h => some (c.event r, { k with heap := h })
      | .error .. => none
    else none

theorem step_of_perform (done : k.perform a = some (e, k')) : k.Step a e k' := by
  unfold perform at done
  split at done
  · split at done
    · next run =>
      cases done
      exact .channel run
    · cases done
  · split at done
    · next run =>
      cases done
      exact .thread run
    · cases done
  · split at done
    · next run =>
      cases done
      exact .number run
    · cases done
  · split at done
    · next among =>
      split at done
      · next run =>
        cases done
        exact .call among run
      · cases done
    · cases done

/-- Does some acts and writes the log. -/
def play (k : Exchange) (L : Log) : List Act → Option (Exchange × Log)
  | [] => some (k, L)
  | a :: acts => match k.perform a with
    | some (e, k') => k'.play (L.record k.scene k'.scene e) acts
    | none => none

/-- A scheduler on a heap of its own. -/
def fresh (words : Nat) : Option Exchange :=
  match Heap.new words with
  | .ok h => match Scheduler.create h with
    | .ok s h' => some ⟨{s}, ⟨s, .nil, [], []⟩, h'⟩
    | .error .. => none
  | .error _ => none

end Exchange

theorem Session.play {acts : List Act} {L' : Log} (session : Session k L)
    (done : k.play L acts = some (k', L')) : Session k' L' := by
  induction acts generalizing k L with
  | nil =>
    cases done
    exact session
  | cons a acts ih =>
    unfold Exchange.play at done
    split at done
    · next performed => exact ih (session.step (Exchange.step_of_perform performed)) done
    · cases done

theorem Session.fresh {words : Nat} (made : Exchange.fresh words = some k) : Session k .empty := by
  unfold Exchange.fresh at made
  split at made
  · next h new =>
    split at made
    · next run =>
      cases made
      refine .opening (O := 0) ⟨.new new, by decide, fun a _ => ?_⟩ run
      simp [Heap.limit]
    · cases made
  · cases made

/-- On a channel without a buffer, one value was handed to a waiting thread and another one waits.
-/
theorem Session.fifo_rendezvous : ∃ k L ch v V, Session k L ∧ Channel.view ch k.heap = .ok V ∧
    L.handed ch = [v] ∧ [v] ++ V.buffer ++ V.senders.map (·.value) = (L.sent ch).map (·.value) ∧
    V.senders ≠ [] ∧ V.Balanced := by
  let acts : List Act :=
    [.thread 0 .nil .nil, .channel .nil 0, .number .int32 7, .call (.recv ⟨49⟩ ⟨17⟩),
    .call (.trySend ⟨49⟩ ⟨89⟩), .call (.send ⟨49⟩ ⟨89⟩ ⟨17⟩)]
  have ran : (match Exchange.fresh 256 with
    | some k₀ => match k₀.play .empty acts with
      | some (k, L) =>
          ⟨49⟩ ∈ k.parties.channels ∧ L.handed ⟨49⟩ = [⟨89⟩] ∧ (k.scene.channel ⟨49⟩).senders ≠ []
      | none => false
    | none => false) = true := by decide +kernel
  split at ran
  · next k₀ made =>
    split at ran
    · next k L played =>
      obtain ⟨hc, handed, senders⟩ := of_decide_eq_true ran
      have session := (Session.fresh made).play played
      obtain ⟨V, seen, order, bal⟩ := Session.fifo session hc
      have same : k.scene.channel ⟨49⟩ = V := by
        simp only [Exchange.scene, Parties.scene, hc, if_true, Query.orDefault, seen]
      exact ⟨k, L, ⟨49⟩, ⟨89⟩, V, session, seen, handed, handed ▸ order, same ▸ senders, bal⟩
    · cases ran
  · cases ran

end GoMachine
