import GoMachine.Proofs.Exchange.Scene
import GoMachine.Proofs.Store.Chains
/-!
# How a scene is stored

Each list of a scene stands in a container of its own, a `Part`, and each waiting thread in a
waiting instance and a waker. A `Stage` tells what stands in them, stale instances included, and
`Staged σ place I X Y S` says that a store is as the stage `I` tells, with the part `p` at `place
p`. `X` and `Y` are instances and wakers that a client holds on the way, outside of the queues.

* `Staged.put`, `Staged.spend`, `Staged.takeValue`, `Staged.close`: single changes.
* `Staged.kept`: what a client keeps when it gives something up.
-/
namespace GoMachine

open Heap (Stores kept kept_of Reach)

/-- The containers of a scene. -/
inductive Part where
  | runnable
  | buffer (ch : Address)
  | senders (ch : Address)
  | receivers (ch : Address)
  | stash (t : Address)
  | control (t : Address)
  deriving DecidableEq

namespace Part

/-- What stands at a container with some values. -/
def shape (l : List Address) : Part → Shape
  | stash _ => .stack .stash l
  | control _ => .stack .control l
  | _ => .queue l

/-- The containers of waiting instances. -/
inductive Waits : Part → Prop where
  | senders (ch : Address) : Waits (senders ch)
  | receivers (ch : Address) : Waits (receivers ch)

theorem shape_ne_plain {p : Part} {l : List Address} {B : Body} : p.shape l ≠ .plain B := by
  cases p <;> exact nofun

end Part

/-- Where the thread waits for a case. -/
def Case.part : Case → Part
  | send ch .. => .senders ch
  | receive ch _ => .receivers ch

/-- The containers of the parties. -/
def Parties.Has (σ : Parties) : Part → Prop
  | .runnable => True
  | .buffer ch | .senders ch | .receivers ch => ch ∈ σ.channels
  | .stash t | .control t => t ∈ σ.threads

/-- What stands in the containers, in waiting instances, in wakers and in channels. -/
structure Stage where
  content : Part → List Address
  waker : Address → Address
  value : Address → Address
  body : Address → Address
  thread : Address → Address
  cap : Address → UInt64
  closed : Address → UInt64

namespace Stage

variable {I : Stage} {i w t v : Address} {l l' : List Address} {p q : Part}

/-- A container has other values. -/
def put (I : Stage) (p : Part) (l : List Address) : Stage :=
  { I with content := Function.update I.content p l }

/-- A waker is spent. -/
def spend (I : Stage) (w : Address) : Stage := { I with thread := Function.update I.thread w .nil }

/-- An instance has given its value up. -/
def dropValue (I : Stage) (i : Address) : Stage :=
  { I with value := Function.update I.value i .nil }

/-- A channel is closed. -/
def close (I : Stage) (ch : Address) : Stage := { I with closed := Function.update I.closed ch 1 }

/-- A waker has a thread. -/
def addWaker (I : Stage) (w t : Address) : Stage :=
  { I with thread := Function.update I.thread w t }

/-- An instance has a waker, a value and a body. -/
def addInstance (I : Stage) (i w v b : Address) : Stage :=
  { I with
    waker := Function.update I.waker i w
    value := Function.update I.value i v
    body := Function.update I.body i b }

/-- Who waits behind an instance. -/
def waiter? (I : Stage) (i : Address) : Option Waiter :=
  if (I.thread (I.waker i)).isNil then none
  else some ⟨I.waker i, I.thread (I.waker i), I.value i, I.body i⟩

/-- Who waits behind some instances. -/
def live (I : Stage) (l : List Address) : List Waiter := l.filterMap I.waiter?

/-- What is seen of a channel. -/
def view (I : Stage) (ch : Address) : ChannelView where
  cap := (I.cap ch).toNat
  closed := I.closed ch != 0
  buffer := I.content (.buffer ch)
  senders := I.live (I.content (.senders ch))
  receivers := I.live (I.content (.receivers ch))

/-- What is seen of all. -/
def scene (I : Stage) : Scene where
  channel := I.view
  stash t := I.content (.stash t)
  control t := I.content (.control t)
  runnable := I.content .runnable

@[simp]
theorem put_self : (I.put p l).content p = l := Function.update_self ..

theorem put_of_ne (ne : q ≠ p) : (I.put p l).content q = I.content q := Function.update_of_ne ne ..

theorem content_put : (I.put p l).content q = if q = p then l else I.content q :=
  Function.update_apply ..

@[simp]
theorem cap_put {ch : Address} : (I.put p l).cap ch = I.cap ch := rfl

@[simp]
theorem closed_put {ch : Address} : (I.put p l).closed ch = I.closed ch := rfl

@[simp]
theorem put_put : (I.put p l).put p l' = I.put p l' := by simp [put]

theorem put_eq_self (e : I.content p = l) : I.put p l = I := by
  rw [put, Function.update_eq_self_iff.2 e.symm]

@[simp]
theorem live_put : (I.put p l).live l' = I.live l' := rfl

@[simp]
theorem waiter?_put : (I.put p l).waiter? i = I.waiter? i := rfl

theorem waiter?_eq_some {x : Waiter} : I.waiter? i = some x ↔ (I.thread (I.waker i)).isNil = false ∧
    ⟨I.waker i, I.thread (I.waker i), I.value i, I.body i⟩ = x := by
  unfold waiter?
  split <;> simp_all

/-- Those who wait behind the waker are gone, and all others are still there. -/
theorem live_spend : (I.spend w).live l = (I.live l).filter (·.waker ≠ w) := by
  unfold live
  rw [List.filter_filterMap]
  refine List.filterMap_congr fun i _ => ?_
  unfold waiter? spend
  by_cases e : I.waker i = w
  · have gone : (Function.update I.thread w .nil (I.waker i)).isNil = true := by
      rw [e, Function.update_self]
      rfl
    simp only [gone, if_true]
    split <;> simp [Option.filter, e]
  · simp only [Function.update_of_ne e]
    split <;> simp [Option.filter, e]

/-! ### Scenes -/

/-- A value goes onto the stash of a thread. -/
def pushStash (I : Stage) (t v : Address) : Stage := I.put (.stash t) (v :: I.content (.stash t))

/-- The thread of an instance goes on with the body of the instance. -/
def resume (I : Stage) (i : Address) : Stage :=
  let t := I.thread (I.waker i)
  let J := if (I.body i).isNil then I else I.put (.control t) (I.body i :: I.content (.control t))
  (J.spend (I.waker i)).put .runnable (I.content .runnable ++ [t])

theorem view_put (w : p.Waits) (same : I.live l = I.live (I.content p)) :
    (I.put p l).view = I.view := by
  funext ch
  cases w <;> simp only [view, content_put, cap_put, closed_put, live_put, reduceCtorEq, if_false,
    Part.senders.injEq, Part.receivers.injEq, ChannelView.mk.injEq, true_and, and_true]
  all_goals
    split
    · next e => rw [same, e]
    · rfl

theorem scene_put (w : p.Waits) (same : I.live l = I.live (I.content p)) :
    (I.put p l).scene = I.scene := by
  simp only [scene, view_put w same, content_put]
  cases w <;> simp

theorem view_put_stash {t : Address} : (I.put (.stash t) l).view = I.view := by
  funext ch
  simp [view, content_put]

theorem view_put_control {t : Address} : (I.put (.control t) l).view = I.view := by
  funext ch
  simp [view, content_put]

theorem view_put_runnable : (I.put .runnable l).view = I.view := by
  funext ch
  simp [view, content_put]

theorem scene_pushStash : (I.pushStash t v).scene = I.scene.push t v := by
  simp only [pushStash, scene, Scene.push, view_put_stash, content_put, Scene.mk.injEq, true_and]
  refine ⟨?_, ?_, ?_⟩
  · funext u
    by_cases e : u = t <;> simp [e]
  · simp
  · simp

theorem scene_setBuffer {ch : Address} : (I.put (.buffer ch) l).scene = I.scene.setBuffer ch l := by
  simp only [scene, Scene.setBuffer, Scene.put, content_put, Scene.mk.injEq]
  refine ⟨?_, ?_, ?_, ?_⟩
  · funext c
    by_cases e : c = ch <;> simp [view, content_put, e]
  · simp
  · simp
  · simp

theorem scene_enqueue : (I.put .runnable (I.content .runnable ++ [t])).scene =
    I.scene.enqueue t := by
  simp only [scene, Scene.enqueue, view_put_runnable, content_put, Scene.mk.injEq, true_and]
  simp

theorem scene_close {ch : Address} :
    (I.close ch).scene = I.scene.put ch { I.scene.channel ch with closed := true } := by
  simp only [scene, Scene.put, Scene.mk.injEq]
  refine ⟨funext fun c => ?_, rfl, rfl, rfl⟩
  by_cases e : c = ch
  · subst e
    simp [view, close]
    exact ⟨rfl, rfl⟩
  · simp [view, close, e]
    exact ⟨rfl, rfl⟩

/-- Behind a waker that is spent nobody waits. -/
theorem live_dropValue : ((I.dropValue i).live l).filter (·.waker ≠ I.waker i) =
    (I.live l).filter (·.waker ≠ I.waker i) := by
  rw [live, live, List.filter_filterMap, List.filter_filterMap]
  refine List.filterMap_congr fun j _ => ?_
  by_cases e : j = i
  · subst e
    by_cases gone : (I.thread (I.waker j)).isNil <;> simp [waiter?, dropValue, gone, Option.filter]
  · simp [waiter?, dropValue, e]

theorem view_spend {ch : Address} : (I.spend w).view ch = (I.view ch).without w := by
  rw [ChannelView.without, view, view, live_spend, live_spend]
  rfl

theorem view_resume {ch : Address} : (I.resume i).view ch = (I.view ch).without (I.waker i) := by
  rw [resume, view_put_runnable, view_spend]
  split
  · rfl
  · rw [view_put_control]

/-- The thread of a live instance goes on. -/
theorem scene_resume {x : Waiter} (here : I.waiter? i = some x) :
    (I.resume i).scene = I.scene.wake x := by
  obtain ⟨-, rfl⟩ := waiter?_eq_some.1 here
  simp only [scene, Scene.wake, Scene.mk.injEq]
  refine ⟨funext fun ch => view_resume, ?_, ?_, ?_⟩
  · funext t
    unfold resume
    split <;> simp [content_put, spend]
  · unfold resume
    split
    · simp [content_put, spend]
    · funext t
      by_cases e : t = I.thread (I.waker i) <;> simp [content_put, spend, e]
  · simp [resume]

theorem view_dropValue {ch : Address} :
    ((I.dropValue i).view ch).without (I.waker i) = (I.view ch).without (I.waker i) := by
  simp only [ChannelView.without, view, live_dropValue]
  rfl

/-- It does not matter then whether the instance had given up its value. -/
theorem scene_resume_dropValue : ((I.dropValue i).resume i).scene = (I.resume i).scene := by
  have views : ((I.dropValue i).resume i).view = (I.resume i).view := by
    funext ch
    rw [view_resume, view_resume]
    exact view_dropValue
  simp only [scene, views, Scene.mk.injEq, true_and]
  unfold resume dropValue
  refine ⟨?_, ?_, ?_⟩ <;> split <;> rfl

/-- Nor does it matter who waited before it in its queue: nobody who was alive. -/
theorem scene_put_wake {x : Waiter} (w : p.Waits) (first : I.live (I.content p) = x :: I.live l) :
    (I.put p l).scene.wake x = I.scene.wake x := by
  have views : ∀ ch, ((I.put p l).view ch).without x.waker = (I.view ch).without x.waker := by
    have same : (I.live (I.content p)).filter (·.waker ≠ x.waker) = (I.live l).filter
      (·.waker ≠ x.waker) := by
      rw [first, List.filter_cons_of_neg (by simp)]
    intro ch
    cases w <;> simp only [view, ChannelView.without, content_put, cap_put, closed_put, live_put,
      reduceCtorEq, if_false, Part.senders.injEq, Part.receivers.injEq, ChannelView.mk.injEq,
      true_and,
      and_true]
    all_goals
      split
      · next e => rw [e, same]
      · rfl
  have rest : ∀ t, (I.put p l).content (.stash t) = I.content (.stash t) ∧
      (I.put p l).content (.control t) = I.content (.control t) ∧
      (I.put p l).content .runnable = I.content .runnable := by
    cases w <;> simp [content_put]
  have run := (rest .nil).2.2
  simp only [scene, Scene.wake, views, rest, run]

theorem live_addInstance {w b : Address} (out : i ∉ l) :
    (I.addInstance i w v b).live l = I.live l := by
  refine List.filterMap_congr fun j hj => ?_
  have ne : j ≠ i := fun e => out (e ▸ hj)
  simp [waiter?, addInstance, ne]

/-- A waker behind which nobody waits yet is not seen. -/
theorem scene_addWaker (new : ∀ p : Part, ∀ j ∈ I.content p, p.Waits → I.waker j ≠ w) :
    (I.addWaker w t).scene = I.scene := by
  have same : ∀ p : Part, p.Waits → (I.addWaker w t).live (I.content p) = I.live (I.content p) := by
    intro p hp
    refine List.filterMap_congr fun j hj => ?_
    simp [waiter?, addWaker, new p j hj hp]
  have views : (I.addWaker w t).view = I.view := by
    funext ch
    simp only [view, ChannelView.mk.injEq]
    exact ⟨rfl, rfl, rfl, same _ (.senders ch), same _ (.receivers ch)⟩
  simp only [scene, views]
  rfl

/-- A thread is seen to wait for a case. -/
theorem scene_register {c : Case} (real : c.channel.isNil = false)
    (new : ∀ p : Part, p.Waits → i ∉ I.content p) (awake : (I.thread w).isNil = false) :
    ((I.addInstance i w c.value c.body).put c.part (I.content c.part ++ [i])).scene =
      I.scene.register w (I.thread w) c := by
  have old (v b : Address) (p : Part) (hp : p.Waits) :
      (I.addInstance i w v b).live (I.content p) = I.live (I.content p) :=
      live_addInstance (new p hp)
  have added (v b : Address) : (I.addInstance i w v b).live [i] = [⟨w, I.thread w, v, b⟩] := by
    simp [live, waiter?, addInstance, awake]
  have contents (v b : Address) : (I.addInstance i w v b).content = I.content := rfl
  have append (l l' : List Address) (J : Stage) : J.live (l ++ l') = J.live l ++ J.live l' :=
    List.filterMap_append
  obtain ⟨ch, v', body⟩ | ⟨ch, body⟩ := c
  all_goals
    replace real : ch.isNil = false := real
    simp only [Scene.register, real, Bool.false_eq_true, if_false, Case.part, Case.value, Case.body]
    simp only [scene, Scene.put, content_put, contents, reduceCtorEq, if_false, Scene.mk.injEq,
      and_true]
    funext c
    by_cases e : c = ch
    · subst e
      simp [view, content_put, contents, append, added, old _ _ _ (.senders c),
        old _ _ _ (.receivers c)]
      exact ⟨rfl, rfl⟩
    · simp [view, content_put, contents, e, old _ _ _ (.senders c), old _ _ _ (.receivers c)]
      exact ⟨rfl, rfl⟩

theorem put_comm (ne : p ≠ q) : (I.put p l).put q l' = (I.put q l').put p l := by
  simp only [put]
  rw [Function.update_comm ne]

theorem resume_setBuffer {ch : Address} :
    (I.put (.buffer ch) l).resume i = (I.resume i).put (.buffer ch) l := by
  have spent : ∀ J : Stage, (J.put (.buffer ch) l).spend (I.waker i) = (J.spend (I.waker i)).put
    (.buffer ch) l :=
    fun _ => rfl
  by_cases absent : (I.body i).isNil
  · simp only [resume, absent, if_true, show (I.put (.buffer ch) l).body = I.body from rfl]
    rw [show (I.put (.buffer ch) l).waker = I.waker from rfl, spent, put_comm (by simp),
      put_of_ne (by simp)]
    rfl
  · simp only [resume, absent, Bool.false_eq_true, if_false,
      show (I.put (.buffer ch) l).body = I.body from rfl]
    rw [show (I.put (.buffer ch) l).waker = I.waker from rfl, put_comm (by simp),
      put_of_ne (by simp), spent,
      put_comm (by simp), put_of_ne (by simp)]
    rfl

end Stage

variable {σ : Parties} {place : Part → Address} {I : Stage} {X Y : List Address} {S S' : Store}
  {O : Multiset Address} {n : Nat} {h : Heap} {a b ch i t v w : Address} {l : List Address}
  {p q : Part}
  {s s' : Shape}

/-- The instance is held or in a queue. -/
def Parties.Tracks (σ : Parties) (I : Stage) (X : List Address) (i : Address) : Prop :=
  i ∈ X ∨ ∃ p : Part, p.Waits ∧ σ.Has p ∧ i ∈ I.content p

/-- The store is as the stage tells. -/
structure Staged (σ : Parties) (place : Part → Address) (I : Stage) (X Y : List Address)
    (S : Store) :
    Prop where
  scheduler : ∃ id, S σ.scheduler = some (.plain ⟨.scheduler, [id], [place .runnable]⟩)
  channel : ∀ ch ∈ σ.channels, ∃ elem, S ch = some (.plain ⟨.channel, [I.cap ch, I.closed ch],
    [place (.buffer ch), place (.senders ch), place (.receivers ch), elem]⟩)
  thread : ∀ t ∈ σ.threads, ∃ id env, S t = some (.plain ⟨.thread, [id],
    [place (.control t), place (.stash t), env]⟩)
  content : ∀ p, σ.Has p → S (place p) = some (p.shape (I.content p))
  apart : ∀ p q, σ.Has p → σ.Has q → place p = place q → p = q
  blank : ∀ p, ¬σ.Has p → I.content p = []
  off : ∀ ch, ch ∉ σ.channels → I.cap ch = 0 ∧ I.closed ch = 0
  inst : ∀ i, σ.Tracks I X i →
    S i = some (.plain ⟨.waitingInstance, [], [I.waker i, I.value i, I.body i]⟩)
  waker : ∀ w, (w ∈ Y ∨ ∃ i, σ.Tracks I X i ∧ I.waker i = w) →
    S w = some (.plain ⟨.waker, [], [I.thread w]⟩) ∧ (I.thread w = .nil ∨ I.thread w ∈ σ.threads)

/-- The client owns what it has to. -/
def Anchored (σ : Parties) (X Y : List Address) (O : Multiset Address) : Prop :=
  σ.scheduler ∈ O ∧ (∀ ch ∈ σ.channels, ch ∈ O) ∧ (∀ t ∈ σ.threads, t ∈ O) ∧ (∀ i ∈ X, i ∈ O) ∧
    ∀ w ∈ Y, w ∈ O

/-- What says different things stands at different addresses. -/
theorem Store.ne (ha : S a = some s) (hb : S b = some s') (hs : s ≠ s') : a ≠ b := by
  rintro rfl
  exact hs (Option.some_inj.1 (ha.symm.trans hb))

theorem stored_update {x : Shape} (hb : S b = some s') (ne : b ≠ a) :
    Function.update S a (some x) b = some s' := by
  rwa [Function.update_of_ne ne]

namespace Staged

/-- More is stored. -/
theorem mono (k : Staged σ place I X Y S) (le : ∀ a s, S a = some s → S' a = some s) :
    Staged σ place I X Y S' where
  scheduler := k.scheduler.imp fun _ h => le _ _ h
  channel ch hc := (k.channel ch hc).imp fun _ h => le _ _ h
  thread t ht := (k.thread t ht).imp fun _ => Exists.imp fun _ h => le _ _ h
  content p hp := le _ _ (k.content p hp)
  apart := k.apart
  blank := k.blank
  off := k.off
  inst i hi := le _ _ (k.inst i hi)
  waker w hw := (k.waker w hw).imp_left (le _ _)

/-- Something new is stored. -/
theorem fresh (k : Staged σ place I X Y S) (new : S a = none) {o : Option Shape} :
    Staged σ place I X Y (Function.update S a o) := k.mono fun b s hb => by
  rwa [Function.update_of_ne]
  rintro rfl
  simp [new] at hb

/-- The client holds less. -/
theorem drop {X' Y' : List Address} (k : Staged σ place I X Y S) (hX : X' ⊆ X) (hY : Y' ⊆ Y) :
    Staged σ place I X' Y' S :=
  have tracks : ∀ i, σ.Tracks I X' i → σ.Tracks I X i := fun _ hi => hi.imp_left (hX ·)
  { k with
    inst := fun i hi => k.inst i (tracks i hi)
    waker := fun w hw => k.waker w (hw.imp (hY ·) fun ⟨i, hi, e⟩ => ⟨i, tracks i hi, e⟩) }

/-- What the client can get at is all there when it keeps that only. -/
theorem kept (k : Staged σ place I X Y S) (anchored : Anchored σ X Y O) :
    Staged σ place I X Y (kept S O) := by
  obtain ⟨hs, hc, ht, hX, hY⟩ := anchored
  have keep {a : Address} {s : Shape} (r : Reach S O a) (ha : S a = some s) :
    Heap.kept S O a = some s :=
    (kept_of r).trans ha
  have part {p : Part} (hp : σ.Has p) : Reach S O (place p) := by
    cases p with
    | runnable => exact .slot (.owned hs) k.scheduler.choose_spec (by simp [Shape.refs])
    | buffer ch =>
        exact .slot (.owned (hc ch hp)) (k.channel ch hp).choose_spec (by simp [Shape.refs])
    | senders ch =>
        exact .slot (.owned (hc ch hp)) (k.channel ch hp).choose_spec (by simp [Shape.refs])
    | receivers ch =>
        exact .slot (.owned (hc ch hp)) (k.channel ch hp).choose_spec (by simp [Shape.refs])
    | stash t =>
      exact .slot (.owned (ht t hp)) (k.thread t hp).choose_spec.choose_spec (by simp [Shape.refs])
    | control t =>
      exact .slot (.owned (ht t hp)) (k.thread t hp).choose_spec.choose_spec (by simp [Shape.refs])
  have inst {i : Address} (hi : σ.Tracks I X i) : Reach S O i := by
    rcases hi with hi | ⟨p, hw, hp, hi⟩
    · exact .owned (hX i hi)
    · refine .slot (part hp) (k.content p hp) ?_
      cases hw <;> exact hi
  refine ⟨k.scheduler.imp fun _ => keep (.owned hs), fun ch h => (k.channel ch h).imp fun _ =>
    keep (.owned (hc ch h)), fun t h => (k.thread t h).imp fun _ => Exists.imp fun _ =>
    keep (.owned (ht t h)), fun p hp => keep (part hp) (k.content p hp), k.apart, k.blank, k.off,
    fun i hi => keep (inst hi) (k.inst i hi), fun w hw => (k.waker w hw).imp_left (keep ?_)⟩
  rcases hw with hw | ⟨i, hi, rfl⟩
  · exact .owned (hY w hw)
  · exact .slot (inst hi) (k.inst i hi) (by simp [Shape.refs])

/-- The client holds one more of the instances. -/
theorem hold (k : Staged σ place I X Y S) (hi : σ.Tracks I X i) : Staged σ place I (i :: X) Y S :=
  have tracks : ∀ j, σ.Tracks I (i :: X) j → σ.Tracks I X j := fun _ hj => hj.elim
    (fun h => (List.mem_cons.1 h).elim (fun e => e ▸ hi) .inl) .inr
  { k with
    inst := fun j hj => k.inst j (tracks j hj)
    waker := fun w hw => k.waker w (hw.imp_right fun ⟨j, hj, e⟩ => ⟨j, tracks j hj, e⟩) }

/-- A container gets other values. -/
theorem put (k : Staged σ place I X Y S) (hp : σ.Has p) (new : p.Waits → ∀ i ∈ l, σ.Tracks I X i) :
    Staged σ place (I.put p l) X Y (Function.update S (place p) (some (p.shape l))) := by
  have other {a : Address} {B : Body} (ha : S a = some (.plain B)) :
      Function.update S (place p) (some (p.shape l)) a = some (.plain B) :=
    stored_update ha (Store.ne ha (k.content p hp) Part.shape_ne_plain.symm)
  have tracks : ∀ i, σ.Tracks (I.put p l) X i → σ.Tracks I X i := by
    rintro i (hi | ⟨q, hw, hq, hi⟩)
    · exact .inl hi
    · by_cases e : q = p
      · subst e
        rw [Stage.put_self] at hi
        exact new hw i hi
      · rw [Stage.put_of_ne e] at hi
        exact .inr ⟨q, hw, hq, hi⟩
  refine ⟨k.scheduler.imp fun _ => other, fun ch h => (k.channel ch h).imp fun _ => other,
    fun t h => (k.thread t h).imp fun _ => Exists.imp fun _ => other, fun q hq => ?_, k.apart,
    fun q hq => (Stage.put_of_ne (by rintro rfl; exact hq hp)).trans (k.blank q hq), k.off,
    fun i hi => other (k.inst i (tracks i hi)), fun w hw => ?_⟩
  · by_cases e : q = p
    · subst e
      rw [Function.update_self, Stage.put_self]
    · rw [Stage.put_of_ne e]
      exact stored_update (k.content q hq) fun h => e (k.apart q p hq hp h)
  · exact (k.waker w (hw.imp_right fun ⟨i, hi, e⟩ => ⟨i, tracks i hi, e⟩)).imp_left other

/-- A channel is closed. -/
theorem close (k : Staged σ place I X Y S) {elem : Address} (known : ch ∈ σ.channels)
    (hc : S ch = some (.plain ⟨.channel,
    [I.cap ch, I.closed ch], [place (.buffer ch), place (.senders ch), place (.receivers ch),
    elem]⟩)) :
    Staged σ place (I.close ch) X Y (Function.update S ch
      (some (.plain ⟨.channel, [I.cap ch, 1], [place (.buffer ch), place (.senders ch),
        place (.receivers ch), elem]⟩))) := by
  refine ⟨k.scheduler.imp fun _ h => stored_update h (Store.ne h hc (by simp)), fun ch' h => ?_,
    fun t h => (k.thread t h).imp fun _ => Exists.imp fun _ h =>
    stored_update h (Store.ne h hc (by simp)),
    fun q hq => stored_update (k.content q hq) (Store.ne (k.content q hq) hc Part.shape_ne_plain),
    k.apart, k.blank,
    fun c out => ⟨(k.off c out).1, (Function.update_of_ne (by rintro rfl; exact out known) ..).trans
    (k.off c out).2⟩,
    fun i hi => stored_update (k.inst i hi) (Store.ne (k.inst i hi) hc (by simp)), fun w hw => ?_⟩
  · by_cases e : ch' = ch
    · subst e
      exact ⟨elem, by simp [Stage.close]⟩
    · simpa [Stage.close, e] using k.channel ch' h
  · exact (k.waker w hw).imp_left fun h => stored_update h (Store.ne h hc (by simp))

/-- A waker gives its thread up. -/
theorem spend (k : Staged σ place I X Y S) (hw : S w = some (.plain ⟨.waker, [], [t]⟩)) :
    Staged σ place (I.spend w) X Y (Function.update S w (some (.plain ⟨.waker, [], [.nil]⟩))) := by
  refine ⟨k.scheduler.imp fun _ h => stored_update h (Store.ne h hw (by simp)),
    fun ch h => (k.channel ch h).imp fun _ h => stored_update h (Store.ne h hw (by simp)),
    fun t h => (k.thread t h).imp fun _ => Exists.imp fun _ h =>
    stored_update h (Store.ne h hw (by simp)),
    fun q hq => stored_update (k.content q hq) (Store.ne (k.content q hq) hw Part.shape_ne_plain),
    k.apart, k.blank, k.off,
    fun i hi => stored_update (k.inst i hi) (Store.ne (k.inst i hi) hw (by simp)), fun w' hw' => ?_⟩
  by_cases e : w' = w
  · subst e
    simp [Stage.spend]
  · have := k.waker w' hw'
    simpa [Stage.spend, e] using this

/-- An instance gives its value up. -/
theorem takeValue (k : Staged σ place I X Y S)
    (hi : S i = some (.plain ⟨.waitingInstance, [], [w, v, b]⟩)) :
    Staged σ place (I.dropValue i) X Y
      (Function.update S i (some (.plain ⟨.waitingInstance, [], [w, .nil, b]⟩))) := by
  refine ⟨k.scheduler.imp fun _ h => stored_update h (Store.ne h hi (by simp)),
    fun ch h => (k.channel ch h).imp fun _ h => stored_update h (Store.ne h hi (by simp)),
    fun t h => (k.thread t h).imp fun _ => Exists.imp fun _ h =>
    stored_update h (Store.ne h hi (by simp)),
    fun q hq => stored_update (k.content q hq) (Store.ne (k.content q hq) hi Part.shape_ne_plain),
    k.apart, k.blank, k.off,
    fun j hj => ?_, fun w hw => (k.waker w hw).imp_left fun h =>
    stored_update h (Store.ne h hi (by simp))⟩
  have known := k.inst j hj
  by_cases e : j = i
  · subst e
    have same : w = I.waker j ∧ v = I.value j ∧ b = I.body j := by simpa [hi] using known
    simp [Stage.dropValue, same]
  · simpa [Stage.dropValue, e] using known

/-- A new waker. -/
theorem newWaker (k : Staged σ place I X Y S) (new : S w = none) (ht : t ∈ σ.threads) :
    Staged σ place (I.addWaker w t) X (w :: Y)
      (Function.update S w (some (.plain ⟨.waker, [], [t]⟩))) := by
  have k' := k.fresh (o := some (.plain ⟨.waker, [], [t]⟩)) new
  refine { k' with waker := fun w' hw' => ?_ }
  by_cases e : w' = w
  · subst e
    simp [Stage.addWaker, ht]
  · have := k.waker w' (hw'.imp_left fun h => (List.mem_cons.1 h).resolve_left e)
    simpa [Stage.addWaker, e] using this

/-- A new instance of a waker that the client holds. -/
theorem newInstance (k : Staged σ place I X Y S) (new : S i = none) (hw : w ∈ Y) :
    Staged σ place (I.addInstance i w v b) (i :: X) Y
      (Function.update S i (some (.plain ⟨.waitingInstance, [], [w, v, b]⟩))) := by
  have k' := k.fresh (o := some (.plain ⟨.waitingInstance, [], [w, v, b]⟩)) new
  have tracks : ∀ j, j ≠ i → σ.Tracks I (i :: X) j → σ.Tracks I X j := fun j ne hj =>
    hj.imp_left fun h => (List.mem_cons.1 h).resolve_left ne
  refine { k' with inst := fun j hj => ?_, waker := fun w' hw' => k'.waker w' ?_ }
  · by_cases e : j = i
    · subst e
      simp [Stage.addInstance]
    · simpa [Stage.addInstance, e] using k.inst j (tracks j e hj)
  · refine hw'.elim .inl ?_
    rintro ⟨j, hj, rfl⟩
    by_cases e : j = i
    · subst e
      exact .inl (by simpa [Stage.addInstance] using hw)
    · exact .inr ⟨j, tracks j e hj, by simp [Stage.addInstance, e]⟩

end Staged
end GoMachine
