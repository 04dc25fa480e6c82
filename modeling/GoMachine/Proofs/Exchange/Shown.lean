import GoMachine.Proofs.Exchange.Moves
/-!
# Stages are seen

What is read off a heap that stores a stage is the scene of the stage. New channels and threads join
it.

* `At.shown`: what is read.
* `Scheduler.create_at`, `At.joinChannel`, `At.joinThread`: how the parties come together.
-/
namespace GoMachine

open Heap (Stores Owns)

variable {σ : Parties} {place : Part → Address} {I : Stage} {X Y : List Address}
  {S : Store} {O : Multiset Address} {n : Nat} {h : Heap} {ch i t : Address} {l : List Address}
  {p : Part}

namespace At

/-! ## Reading -/

section Reading

variable (stands : At σ place I X Y n O h)

include stands

/-- Who waits behind an instance. -/
theorem ofInstance (hi : σ.Tracks I X i) : Waiter.ofInstance i h = .ok (I.waiter? i) := by
  obtain ⟨waker, value, body⟩ := stands.instance_children hi
  refine query_bind_ok.2 ⟨_, waker, query_bind_ok.2 ⟨_, stands.waker_thread hi, ?_⟩⟩
  unfold Stage.waiter?
  split
  · rfl
  · exact query_bind_ok.2 ⟨_, value, query_bind_ok.2 ⟨_, body, rfl⟩⟩

theorem ofInstances (tracked : ∀ i ∈ l, σ.Tracks I X i) :
    (l.mapM Waiter.ofInstance : Query _) h = .ok (l.map I.waiter?) := by
  induction l with
  | nil => rfl
  | cons i l ih =>
    rw [List.mapM_cons]
    refine query_bind_ok.2 ⟨_, stands.ofInstance (tracked i (by simp)), ?_⟩
    exact query_bind_ok.2 ⟨_, ih fun j hj => tracked j (by simp [hj]), rfl⟩

/-- Who waits in a queue. -/
theorem inQueue (hp : σ.Has p) (hw : p.Waits) :
    Waiter.inQueue (place p) h = .ok (I.live (I.content p)) := by
  have queue : p.shape (I.content p) = .queue (I.content p) := by
    cases hw <;> rfl
  refine query_bind_ok.2 ⟨_, (stands.queued hp queue).2.2, ?_⟩
  refine query_bind_ok.2 ⟨_, stands.ofInstances fun i hi => stands.tracks hi hw, query_pure_ok.2 ?_⟩
  rw [List.reduceOption, List.filterMap_map]
  rfl

theorem view (hc : ch ∈ σ.channels) : Channel.view ch h = .ok (I.view ch) := by
  obtain ⟨buffer, senders, receivers⟩ := stands.slots hc
  refine query_bind_ok.2 ⟨_, stands.cap hc, query_bind_ok.2 ⟨_, stands.isClosed hc, ?_⟩⟩
  refine query_bind_ok.2
    ⟨_, buffer, query_bind_ok.2 ⟨_, (stands.queued (p := .buffer ch) hc rfl).2.2, ?_⟩⟩
  refine query_bind_ok.2
    ⟨_, senders, query_bind_ok.2 ⟨_, stands.inQueue (p := .senders ch) hc (.senders ch), ?_⟩⟩
  exact query_bind_ok.2 ⟨_, receivers,
    query_bind_ok.2 ⟨_, stands.inQueue (p := .receivers ch) hc (.receivers ch), rfl⟩⟩

theorem stacks_values (ht : t ∈ σ.threads) :
    (Thread.stash t >>= Stack.values) h = .ok (I.content (.stash t)) ∧
    (Thread.control t >>= Stack.values) h = .ok (I.content (.control t)) := by
  obtain ⟨stash, control⟩ := stands.ownStacks ht
  obtain ⟨S, st, k, an⟩ := stands
  exact ⟨query_bind_ok.2 ⟨_, stash, Stack.values_stores st (k.content (.stash t) ht)⟩,
    query_bind_ok.2 ⟨_, control, Stack.values_stores st (k.content (.control t) ht)⟩⟩

theorem runnable : Scheduler.threads σ.scheduler h = .ok (I.content .runnable) :=
  query_bind_ok.2 ⟨_, stands.runQueue, (stands.queued (p := .runnable) trivial rfl).2.2⟩

/-- What is seen is the scene of the stage. -/
theorem scene_eq : σ.scene h = I.scene := by
  have blank : ∀ p, ¬σ.Has p → I.content p = [] := stands.choose_spec.2.1.blank
  have off := stands.choose_spec.2.1.off
  refine Scene.ext (funext fun ch => ?_) (funext fun t => ?_) (funext fun t => ?_) ?_
  · by_cases hc : ch ∈ σ.channels
    · simp only [Parties.scene, hc, if_true, Query.orDefault, stands.view hc]
      rfl
    · simp only [Parties.scene, hc, if_false, Stage.scene, Stage.view, off ch hc,
        blank (.buffer ch) hc,
        blank (.senders ch) hc, blank (.receivers ch) hc]
      rfl
  · by_cases ht : t ∈ σ.threads
    · simp only [Parties.scene, ht, if_true, Query.orDefault, (stands.stacks_values ht).1]
      rfl
    · simp only [Parties.scene, ht, if_false, Stage.scene, blank (.stash t) ht]
  · by_cases ht : t ∈ σ.threads
    · simp only [Parties.scene, ht, if_true, Query.orDefault, (stands.stacks_values ht).2]
      rfl
    · simp only [Parties.scene, ht, if_false, Stage.scene, blank (.control t) ht]
  · simp only [Parties.scene, Query.orDefault, stands.runnable]
    rfl

theorem shown : σ.Shown h where
  channel ch hc := by rw [stands.view hc, stands.scene_eq]; rfl
  stash t ht := by rw [(stands.stacks_values ht).1, stands.scene_eq]; rfl
  control t ht := by rw [(stands.stacks_values ht).2, stands.scene_eq]; rfl
  runnable := by rw [stands.runnable, stands.scene_eq]; rfl

end Reading

end At

/-! ## Joining -/

/-- A store tells more than another one. -/
def Store.Extends (S' S : Store) : Prop := ∀ a s, S a = some s → S' a = some s

theorem Store.Extends.update {S' : Store} {a : Address} {o : Option Shape} (more : S'.Extends S)
    (new : S a = none) : Store.Extends (Function.update S' a o) S := by
  intro b s hb
  rw [Function.update_of_ne]
  · exact more b s hb
  · rintro rfl
    simp [new] at hb

/-- Something new goes into an empty slot. -/
theorem Heap.Stores.fillMade {β : Type} {tag : Tag} {fs : List UInt64} {cs : List Address} {k : Nat}
    {s : Shape} {a : Address} {make : Action Address} {rest : Action β} {R : β → Heap → Prop}
    (ha : S a = some (.plain ⟨tag, fs, cs⟩)) (hx : cs[k]? = some .nil)
    (made : Yields make h fun q h' => S q = none ∧
    Stores 0 n (q ::ₘ O) (Function.update S q (some s)) h')
    (next : ∀ q h', q ≠ a → S q = none →
    Stores 0 n O (Function.update (Function.update S q (some s)) a
      (some (.plain ⟨tag, fs, cs.set k q⟩))) h' → Yields rest h' R) :
    Yields (make >>= fun q => (liftM (HeapM.setChildOwned a tag k q) : Action Unit) >>= fun _ =>
    rest) h R := by
  refine made.bind fun q h₁ ⟨fresh, st⟩ => ?_
  have ne : a ≠ q := by
    rintro rfl
    simp [fresh] at ha
  exact (st.fillChild (t := tag) (stored_update ha ne) hx).heap.yields.bind fun _ h₂ st =>
    next q h₂ ne.symm fresh st

theorem Channel.create_stores {elem : Address} {cap : Int} (st : Stores 0 (n + 1) O S h) :
    Yields (Channel.create elem cap) h fun ch h' => ∃ S' b s r, Stores 0 (n + 1) (ch ::ₘ O) S' h' ∧
      S'.Extends S ∧ S ch = none ∧
      S' ch = some (.plain ⟨.channel, [cap.toNat.toUInt64, 0], [b, s, r, elem]⟩) ∧
      (∀ q ∈ [b, s, r], S q = none ∧ S' q = some (.queue [])) ∧ [b, s, r].Nodup := by
  refine .guard fun _ => st.allocate.yields.bind fun ch h₁ ⟨fresh, st⟩ => ?_
  refine Yields.bind (Q := fun _ h' => ∃ S' b s r, Stores 0 (n + 1) (ch ::ₘ O) S' h' ∧
      S'.Extends S ∧ S ch = none ∧
      S' ch = some (.plain ⟨.channel, [cap.toNat.toUInt64, 0], [b, s, r, elem]⟩) ∧
      (∀ q ∈ [b, s, r], S q = none ∧ S' q = some (.queue [])) ∧ [b, s, r].Nodup)
    (Yields.orRelease ?_) fun _ h₂ made => .pure made
  refine (st.setField (Function.update_self ..) (by decide)).heap.yields.bind fun _ h₂ st => ?_
  simp only [List.forIn_cons, List.forIn_nil, bind_assoc, pure_bind]
  refine Stores.fillMade (Function.update_self ..) rfl (Queue.create_stores st).yields
    fun b h₃ hb newB st => ?_
  refine Stores.fillMade (Function.update_self ..) rfl (Queue.create_stores st).yields
    fun s h₄ hs newS st => ?_
  refine Stores.fillMade (Function.update_self ..) rfl (Queue.create_stores st).yields
    fun r h₅ hr newR st => ?_
  refine (st.setChild_blank (Function.update_self ..) rfl).heap.mono fun _ h₆ st => ?_
  have hsb : s ≠ b := by
    rintro rfl
    simp [hs] at newS
  have hrb : r ≠ b := by
    rintro rfl
    simp [hr, hsb.symm] at newR
  have hrs : r ≠ s := by
    rintro rfl
    simp [hr] at newR
  have newB : S b = none := by simpa [hb] using newB
  have newS : S s = none := by simpa [hs, hsb] using newS
  have newR : S r = none := by simpa [hr, hrb, hrs] using newR
  refine ⟨_, b, s, r, st, ?_, fresh, Function.update_self .., ?_, by
    simp [hsb.symm, hrb.symm, hrs.symm]⟩
  · have same : S.Extends S := fun _ _ hs => hs
    exact (((((((((same.update fresh).update fresh).update newB).update fresh).update newS).update
      fresh).update
      newR).update fresh).update fresh)
  · simp [newB, newS, newR, hb, hs, hr, hsb.symm, hrb.symm, hrs.symm]

theorem Env.create_stores {frame structs : Address} (st : Stores 0 (n + 1) O S h) :
    Yields (Env.create frame structs) h fun e h' => S e = none ∧ Stores 0 (n + 1) (e ::ₘ O)
      (Function.update S e (some (.plain ⟨.env, [], [frame, structs]⟩))) h' := by
  refine st.allocate.yields.bind fun e h₁ ⟨fresh, st⟩ => ?_
  refine (st.setChild_blank (Function.update_self ..) rfl).heap.bind fun _ h₂ st => ?_
  refine (st.setChild_blank (Function.update_self ..) rfl).heap.bind fun _ h₃ st =>
    .pure ⟨fresh, ?_⟩
  rwa [Function.update_idem, Function.update_idem] at st

theorem Thread.create_stores {id : UInt64} {frame structs : Address} (st : Stores 0 (n + 1) O S h) :
    Yields (Thread.create id frame structs) h fun t h' => ∃ S' c s env,
    Stores 0 (n + 1) (t ::ₘ O) S' h' ∧
      S'.Extends S ∧ S t = none ∧ S' t = some (.plain ⟨.thread, [id], [c, s, env]⟩) ∧ c ≠ s ∧
      (S c = none ∧ S' c = some (.stack .control [])) ∧ S s = none ∧
      S' s = some (.stack .stash []) := by
  refine st.allocate.yields.bind fun t h₁ ⟨fresh, st⟩ => ?_
  refine Yields.bind (Q := fun _ h' => ∃ S' c s env, Stores 0 (n + 1) (t ::ₘ O) S' h' ∧
      S'.Extends S ∧ S t = none ∧ S' t = some (.plain ⟨.thread, [id], [c, s, env]⟩) ∧ c ≠ s ∧
      (S c = none ∧ S' c = some (.stack .control [])) ∧ S s = none ∧ S' s = some (.stack .stash []))
    (Yields.orRelease ?_) fun _ h₂ made => .pure made
  refine (st.setField (Function.update_self ..) (by decide)).heap.yields.bind fun _ h₂ st => ?_
  refine Stores.fillMade (Function.update_self ..) rfl (Stack.create_stores st).yields
    fun c h₃ hc newC st => ?_
  refine Stores.fillMade (Function.update_self ..) rfl (Stack.create_stores st).yields
    fun s h₄ hs newS st => ?_
  refine (Env.create_stores st).bind fun env h₅ ⟨newE, st⟩ => ?_
  have he : env ≠ t := by
    rintro rfl
    simp at newE
  refine (st.fillChild (t := .thread)
    (stored_update (Function.update_self ..) he.symm) rfl).heap.yields.mono
    fun _ h₆ st => ?_
  have hsc : s ≠ c := by
    rintro rfl
    simp [hs] at newS
  have hec : env ≠ c := by
    rintro rfl
    simp [he, hsc.symm] at newE
  have hes : env ≠ s := by
    rintro rfl
    simp [he] at newE
  have newC : S c = none := by simpa [hc] using newC
  have newS : S s = none := by simpa [hs, hsc] using newS
  have newE : S env = none := by simpa [he, hec, hes] using newE
  refine ⟨_, c, s, env, st, ?_, fresh, Function.update_self .., hsc.symm, ?_, ?_⟩
  · have same : S.Extends S := fun _ _ hs => hs
    exact (((((((same.update fresh).update fresh).update newC).update fresh).update newS).update
      fresh).update
      newE).update fresh
  · simp [newC, hc, hsc.symm, hec.symm]
  · simp [newS, hs, hes.symm]

/-- More parties. -/
theorem Staged.join {σ' : Parties} {place' : Part → Address} {S' : Store} {cap' : Address → UInt64}
    (k : Staged σ place I X Y S) (more : S'.Extends S) (scheduler : σ'.scheduler = σ.scheduler)
    (grow : ∀ p, σ.Has p → σ'.Has p ∧ place' p = place p)
    (new : ∀ p, σ'.Has p → ¬σ.Has p → S (place' p) = none ∧ S' (place' p) = some (p.shape []))
    (apart : ∀ p q, σ'.Has p → σ'.Has q → ¬σ.Has p → ¬σ.Has q → place' p = place' q → p = q)
    (caps : ∀ ch ∈ σ.channels, cap' ch = I.cap ch) (off : ∀ ch, ch ∉ σ'.channels → cap' ch = 0)
    (channel : ∀ ch ∈ σ'.channels, ch ∉ σ.channels →
    ∃ elem, S' ch = some (.plain ⟨.channel, [cap' ch, 0],
      [place' (.buffer ch), place' (.senders ch), place' (.receivers ch), elem]⟩))
    (thread : ∀ t ∈ σ'.threads, t ∉ σ.threads → ∃ id env, S' t = some (.plain ⟨.thread, [id],
      [place' (.control t), place' (.stash t), env]⟩)) :
    Staged σ' place' { I with cap := cap' } X Y S' := by
  have tracks : ∀ i, σ'.Tracks { I with cap := cap' } X i → σ.Tracks I X i := by
    rintro i (hi | ⟨p, hw, hp, hi⟩)
    · exact .inl hi
    · by_cases known : σ.Has p
      · exact .inr ⟨p, hw, known, hi⟩
      · have : I.content p = [] := k.blank p known
        simp [this] at hi
  refine ⟨?_, fun ch hc => ?_, fun t ht => ?_, fun p hp => ?_, fun p q hp hq e => ?_, fun p hp =>
    ?_,
    fun ch hc => ⟨off ch hc, ?_⟩, fun i hi => more _ _ (k.inst i (tracks i hi)), fun w hw => ?_⟩
  · rw [scheduler, (grow .runnable trivial).2]
    exact k.scheduler.imp fun _ => more _ _
  · by_cases known : ch ∈ σ.channels
    · rw [(grow (.buffer ch) known).2, (grow (.senders ch) known).2, (grow (.receivers ch) known).2]
      obtain ⟨elem, here⟩ := k.channel ch known
      exact ⟨elem, more _ _ (by rw [here, ← caps ch known])⟩
    · obtain ⟨elem, here⟩ := channel ch hc known
      exact ⟨elem, by rw [here, (k.off ch known).2]⟩
  · by_cases known : t ∈ σ.threads
    · rw [(grow (.control t) known).2, (grow (.stash t) known).2]
      obtain ⟨id, env, here⟩ := k.thread t known
      exact ⟨id, env, more _ _ here⟩
    · exact thread t ht known
  · by_cases known : σ.Has p
    · rw [(grow p known).2]
      exact more _ _ (k.content p known)
    · have blank : I.content p = [] := k.blank p known
      rw [(new p hp known).2]
      simp [blank]
  · by_cases hp' : σ.Has p <;> by_cases hq' : σ.Has q
    · rw [(grow p hp').2, (grow q hq').2] at e
      exact k.apart p q hp' hq' e
    · have gone := (new q hq hq').1
      rw [← e, (grow p hp').2, k.content p hp'] at gone
      cases gone
    · have gone := (new p hp hp').1
      rw [e, (grow q hq').2, k.content q hq'] at gone
      cases gone
    · exact apart p q hp hq hp' hq' e
  · exact k.blank p fun known => hp (grow p known).1
  · exact (k.off ch fun known => hc (grow (.buffer ch) known).1).2
  · have known : w ∈ Y ∨ ∃ i, σ.Tracks I X i ∧ I.waker i = w :=
      hw.imp_right fun ⟨i, hi, e⟩ => ⟨i, tracks i hi, e⟩
    obtain ⟨here, side⟩ := k.waker w known
    exact ⟨more _ _ here, side.imp_right fun ht => (grow (.stash _) ht).1⟩

/-- With another channel. -/
def Parties.withChannel (σ : Parties) (ch : Address) : Parties :=
    { σ with channels := ch :: σ.channels }

/-- With another thread. -/
def Parties.withThread (σ : Parties) (t : Address) : Parties := { σ with threads := t :: σ.threads }

namespace At

/-- A channel joins. -/
theorem joinChannel {elem : Address} {cap : Int} (stands : At σ place I X Y (n + 1) O h) :
    Yields (Channel.create elem cap) h fun ch h' => ch ∉ σ.channels ∧ ∃ place' I',
      At (σ.withChannel ch) place' I' X Y (n + 1) (ch ::ₘ O) h' ∧
      I'.scene = I.scene.put ch { (default : ChannelView) with cap :=
      cap.toNat.toUInt64.toNat } := by
  obtain ⟨S, st, k, an⟩ := stands
  refine (Channel.create_stores st).mono
    fun ch h' ⟨S', b, s, r, st', more, fresh, here, queues, apart⟩ => ?_
  have new : ch ∉ σ.channels := fun hc => by
    obtain ⟨elem, known⟩ := k.channel ch hc
    simp [fresh] at known
  let place' := Function.update (Function.update (Function.update place (.buffer ch) b)
    (.senders ch) s)
    (.receivers ch) r
  let cap' := Function.update I.cap ch cap.toNat.toUInt64
  have grow : ∀ p, σ.Has p → (σ.withChannel ch).Has p ∧ place' p = place p := by
    intro p hp
    have out : p ≠ .buffer ch ∧ p ≠ .senders ch ∧ p ≠ .receivers ch := by
      refine ⟨?_, ?_, ?_⟩ <;> rintro rfl <;> exact new hp
    refine ⟨?_, by simp [place', out]⟩
    cases p <;> first | exact hp | exact List.mem_cons_of_mem _ hp
  have added : ∀ p, (σ.withChannel ch).Has p → ¬σ.Has p →
      p = .buffer ch ∨ p = .senders ch ∨ p = .receivers ch := by
    intro p hp out
    cases p with
    | runnable => exact absurd trivial out
    | buffer c => simpa using (List.mem_cons.1 hp).resolve_right out
    | senders c => simpa using (List.mem_cons.1 hp).resolve_right out
    | receivers c => simpa using (List.mem_cons.1 hp).resolve_right out
    | stash t => exact absurd hp out
    | control t => exact absurd hp out
  have blank : I.content (.buffer ch) = [] ∧ I.content (.senders ch) = [] ∧
    I.content (.receivers ch) = [] :=
    ⟨k.blank _ new, k.blank _ new, k.blank _ new⟩
  refine ⟨new, place', { I with cap := cap' }, ⟨S', st', ?_, ?_⟩, ?_⟩
  · refine k.join more rfl grow (fun p hp out => ?_) (fun p q hp hq hp' hq' e => ?_)
      (fun c hc => ?_)
      (fun c hc => ?_) (fun c hc out => ?_) fun t ht out => absurd ht out
    · rcases added p hp out with rfl | rfl | rfl
      · simpa [place', Part.shape] using queues b (by simp)
      · simpa [place', Part.shape] using queues s (by simp)
      · simpa [place', Part.shape] using queues r (by simp)
    · obtain ⟨bs, br, sr⟩ : (b ≠ s) ∧ (b ≠ r) ∧ s ≠ r := by simpa [and_assoc] using apart
      have pb : place' (.buffer ch) = b := by simp [place']
      have ps : place' (.senders ch) = s := by simp [place']
      have pr : place' (.receivers ch) = r := by simp [place']
      rcases added p hp hp' with rfl | rfl | rfl <;> rcases added q hq hq' with rfl | rfl | rfl <;>
        simp only [pb, ps, pr] at e <;>
        first | rfl | exact absurd e ‹_› | exact absurd e.symm ‹_›
    · exact Function.update_of_ne (by rintro rfl; exact new hc) ..
    · have out : c ≠ ch ∧ c ∉ σ.channels := by simpa [Parties.withChannel] using hc
      exact (Function.update_of_ne out.1 ..).trans (k.off c out.2).1
    · obtain rfl : c = ch := (List.mem_cons.1 hc).resolve_right out
      exact ⟨elem, by simpa [place', cap'] using here⟩
  · have an := an.cons (a := ch)
    exact ⟨an.1, List.forall_mem_cons.2 ⟨by simp, an.2.1⟩, an.2.2⟩
  · refine Scene.ext (funext fun c => ?_) rfl rfl rfl
    by_cases e : c = ch
    · subst e
      simp [Stage.scene, Stage.view, Scene.put, cap', blank, (k.off c new).2, Stage.live]
      exact ⟨rfl, rfl, rfl, rfl⟩
    · simp [Stage.scene, Stage.view, Scene.put, cap', e]
      exact ⟨rfl, rfl⟩

/-- A thread joins. -/
theorem joinThread {id : UInt64} {frame structs : Address} (stands : At σ place I X Y (n + 1) O h) :
    Yields (Thread.create id frame structs) h fun t h' => t ∉ σ.threads ∧ ∃ place',
      At (σ.withThread t) place' I X Y (n + 1) (t ::ₘ O) h' := by
  obtain ⟨S, st, k, an⟩ := stands
  refine (Thread.create_stores st).mono
    fun t h' ⟨S', c, s, env, st', more, fresh, here, apart, hc, hs⟩ => ?_
  have new : t ∉ σ.threads := fun ht => by
    obtain ⟨id, env, known⟩ := k.thread t ht
    simp [fresh] at known
  let place' := Function.update (Function.update place (.control t) c) (.stash t) s
  have grow : ∀ p, σ.Has p → (σ.withThread t).Has p ∧ place' p = place p := by
    intro p hp
    have out : p ≠ .control t ∧ p ≠ .stash t := by
      refine ⟨?_, ?_⟩ <;> rintro rfl <;> exact new hp
    refine ⟨?_, by simp [place', out]⟩
    cases p <;> first | exact hp | exact List.mem_cons_of_mem _ hp
  have added : ∀ p, (σ.withThread t).Has p → ¬σ.Has p → p = .control t ∨ p = .stash t := by
    intro p hp out
    cases p with
    | stash u => simpa using (List.mem_cons.1 hp).resolve_right out
    | control u => simpa using (List.mem_cons.1 hp).resolve_right out
    | _ => exact absurd hp out
  refine ⟨new, place', S', st', ?_, ?_⟩
  · refine k.join more rfl grow (fun p hp out => ?_) (fun p q hp hq hp' hq' e => ?_)
      (fun _ _ => rfl)
      (fun c hc => (k.off c hc).1) (fun c hc out => absurd hc out) fun u hu out => ?_
    · rcases added p hp out with rfl | rfl
      · simpa [place', Part.shape] using hc
      · simpa [place', Part.shape] using hs
    · have pc : place' (.control t) = c := by simp [place']
      have ps : place' (.stash t) = s := by simp [place']
      rcases added p hp hp' with rfl | rfl <;> rcases added q hq hq' with rfl | rfl <;>
        simp only [pc, ps] at e <;> first | rfl | exact absurd e apart | exact absurd e.symm apart
    · obtain rfl : u = t := (List.mem_cons.1 hu).resolve_right out
      exact ⟨id, env, by simpa [place'] using here⟩
  · have an := an.cons (a := t)
    exact ⟨an.1, an.2.1, List.forall_mem_cons.2 ⟨by simp, an.2.2.1⟩, an.2.2.2⟩

end At

/-- A scene without parties. -/
def Scene.empty : Scene := ⟨fun _ => default, fun _ => [], fun _ => [], []⟩

/-- Nothing stands anywhere. -/
def Stage.empty : Stage where
  content _ := []
  waker _ := .nil
  value _ := .nil
  body _ := .nil
  thread _ := .nil
  cap _ := 0
  closed _ := 0

/-- A scheduler, and nothing to see yet. -/
theorem Scheduler.create_at (structs : Address) (own : Owns 0 n O h) :
    Yields Scheduler.create h fun s h' => ∃ place,
      At ⟨s, structs, [], []⟩ place .empty [] [] n (s ::ₘ O) h' := by
  have blank : Stores 0 n O (fun _ => none) h :=
    ⟨fun _ => [], fun _ => none, ⟨nofun, nofun, by simp, nofun, nofun⟩, own, nofun, nofun⟩
  refine blank.allocate.yields.bind fun s h₁ ⟨_, st⟩ => ?_
  refine (Yields.orRelease (Queue.create_stores st).yields).bind fun q h₂ ⟨fresh, st⟩ => ?_
  have ne : s ≠ q := by
    rintro rfl
    simp at fresh
  refine (st.fillChild (t := .scheduler)
    (stored_update (Function.update_self ..) ne) rfl).heap.yields.bind
    fun _ h₃ st => .pure ?_
  refine ⟨fun _ => q, _, st, ?_, ?_⟩
  · have only : ∀ p, Parties.Has ⟨s, structs, [], []⟩ p → p = .runnable := by
      rintro (_ | _) hp <;> first | rfl | cases hp
    have nobody : ∀ i, ¬Parties.Tracks ⟨s, structs, [], []⟩ .empty [] i := by
      rintro i (hi | ⟨p, hw, hp, hi⟩)
      · cases hi
      · cases hi
    refine ⟨⟨0, Function.update_self ..⟩, nofun, nofun, fun p hp => ?_, fun p q hp hq _ =>
      (only p hp).trans (only q hq).symm, fun _ _ => rfl, fun _ _ => ⟨rfl, rfl⟩,
      fun i hi => absurd hi (nobody i), ?_⟩
    · rw [only p hp]
      simp [ne.symm, Part.shape, Stage.empty]
    · rintro w (hw | ⟨i, hi, -⟩)
      · cases hw
      · exact absurd hi (nobody i)
  · exact ⟨by simp, nofun, nofun, nofun, nofun⟩

end GoMachine
