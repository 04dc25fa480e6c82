import GoMachine.Proofs.Owns.Channels
import GoMachine.Proofs.Tasks.Deliver
/-!
# Channel operations

A channel operation of the running thread wakes others. If it has to wait itself, its thread comes
into a waker, with an instance in a queue of the channel.
-/
namespace GoMachine

variable {ρ : Roles} {k : Known} {σ σ' : Address → Task} {n m : Nat} {O O' : Multiset Address}
  {h h' : Heap} {a b q t v w s inst ch : Address} {B D E : Body} {c : Class} {y : Wait} {j : Side}
  {r : Role}
  {fs : List UInt64} {cs : List Address} {i : Nat}

namespace Knows

section

variable {α : Type} {x : Action α} {K : α → Multiset Address} {N : Nat} {Q : α → (Address → Task) →
    Heap → Prop}

/-- What a record says is known for a while. -/
theorem knowing (g : Knows k σ n O h) (hD : h.body? a = some D) (kept : k.Keeps a)
    (hx : Knows (k.learn a D) σ n O h →
      Yields x h fun r h' => ∃ σ', Knows (k.learn a D) σ' N (K r) h' ∧ Q r σ' h') :
    Yields x h fun r h' => ∃ σ', Knows k σ' N (K r) h' ∧ Q r σ' h' :=
  (hx (g.learn hD kept)).mono fun _ _ ⟨σ', g', q⟩ =>
    ⟨σ', g'.forget (g.within_learn hD) rfl g.wf, q⟩

end

/-! ## Queues of channels -/

theorem slot_read (g : Knows k σ n O h) (hch : k.facts ch = some D)
    (read : Channel.slot ch i h = .ok q) :
    D.tag = .channel ∧ D.children[i]? = some q := by
  obtain ⟨_, -, read⟩ := query_bind_ok.1 read
  exact g.sound.child_of_body (g.body hch) read

theorem serves_buffer (g : Knows k σ n O h) (hch : k.facts ch = some D)
    (read : Channel.buffer ch h = .ok q) :
    k.Serves q .any := by
  obtain ⟨tag, hi⟩ := g.slot_read hch read
  exact ⟨ch, D, 0, hch, by rw [tag]; rfl, hi, fun ρ h => by rwa [tag] at h⟩

theorem serves_senders (g : Knows k σ n O h) (hch : k.facts ch = some D)
    (read : Channel.senders ch h = .ok q) :
    k.Serves q (.waiting .send) := by
  obtain ⟨tag, hi⟩ := g.slot_read hch read
  exact ⟨ch, D, 1, hch, by rw [tag]; rfl, hi, fun ρ h => by rwa [tag] at h⟩

theorem serves_receivers (g : Knows k σ n O h) (hch : k.facts ch = some D)
    (read : Channel.receivers ch h = .ok q) : k.Serves q (.waiting .receive) := by
  obtain ⟨tag, hi⟩ := g.slot_read hch read
  exact ⟨ch, D, 2, hch, by rw [tag]; rfl, hi, fun ρ h => by rwa [tag] at h⟩

theorem enqueue_value [k.KeptByChains] (hq : k.Serves q .any) (g : Knows k σ (n + 2) O h) :
    Yields (Queue.enqueue q v) h fun _ h' => Knows k σ (n + 2) O h' := by
  refine g.reference.heap.bind fun _ h₁ ⟨_, g₁, _⟩ => ?_
  obtain ⟨ρ, seen, noted, role⟩ := g₁.serves hq
  exact (g₁.enqueueOwned (c := .any) rfl (by simp) ⟨ρ, seen, noted, role, .inr trivial⟩).mono
    fun _ _ g₂ => g.restore g₂

theorem dequeue_value [k.KeptByChains] (hq : k.Serves q .any) (g : Knows k σ (n + 4) O h) :
    Yields (Queue.dequeue q) h fun v h' => Knows k σ (n + 3) (v ::ₘ O) h' :=
  (g.dequeue rfl (by simp) (g.serves hq)).mono fun _ _ came => by
    rcases came with ⟨rfl, g'⟩ | ⟨-, g', -⟩
    · exact cons_nil.2 g'
    · exact g'

end Knows

/-- What is made a channel of: a buffer, and a queue of instances for each side. -/
def Channel.queueClass : Nat → Class
  | 0 => .any
  | 1 => .waiting .send
  | _ => .waiting .receive

/-- What a thread waits for that is left to a side of a channel. -/
def Side.wait : Side → Wait
  | .send => .turn
  | .receive => .value

/-- A thread goes on, or is left to wait. -/
inductive Task.Settles (y : Wait) (τ : Task) : Task → Prop
  | goes {x} : τ.Settles y { τ with waits := none, place := some x, queued := true }
  | parks {p o} : τ.Settles y { τ with waits := some y, place := p, offers := o }

/-- A queue in a slot of the channel at an address. -/
def Heap.Offers (h : Heap) (ch : Address) (i : Nat) (q : Address) : Prop :=
  ∃ D, h.body? ch = some D ∧ D.tag = .channel ∧ D.children[i]? = some q

/-- What comes of an attempt on a channel: others were woken, or the thread is to wait in a queue.
-/
def Attempt.Ends (r : Attempt) (ch : Address) (i : Nat) (h : Heap) : Prop :=
  ∀ q, r = .wait q → h.Offers ch i q

namespace Knows

theorem channel {elem : Address} {cap : Int} (g : Knows k σ (n + 1) O h) :
    Yields (Channel.create elem cap) h fun ch h' => Knows k σ (n + 1) (ch ::ₘ O) h' := by
  refine .guard fun _ => (g.allocate_plain (by simp) (Nat.zero_le _)).heap.bind
    fun ch h₁ ⟨g, _, _, new, _⟩ => ?_
  refine (Yields.orRelease (Q := fun _ h' => Knows k σ (n + 1) (ch ::ₘ O) h') ?_).bind fun _ _ g =>
    .pure g
  refine (g.setField rfl (by simp [new])).heap.bind fun _ h₂ g => ?_
  refine (Yields.forIn (I := fun rest h' => (∀ i ∈ rest, i < 3) ∧ Knows k σ (n + 1) (ch ::ₘ O) h')
    ⟨by simp, g⟩ ?_).bind fun _ h₃ ⟨_, g⟩ => ?_
  · intro i rest h ⟨small, g⟩
    have small' : i < 3 := small i (by simp)
    refine (g.queue (c := Channel.queueClass i) ?_ ?_).bind fun queue h₁ g' => ?_
    · rcases i with _ | _ | i <;> rfl
    · rcases i with _ | _ | i <;> simp [Channel.queueClass]
    refine (g'.setChildOwned_own g.wf rfl (by simp [new]) fun ρ role => ?_).heap.bind
      fun _ _ g => .pure ⟨rfl, fun i hi => small i (by simp [hi]), g⟩
    match i, small' with
    | 0, _ => exact role
    | 1, _ => exact role
    | 2, _ => exact role
  · refine Yields.heap (g.reference.bind fun _ h₄ ⟨_, g', _⟩ => ?_)
    obtain ⟨ρ, seen, noted⟩ := g'.sees
    exact (g'.setChildOwned rfl (by simp [new])
      ⟨ρ, seen, noted, .inr (show LooseSlot ρ elem .channel 3 from trivial)⟩).mono
      fun _ _ g'' => g.restore g''

/-- Others may be woken by a send. -/
theorem trySend [k.KeptByValues] (g : Knows k σ (n + 6) O h) (kept : k.Keeps ch) :
    Yields (Channel.trySend ch v s) h fun r h' => ∃ σ', Knows k σ' (n + 6) O h' ∧ Passes σ σ' ∧
      r.Ends ch 1 h' := by
  refine .read fun closed read => .guard fun _ => .read fun buffer readB =>
    .read fun receivers readR => ?_
  obtain ⟨_, -, readB'⟩ := query_bind_ok.1 (id readB : Channel.slot ch 0 h = .ok buffer)
  obtain ⟨D, hD, tag, -⟩ := g.sound.child_read readB'
  refine g.knowing hD kept fun g => ?_
  have byValues : (k.learn ch D).KeptByValues := .learn (by rw [tag]; rfl)
  have fact : (k.learn ch D).facts ch = some D := by simp [Known.learn]
  have hB := g.serves_buffer fact readB
  refine (firstLive (g.serves_receivers fact readR) g).bind fun receiver h₁ came => ?_
  rcases came with ⟨rfl, g₁⟩ | ⟨notNil, g₁⟩
  · rw [if_pos (by decide)]
    refine .read fun size _ => .read fun cap _ => ?_
    split
    · refine .read fun senders readS => .pure ⟨σ, g.restore g₁, .refl, fun q e => ?_⟩
      cases e
      obtain ⟨-, hi⟩ := g₁.slot_read fact readS
      exact ⟨D, g₁.body fact, tag, hi⟩
    · exact (g₁.enqueue_value hB).bind fun _ h₂ g₂ =>
        .pure ⟨σ, g.restore g₂, .refl, fun q e => by cases e⟩
  rw [if_neg (by rwa [Address.isNil_iff])]
  have hB' : ((k.learn ch D).own receiver (.waiting .receive)).Serves buffer .any := hB
  refine (g₁.enqueue_value hB').bind fun _ h₂ g₂ => ?_
  refine (g₂.dequeue_value hB').bind fun received h₃ g₃ => ?_
  refine Yields.bind (Yields.afterwards (R := fun _ h' =>
    ∃ σ', Knows (k.learn ch D) σ' (n + 6) O h' ∧ Passes σ σ')
    (deliver (v := some received) (g₃ : Knows _ σ (n + 1 + 3) (received ::ₘ O) h₃)
    (List.mem_cons_self ..) rfl)
    ?_) fun _ h₅ sent => .pure (sent.imp fun σ' sent => ⟨sent.1, sent.2, fun q e => by cases e⟩)
  rintro _ h₄ ⟨σ', g₄, passes⟩
  exact (g₄.disown g.wf).free.mono fun _ _ g₅ => ⟨σ', g.restore g₅, passes⟩

/-- The role of a thread that is known. -/
theorem thread (g : Knows k σ n O h) (ht : k.facts t = some ⟨.thread, fs, cs⟩) :
    k.Finds σ h fun ρ => ρ t = .thread := by
  obtain ⟨ρ, seen, noted⟩ := g.sees
  exact ⟨ρ, seen, noted, (seen.conforms (g.body ht)).thread rfl⟩

/-- A thread that stands nowhere may wait for anything. -/
theorem rewait (g : Knows k σ n O h) (free : (σ t).place = none) {w : Option Wait} :
    Knows k (Function.update σ t { σ t with waits := w }) n O h :=
  g.still g.toRetains fun _ seen _ => seen.rewait free

/-- The running thread receives a value if there is one, or is to wait. -/
theorem tryRecv [k.KeptByValues] {structs : Address} (g : Knows k σ (n + 6) O h) (kept : k.Keeps ch)
    (ht : k.facts t = some ⟨.thread, fs, cs⟩) (free : (σ t).waits = none) :
    Yields (Channel.tryRecv ch t structs s) h fun r h' => ∃ σ'', Knows k σ'' (n + 6) O h' ∧
      ∃ σ', Passes σ σ' ∧ (r = .done ∧
        (∃ v, σ'' = Function.update σ' t { σ t with stash := v :: (σ t).stash }) ∨
        ∃ q, r = .wait q ∧ σ'' = σ' ∧ h'.Offers ch 2 q) := by
  refine .read fun buffer readB => .read fun senders readS => ?_
  obtain ⟨_, -, readB'⟩ := query_bind_ok.1 (id readB : Channel.slot ch 0 h = .ok buffer)
  obtain ⟨D, hD, tag, -⟩ := g.sound.child_read readB'
  refine g.knowing hD kept fun g' => ?_
  have byValues : (k.learn ch D).KeptByValues := .learn (by rw [tag]; rfl)
  have fact : (k.learn ch D).facts ch = some D := by simp [Known.learn]
  have ht := (g.within_learn hD).facts ht
  have hB := g'.serves_buffer fact readB
  refine (firstLive (g'.serves_senders fact readS) g').bind fun sender h₁ came => ?_
  extract_lets rest
  have rest_knows : ∀ {σ₁ h₁}, Passes σ σ₁ → Knows (k.learn ch D) σ₁ (n + 6) O h₁ →
      Yields (rest ⟨⟩) h₁ fun r h' => ∃ σ'', Knows (k.learn ch D) σ'' (n + 6) O h' ∧
        ∃ σ', Passes σ σ' ∧ (r = .done ∧
          (∃ v, σ'' = Function.update σ' t { σ t with stash := v :: (σ t).stash }) ∨
          ∃ q, r = .wait q ∧ σ'' = σ' ∧ h'.Offers ch 2 q) := by
    intro σ₁ h₁ passes g₁
    have same := passes.same free
    refine .read fun stash readT => ?_
    have hst := (g₁.sound.child_of_body (g₁.body ht) readT).2
    refine .read fun empty _ => ?_
    split
    · refine (g₁.dequeue_value hB).bind fun v h₂ g₂ => ?_
      refine (g₂.pushStash ht hst).bind fun _ h₃ g₃ =>
        .pure ⟨_, g₁.restore g₃, σ₁, passes, .inl ⟨rfl, v, by rw [same]⟩⟩
    refine .read fun closed _ => ?_
    split
    · refine .read fun elem _ =>
        (zeroValue_makes (I := Knows (k.learn ch D) σ₁) (n := n + 5) g₁).yields.bind
        fun v h₂ g₂ => (g₂.pushStash ht hst).bind fun _ h₃ g₃ =>
        .pure ⟨_, g₃, σ₁, passes, .inl ⟨rfl, v, by rw [same]⟩⟩
    · refine .read fun q readR =>
        .pure ⟨σ₁, g₁, σ₁, passes, .inr ⟨q, rfl, rfl, D, g₁.body fact, tag, ?_⟩⟩
      exact (g₁.slot_read fact readR).2
  rcases came with ⟨rfl, g₁⟩ | ⟨notNil, g₁⟩
  · rw [if_neg (by decide)]
    exact rest_knows .refl (g'.restore g₁)
  rw [if_pos (by simpa [← Address.isNil_iff] using notNil)]
  have hB' : ((k.learn ch D).own sender (.waiting .send)).Serves buffer .any := hB
  refine (g₁.takeValue (List.mem_cons_self ..)).bind fun pending h₂ g₂ => ?_
  refine Yields.bind (Yields.afterwards (R := fun _ h' =>
    ∃ σ₁, Knows (k.learn ch D) σ₁ (n + 6) O h' ∧ Passes σ σ₁)
    (Q := fun _ h' => ∃ σ₁, Knows ((k.learn ch D).own sender (.waiting .send)) σ₁ (n + 3) O h' ∧
    Passes σ σ₁) ?_
    ?_) fun _ h₄ taken => taken.elim fun σ₁ taken => rest_knows taken.2 taken.1
  · obtain ⟨ρ, seen, noted, role⟩ := g₂.serves hB'
    refine (g₂.enqueueOwned (c := .any) rfl (by simp) ⟨ρ, seen, noted, role, .inr trivial⟩).bind
      fun _ h₃ g₃ => ?_
    have g₃ : Knows ((k.learn ch D).own sender (.waiting .send)) σ (n + 3) (0 + O) h₃ := by
      rw [zero_add]
      exact g₃.weaken (by omega)
    exact g₃.deliver (v := none) (List.mem_cons_self ..) rfl
  · rintro _ h₃ ⟨σ₁, g₃, passes⟩
    exact (g₃.disown g'.wf).free.mono fun _ _ g₄ => ⟨σ₁, g'.restore g₄, passes⟩

/-! ## Waiting -/

/-- The running thread is left to a queue of a channel. -/
theorem register [k.KeptByChains] (hq : k.Serves q (.waiting j)) (g : Knows k σ (n + 2) O h)
    (ht : k.facts t = some ⟨.thread, fs, cs⟩) (kept : k.Keeps t) (free : (σ t).place = none) :
    Yields (Channel.register q t v) h fun _ h' => ∃ w, Knows k
      (Function.update σ t ((σ t).parked j.wait w)) (n + 2) O h' := by
  refine ((g.weaken (Nat.le_succ _)).waker (y := j.wait) kept (g.thread ht) free).bind
    fun w h₁ ⟨within, g₁⟩ => ?_
  have completes : (k.withWaker w j.wait t).Finds (Function.update σ t ((σ t).parked j.wait w)) h₁
      fun ρ => Completes ρ w .nil j := by
    obtain ⟨ρ, seen, noted⟩ := g₁.sees
    have role : ρ w = .waker j.wait := noted (w, _) (List.mem_cons_self ..)
    exact ⟨ρ, seen, noted, by cases j <;> exact .inl ⟨rfl, role⟩⟩
  refine Yields.bind (Yields.afterwards (g₁.waiting (t := t) (j := j) (v := v) (b := .nil)
    (g₁.kept _ (List.mem_cons_self ..)) (.inl rfl) (by simp [Known.withWaker, Known.learn])
    (by simp [Task.parked])
    completes) (R := fun inst h' => Knows (k.own inst (.waiting j)) (Function.update σ t
      ((σ t).parked j.wait w)) (n + 1) O h') fun inst h₂ ⟨g₂, role⟩ => ?_) fun inst h₃ g₃ => ?_
  · refine ((g₂.own role).unhold (k := k.own inst (.waiting j)) (a := w) ⟨within.facts, ?_⟩ ?_
      (wf_own g.wf)).free
    · intro x hx
      simp only [Known.withWaker, Known.learn, Known.own, Known.note, Known.hold,
        List.mem_cons] at hx ⊢
      tauto
    · exact Multiset.cons_swap ..
  · obtain ⟨ρ, seen, noted, served⟩ := g₃.serves (c := .waiting j) (q := q) hq
    refine ((g₃.disown g.wf).enqueueOwned (c := .waiting j) rfl (by simp) ⟨ρ, seen,
      fun x hx => noted x (List.mem_cons_of_mem _ hx), served, .inr ?_⟩).mono fun _ _ g₄ =>
      ⟨w, g.restore g₄⟩
    exact noted (inst, _) (List.mem_cons_self ..)

/-- The queues of a channel that is known. -/
theorem serves_learn {c : Class} (tag : D.tag = .channel) (hq : D.children[i]? = some q)
    (hi : Channel.queueClass i = c) (small : i < 3) : (k.learn ch D).Serves q c := by
  refine ⟨ch, D, i, by simp [Known.learn], by rw [tag]; rfl, hq, fun ρ slot => ?_⟩
  subst hi
  rw [tag] at slot
  obtain rfl | rfl | rfl : i = 0 ∨ i = 1 ∨ i = 2 := by omega
  all_goals exact slot

/-- The running thread is left to the queue that an attempt ended with. -/
theorem await [k.KeptByValues] (g : Knows k σ (n + 2) O h) (kept : k.Keeps ch)
    (offers : h.Offers ch i q)
    (hi : Channel.queueClass i = .waiting j) (small : i < 3)
    (ht : k.facts t = some ⟨.thread, fs, cs⟩)
    (kept' : k.Keeps t) (free : (σ t).place = none) :
    Yields (Channel.register q t v) h fun _ h' => ∃ σ', Knows k σ' (n + 2) O h' ∧ ∃ w,
      σ' = Function.update σ t ((σ t).parked j.wait w) := by
  obtain ⟨D, hD, tag, hq⟩ := offers
  refine g.knowing hD kept fun g' => ?_
  have byChains : (k.learn ch D).KeptByChains := .learn (by rw [tag]; rfl)
  have within := g.within_learn hD
  have kept : (k.learn ch D).Keeps t :=
    kept'.imp_right (.imp_right fun ⟨d, E, hd, hm⟩ => ⟨d, E, within.facts hd, hm⟩)
  exact (register (serves_learn tag hq hi small) g' (within.facts ht) kept free).mono
    fun _ _ ⟨w, g''⟩ => ⟨_, g'', w, rfl⟩

variable [k.KeptByValues] (ht : k.facts t = some ⟨.thread, fs, cs⟩) (kept' : k.Keeps t)
    (free : (σ t).place = none)
  (runs : (σ t).waits = none)

include ht kept' free runs

/-- The running thread sends. -/
theorem send (g : Knows k σ (n + 6) O h) (kept : k.Keeps ch) :
    Yields (Channel.send ch v t s) h fun _ h' =>
    ∃ σ' τ, Knows k (Function.update σ' t τ) (n + 6) O h' ∧
      Passes σ σ' ∧ (σ t).Settles .turn τ := by
  unfold Channel.send
  split
  · exact .pure ⟨σ, _, g.rewait free, .refl, .parks⟩
  refine (g.trySend kept).bind fun r h₁ ⟨σ₁, g₁, passes, ends⟩ => ?_
  have same := passes.same runs
  cases r with
  | done =>
    refine ((g₁ : Knows k σ₁ (n + 4 + 2) O h₁).enqueue (g₁.thread ht) (same ▸ free)).bind
      fun _ h₂ ⟨x, g₂⟩ => .pure ⟨σ₁, _, g₂, passes, by rw [same]; exact .goes⟩
  | wait q =>
    refine ((g₁ : Knows k σ₁ (n + 4 + 2) O h₁).await kept (ends q rfl) (j := .send) rfl
      (by decide) ht kept'
      (same ▸ free)).bind fun _ h₂ ⟨σ₂, g₂, w, e⟩ =>
      .pure ⟨σ₁, _, e ▸ g₂, passes, by rw [same]; exact .parks⟩

/-- The running thread receives. -/
theorem recv {structs : Address} (g : Knows k σ (n + 6) O h) (kept : k.Keeps ch) :
    Yields (Channel.recv ch t structs s) h fun _ h' =>
    ∃ σ' τ, Knows k (Function.update σ' t τ) (n + 6) O h' ∧
      Passes σ σ' ∧
      ((∃ v x, τ = { σ t with stash := v :: (σ t).stash, waits := none, place := some x, queued :=
      true }) ∨
        ∃ p o, τ = { σ t with waits := some .value, place := p, offers := o }) := by
  unfold Channel.recv
  split
  · exact .pure ⟨σ, _, g.rewait free, .refl, .inr ⟨_, _, rfl⟩⟩
  refine (g.tryRecv kept ht runs).bind fun r h₁ ⟨σ₂, g₂, σ₁, passes, came⟩ => ?_
  have same := passes.same runs
  rcases came with ⟨rfl, v, rfl⟩ | ⟨q, rfl, rfl, offers⟩
  · refine ((g₂ : Knows k _ (n + 4 + 2) O h₁).enqueue (g₂.thread ht) (by simpa using free)).bind
      fun _ h₂ ⟨x, g₃⟩ => .pure ⟨σ₁, _, ?_, passes, .inl ⟨v, x, rfl⟩⟩
    simpa using g₃
  · refine ((g₂ : Knows k σ₂ (n + 4 + 2) O h₁).await kept offers (j := .receive) rfl
      (by decide) ht kept'
      (same ▸ free)).bind fun _ h₂ ⟨σ₃, g₃, w, e⟩ =>
      .pure ⟨σ₂, _, e ▸ g₃, passes, .inr ⟨_, _, by rw [same]; rfl⟩⟩

omit ht kept' free runs

/-! ## Closing -/

/-- The threads that wait to receive get the zero value. -/
theorem flush {structs elem : Address} (hq : k.Serves q (.waiting .receive)) :
    ∀ {m : Nat} {σ : Address → Task} {h : Heap}, Knows k σ (n + 6) O h →
      Yields (Channel.flush q elem structs s m) h fun _ h' => ∃ σ', Knows k σ' (n + 6) O h' ∧
      Passes σ σ'
  | 0, σ, _, g => .pure ⟨σ, g, .refl⟩
  | m + 1, σ, h, g => by
    refine (firstLive hq g).bind fun receiver h₁ came => ?_
    rcases came with ⟨rfl, g₁⟩ | ⟨notNil, g₁⟩
    · exact .pure ⟨σ, g.restore g₁, .refl⟩
    rw [if_neg (by rwa [Address.isNil_iff])]
    refine Yields.bind (Yields.afterwards (R := fun _ h' => ∃ σ', Knows k σ' (n + 6) O h' ∧
      Passes σ σ')
      (Q := fun _ h' => ∃ σ', Knows (k.own receiver (.waiting .receive)) σ' (n + 5) O h' ∧
      Passes σ σ') ?_
      fun _ h₂ ⟨σ', g₂, passes⟩ => ?_) fun _ h₃ ⟨σ₁, g₃, passes⟩ =>
        (flush hq g₃).mono fun _ _ ⟨σ', g', passes'⟩ => ⟨σ', g', passes.trans passes'⟩
    · refine (zeroValue_makes (I := Knows (k.own receiver (.waiting .receive)) σ)
        (n := n + 4) g₁).yields.bind
        fun zero h₂ g₂ => ?_
      exact (g₂ : Knows _ σ (n + 2 + 3) (zero ::ₘ O) h₂).deliver (v := some zero)
        (List.mem_cons_self ..) rfl
    · exact (g₂.disown g.wf).free.mono fun _ _ g₃ => ⟨σ', g.restore g₃, passes⟩

/-- A channel is closed. -/
theorem close {k : Known} [k.KeptByTurns] {structs : Address} (g : Knows k σ (n + 6) O h)
    (kept : k.Keeps ch) :
    Yields (Channel.close ch structs s) h fun _ h' => ∃ σ', Knows k σ' (n + 6) O h' ∧
    Passes σ σ' := by
  refine .guard fun _ => .read fun closed _ => .guard fun _ => ?_
  refine (g.setField rfl (k.other Tag.keptByTurns rfl)).heap.bind fun _ h₁ g₁ => ?_
  refine .read fun receivers readR => .read fun elem _ => ?_
  obtain ⟨_, -, readR'⟩ := query_bind_ok.1 (id readR : Channel.slot ch 2 h₁ = .ok receivers)
  obtain ⟨D, hD, tag, -⟩ := g₁.sound.child_read readR'
  have byValues : (k.learn ch D).KeptByValues := .learn (by rw [tag]; rfl)
  have fact : (k.learn ch D).facts ch = some D := by simp [Known.learn]
  refine .get (g₁.knowing hD kept fun g₂ => (flush (g₂.serves_receivers fact readR) g₂).bind ?_)
  rintro _ h₂ ⟨σ₁, g₃, passes⟩
  refine .read fun senders readS => ?_
  refine (firstLive (g₃.serves_senders fact readS) g₃).bind fun sender h₃ came => ?_
  rcases came with ⟨rfl, g₄⟩ | ⟨notNil, -⟩
  · rw [if_neg (by decide)]
    exact .pure ⟨σ₁, g₃.restore g₄, passes⟩
  · rw [if_pos (by simpa [← Address.isNil_iff] using notNil)]
    exact Yields.any.bind fun _ _ _ => .throw

end Knows
end GoMachine
