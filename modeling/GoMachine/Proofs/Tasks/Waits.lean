import GoMachine.Proofs.Tasks.Queues
import GoMachine.Proofs.Tasks.Stacks
/-!
# Threads that wait

A thread that runs stands nowhere. It is put on the queue of runnable threads, or comes into a
waker, by which it waits for its turn, for a value, or for one of the cases of a `select`. Who wakes
it makes it runnable, after having put on its stacks what it waits for (`Task.Woken`).

* `Knows.deliver`: what the thread of a waiting instance gets when its operation completes.
* `Knows.wakeAll`: what becomes of threads that wait for a lock.
-/
namespace GoMachine

open Heap (Retains)

/-- What becomes of a thread that is woken: what it gets comes by one of its waiting instances, and
so does the node that it goes on with. -/
inductive Task.Woken (τ : Task) : Task → Prop
  | turn {x} : τ.waits = some .turn → τ.Woken { τ with waits := none, place := some x, queued :=
      true }
  | value {x i w v} : τ.waits = some .value → (i, w, .nil) ∈ τ.offers →
    τ.Woken { τ with stash := v :: τ.stash, waits := none, place := some x, queued := true }
  | sent {x i w b c} : τ.waits = some .case → Runs c 0 → (i, w, b) ∈ τ.offers →
    τ.Woken { τ with control := ⟨b, c⟩ :: τ.control, waits := none, place := some x, queued :=
    true }
  | received {x i w b c v} : τ.waits = some .case → Runs c 1 → (i, w, b) ∈ τ.offers →
    τ.Woken { τ with
      control := ⟨b, c⟩ :: τ.control, stash := v :: τ.stash
      waits := none, place := some x, queued := true }

/-- The thread comes into a waker. Any instance may use that. -/
def Task.parked (τ : Task) (y : Wait) (w : Address) : Task :=
  { τ with waits := some y, place := some w, offers := Set.univ }

/-- A new waker is owned and known. -/
def Known.withWaker (k : Known) (w : Address) (y : Wait) (t : Address) : Known :=
  (k.own w (.waker y)).learn w ⟨.waker, [], [t]⟩

/-- Each thread has left to do what it had, or is woken. -/
def Passes (σ σ' : Address → Task) : Prop := ∀ v, σ' v = σ v ∨ (σ v).Woken (σ' v)

variable {ρ : Roles} {k : Known} {σ σ' σ'' : Address → Task} {F : Facts} {n : Nat}
    {O : Multiset Address}
  {h : Heap} {a b q t u v w s inst : Address} {B D E : Body} {c : Class} {y : Wait} {τ τ' : Task}
  {tag : Tag} {i : Nat} {G : Facts} {P : Multiset Address} {j : Side} {r : Role}

theorem Task.Woken.waits (h : τ.Woken τ') : τ.waits ≠ none ∧ τ'.waits = none := by
  cases h <;> simp_all

namespace Passes

theorem refl : Passes σ σ := fun _ => .inl rfl

theorem update (h : τ = σ t ∨ (σ t).Woken τ) : Passes σ (Function.update σ t τ) := by
  intro v
  by_cases e : v = t
  · subst e
    rwa [Function.update_self]
  · exact .inl (Function.update_of_ne e ..)

/-- A thread is woken once. -/
theorem trans (h : Passes σ σ') (h' : Passes σ' σ'') : Passes σ σ'' := by
  intro v
  rcases h v with e | woken
  · rw [← e]
    exact h' v
  · rcases h' v with e | woken'
    · rw [e]
      exact .inr woken
    · exact absurd woken.waits.2 woken'.waits.1

/-- A thread that does not wait is not woken. -/
theorem same (h : Passes σ σ') (free : (σ u).waits = none) : σ' u = σ u :=
  (h u).resolve_right fun woken => woken.waits.1 free

end Passes

/-! ## New wakers and waiting instances -/

/-- A new waker is all that changes. -/
theorem Waker.create_retains (g : Retains G P (n + 1) O h) :
    Yields (Waker.create t) h fun w h' => Retains G P (n + 1) (w ::ₘ O) h' ∧ w ≠ .nil ∧
      h.body? w = none ∧ G w = none ∧ h'.body? = Function.update h.body? w
      (some ⟨.waker, [], [t]⟩) := by
  refine (g.allocate (Nat.zero_le _)).heap.bind fun w h₁ ⟨g₁, notNil, gone, new, e₁⟩ => ?_
  have here : h₁.body? w = some ⟨.waker, [], [.nil]⟩ := by rw [e₁, Function.update_self]; rfl
  refine (g₁.setChild (by simp [new])).heap.bind fun _ h₂ ⟨g₂, D, d, ha, _, hd, _, e₂⟩ => ?_
  obtain rfl : D = _ := Option.some_inj.1 (ha.symm.trans here)
  refine .pure ⟨g₂, notNil, gone, new, ?_⟩
  rw [e₂ (by simpa using hd.symm), e₁, Function.update_idem]
  rfl

/-- A new waiting instance is all that changes. -/
theorem Waiting.create_retains (g : Retains G P (n + 1) O h) :
    Yields (Waiting.create w v b) h fun inst h' => Retains G P (n + 1) (inst ::ₘ O) h' ∧
      inst ≠ .nil ∧ h.body? inst = none ∧ G inst = none ∧
      h'.body? = Function.update h.body? inst (some ⟨.waitingInstance, [], [w, v, b]⟩) := by
  refine (g.allocate (Nat.zero_le _)).heap.bind fun inst h₁ ⟨g₁, notNil, gone, new, e₁⟩ => ?_
  have here : h₁.body? inst = some ⟨.waitingInstance, [], [.nil, .nil, .nil]⟩ := by
    rw [e₁, Function.update_self]
    rfl
  have set : ∀ {i : Nat} {b : Address} {h : Heap} {cs : List Address},
    Retains G P (n + 1) (inst ::ₘ O) h →
      h.body? inst = some ⟨.waitingInstance, [], cs⟩ → cs[i]? = some .nil →
      Yields (HeapM.setChild inst .waitingInstance i b) h fun _ h' =>
      Retains G P (n + 1) (inst ::ₘ O) h' ∧
        h'.body? = Function.update h.body? inst (some ⟨.waitingInstance, [], cs.set i b⟩) := by
    intro i b h cs g hb absent
    refine (g.setChild (by simp [new])).mono fun _ h' ⟨g', D, d, ha, _, hd, _, e⟩ => ⟨g', ?_⟩
    obtain rfl : D = _ := Option.some_inj.1 (ha.symm.trans hb)
    exact e (Option.some_inj.1 (hd.symm.trans absent))
  refine (set g₁ here rfl).heap.bind fun _ h₂ ⟨g₂, e₂⟩ => ?_
  have here : h₂.body? inst = some ⟨.waitingInstance, [], [w, .nil, .nil]⟩ := by
    rw [e₂, Function.update_self]
    rfl
  refine (set g₂ here rfl).heap.bind fun _ h₃ ⟨g₃, e₃⟩ => ?_
  have here : h₃.body? inst = some ⟨.waitingInstance, [], [w, v, .nil]⟩ := by
    rw [e₃, Function.update_self]
    rfl
  refine (set g₃ here rfl).heap.bind fun _ h₄ ⟨g₄, e₄⟩ => ?_
  refine .pure ⟨g₄, notNil, gone, new, ?_⟩
  rw [e₄, e₃, e₂, e₁, Function.update_idem, Function.update_idem, Function.update_idem]
  rfl

namespace Knows

/-- What is known is not where a record comes up. -/
theorem ne_of_gone (g : Knows k σ n O h) (kept : k.Keeps b) (gone : h.body? a = none) :
    b = .nil ∨ b ≠ a :=
  (g.live kept).imp_right fun live e => live (e ▸ gone)

/-- A thread that stands nowhere comes into a new waker. -/
theorem waker (g : Knows k σ (n + 1) O h) (kept : k.Keeps t) (thread : k.Finds σ h fun ρ =>
    ρ t = .thread)
    (free : (σ t).place = none) :
    Yields (Waker.create t) h fun w h' => k.Within (k.withWaker w y t) ∧
      Knows (k.withWaker w y t) (Function.update σ t ((σ t).parked y w)) (n + 1) O h' := by
  refine (Waker.create_retains g.toRetains).mono fun w h' ⟨g', notNil, gone, new, e⟩ => ?_
  obtain ⟨ρ, seen, noted, thread⟩ := thread
  have ne : t ≠ w := (g.ne_of_gone kept gone).resolve_left fun e => by simp [e, seen.nil] at thread
  have seen' := seen.grasp (r := .waker y) (B := ⟨.waker, [], [t]⟩)
    (τ := (σ t).parked y w) g.closed gone notNil
    ⟨by rw [Function.update_self]; rfl, fun {i b} hb => ?_, by rw [Function.update_self]; trivial⟩
    (by simp) (by simp) rfl
    free ⟨rfl, rfl, rfl, Set.subset_univ _, rfl⟩ rfl (fun _ keeps => keeps.symm) (by simp) id
  · refine ⟨⟨fun b B hb => ?_, List.subset_cons_self ..⟩, Knows.learn
      ((⟨g', g.kept, _, e ▸ seen', fun x hx => ?_⟩ : Knows k _ _ _ _).own
      ⟨_, e ▸ seen', fun x hx => ?_, Function.update_self ..⟩) (by rw [e, Function.update_self])
      (.inr (.inl (Multiset.mem_cons_self ..)))⟩
    · exact (Function.update_of_ne (fun e => by simp [e, new] at hb) ..).trans hb
    all_goals
      refine (Function.update_of_ne ?_ ..).trans (noted x hx)
      rintro rfl
      exact (g.ne_of_gone (g.kept x hx) gone).elim notNil fun ne => ne rfl
  · rw [Function.update_self]
    obtain rfl : t = b := by
      rcases i with _ | i
      · simpa using hb
      · simp at hb
    exact .inr ((Function.update_of_ne ne ..).trans thread)

/-- A waker that is owned for longer is given up. -/
theorem unwaker (g : Knows (k.withWaker w y t) σ n O h) (within : k.Within (k.withWaker w y t))
    (wf : k.Wf) :
    Knows k σ n (w ::ₘ O) h :=
  g.unhold within rfl wf

/-- A new waiting instance says what is to be done when the operation completes. -/
theorem waiting (g : Knows k σ (n + 1) O h) (kept : k.Keeps w) (live : b = .nil ∨ h.body? b ≠ none)
    (hw : k.facts w = some ⟨.waker, [], [t]⟩) (any : (σ t).offers = Set.univ)
    (completes : k.Finds σ h fun ρ => Completes ρ w b j) :
    Yields (Waiting.create w v b) h fun inst h' => Knows k σ (n + 1) (inst ::ₘ O) h' ∧
      k.Finds σ h' fun ρ => ρ inst = .waiting j := by
  refine (Waiting.create_retains g.toRetains).mono fun inst h' ⟨g', notNil, gone, _, e⟩ => ?_
  obtain ⟨ρ, seen, noted, completes⟩ := completes
  have settled : ∀ {b}, b = .nil ∨ h.body? b ≠ none →
      ρ b = .loose ∨ Function.update ρ inst (.waiting j) b = ρ b := fun live => live.imp
    (fun e => by rw [e, seen.nil]) fun live => Function.update_of_ne (fun e => live (e ▸ gone)) ..
  have seen' := seen.create_still (r := .waiting j) (B := ⟨.waitingInstance, [], [w, v, b]⟩)
    g.closed gone
    notNil
    ⟨by rw [Function.update_self]; rfl, fun _ => .inr (by rw [Function.update_self]; trivial), ?_⟩
    (by simp)
    (by simp) (fun keeps => keeps.elim) fun {j' w' b' E u} _ hi _ hw' hu _ => ?_
  · rw [← e] at seen'
    have noted' : k.Noted (Function.update ρ inst (.waiting j)) := fun x hx => by
      refine (Function.update_of_ne ?_ ..).trans (noted x hx)
      rintro rfl
      exact (g.ne_of_gone (g.kept x hx) gone).elim notNil fun ne => ne rfl
    exact ⟨⟨g', g.kept, _, seen', noted'⟩, _, seen', noted', Function.update_self ..⟩
  · rw [Function.update_self]
    exact ⟨w, v, b, rfl, completes.congr (settled (g.live kept)) (settled live)⟩
  · obtain rfl : w = w' := by simpa using hi
    obtain rfl := Option.some_inj.1 (hw'.symm.trans (g.body hw))
    obtain rfl : t = u := by simpa using hu
    rw [any]
    trivial

/-! ## Making threads runnable -/

/-- What stands in the slots of a record without a role of its own. -/
theorem plain_slot (g : Knows k σ n O h) (ht : tag.isPlain) (read : Query.child a tag i h = .ok b)
    (seen : Sees ρ σ h.body?) : b = .nil ∨ LooseSlot ρ b tag i := by
  obtain ⟨D, hD, rfl, hi⟩ := g.sound.child_read read
  have slot := (seen.conforms hD).slot hi
  rwa [(seen.conforms hD).loose ht] at slot

/-- A thread that stands nowhere is made runnable. -/
theorem enqueue [k.KeptByChains] (g : Knows k σ (n + 2) O h) (thread : k.Finds σ h fun ρ =>
    ρ t = .thread)
    (free : (σ t).place = none) :
    Yields (Scheduler.enqueue s t) h fun _ h' => ∃ x, Knows k
      (Function.update σ t { σ t with waits := none, place := some x, queued := true })
      (n + 2) O h' := by
  refine .read fun q read => g.reference.heap.bind fun _ h₁ ⟨_, g₁, same⟩ => ?_
  obtain ⟨ρ, seen, noted, thread⟩ := thread
  refine (g₁.enqueueOwned_runnable ⟨ρ, same ▸ seen, noted, g.plain_slot rfl read seen, thread⟩
    free).mono
    fun _ _ ⟨x, g'⟩ => ⟨x, g.restore g'⟩

/-- The thread that is to run next stands nowhere. -/
theorem scheduled [k.KeptByChains] (g : Knows k σ (n + 4) O h) :
    Yields (Scheduler.dequeue s) h fun t h' => t = .nil ∧ Knows k σ (n + 3) O h' ∨ t ≠ .nil ∧
      (σ t).waits = none ∧ Knows k (Function.update σ t { σ t with place := none, queued := false })
      (n + 3) (t ::ₘ O) h' ∧
      k.Finds (Function.update σ t { σ t with place := none, queued := false }) h' fun ρ =>
      ρ t = .thread := by
  refine .read fun q read => ?_
  obtain ⟨ρ, seen, noted⟩ := g.sees
  exact g.dequeue_runnable ⟨ρ, seen, noted, g.plain_slot rfl read seen⟩

theorem scheduled_threads [k.KeptByChains] (g : Knows k σ (n + 4) O h) :
    Yields (Scheduler.dequeue s) h fun _ h' => Facts.SameThreads h.body? h'.body? := by
  refine .read fun q read => ?_
  obtain ⟨ρ, seen, noted⟩ := g.sees
  exact g.dequeue_runnable_threads ⟨ρ, seen, noted, g.plain_slot rfl read seen⟩

/-- The thread of a waker is made runnable, if it was not before. -/
theorem wake [k.KeptByWaking] (g : Knows k σ (n + 3) O h) (role : k.Finds σ h fun ρ =>
    ρ w = .waker y) :
    Yields (Waker.wake w s) h fun _ h' => ∃ D t, h.body? w = some D ∧ D.children[0]? = some t ∧
      (t = .nil ∧ Knows k σ (n + 3) O h' ∨ t ≠ .nil ∧ (σ t).waits = some y ∧
        ∃ x, Knows k (Function.update σ t { σ t with waits := none, place := some x, queued :=
        true }) (n + 3) O h') := by
  obtain ⟨ρ, seen, noted, role⟩ := role
  refine (g.toRetains.takeChild (k.other Tag.keptByWaking rfl)).heap.bind fun t h₁ found => ?_
  obtain ⟨g₁, D, hw, tag, ht, e⟩ := found
  have conf := seen.conforms hw
  have empty : Conforms ρ w { D with children := D.children.set 0 .nil } :=
    conf.set (.inl rfl) (by rw [role]; trivial)
  split
  · next absent =>
    obtain rfl := Address.isNil_iff.1 absent
    suffices g₂ : Knows k σ (n + 2) O h₁ from .pure ⟨D, .nil, hw, ht, .inl ⟨rfl, g.restore g₂⟩⟩
    refine ⟨Retains.cons_nil.1 g₁, g.kept, ρ, ?_, noted⟩
    rw [e]
    have first : (D.children.set 0 .nil)[0]? = some .nil := by
      obtain ⟨long, -⟩ := List.getElem?_eq_some_iff.1 ht
      exact List.getElem?_set_self long
    exact seen.write_still hw empty (by rw [role]; rfl) (by simp [role])
      (by simp [role, Role.IsQueue])
      (.inr (.inl first))
      ⟨by simp [role], fun _ _ => .inl first⟩
  next notNil =>
  rw [Address.isNil_iff] at notNil
  have thread : ρ t = .thread := by
    have slot := (conf.slot ht).resolve_left notNil
    rwa [role] at slot
  have waits := (seen.place hw ht notNil (w := some y) (by rw [role]; rfl)).2
  have seen₁ : Sees ρ (Function.update σ t { σ t with place := none, queued := false })
    h₁.body? := by
    rw [e]
    have first : (D.children.set 0 .nil)[0]? = some .nil := by
      obtain ⟨long, -⟩ := List.getElem?_eq_some_iff.1 ht
      exact List.getElem?_set_self long
    exact seen.release hw empty (by rw [role]; rfl) (by simp [role])
      (by simp [role, Role.IsQueue]) ht notNil
      (w := some y) (by rw [role]; rfl) first ⟨rfl, rfl, rfl, subset_rfl, rfl⟩
      ⟨by simp [role], fun _ _ => .inl first⟩
      (by simp)
  have g₁ : Knows k (Function.update σ t { σ t with place := none, queued := false }) (n + 2)
    (t ::ₘ O) h₁ :=
    ⟨g₁, g.kept, ρ, seen₁, noted⟩
  refine (Yields.afterwards (g₁.enqueue ⟨ρ, seen₁, noted, thread⟩ (by simp)) ?_).bind
    fun _ h₃ g₃ => .pure ⟨D, t, hw, ht, .inr ⟨notNil, waits, g₃⟩⟩
  rintro _ h₂ ⟨x, g₂⟩
  refine g₂.free.mono fun _ _ g₃ => ⟨x, g.restore (m := n + 2) ?_⟩
  simpa using g₃

end Knows
end GoMachine
