import GoMachine.Proofs.Tasks.Knows
/-!
# Queues

The links of a queue hold what the class of the queue asks for. A thread that is put on the queue of
runnable threads stands in the new link, and stands nowhere when it is taken off.

* `Knows.enqueueOwned`, `Knows.dequeue`: what is done to queues of other things.
* `Knows.enqueueOwned_runnable`, `Knows.dequeue_runnable`: what is done to the run queue.
-/
namespace GoMachine

open Heap (Retains)

variable {ρ : Roles} {k : Known} {σ σ' : Address → Task} {F F' : Facts} {n : Nat}
    {O : Multiset Address}
  {h : Heap} {a b q t v node : Address} {B D E : Body} {c : Class} {fs : List UInt64}
  {cs : List Address}

/-! ## One record of a queue changes -/

namespace Tells

theorem requeue (s : Tells ρ σ F) (hc : c.tag = .queue) (role : ρ q = .holder c) (hq : F q = some D)
    (slots : ∀ {i : Nat} {b}, cs[i]? = some b → b = .nil ∨ ρ b = .link c) :
    Tells ρ σ (Function.update F q (some ⟨.queue, fs, cs⟩)) := by
  refine s.write_still hq ⟨?_, fun hb => ?_, ?_⟩ ?_ ?_ (.inr (.inr fun w => ?_))
    (.of_ne (by simp [role]) (by simp [role])) <;> rw [role]
  · exact hc.symm
  · exact slots hb
  · trivial
  · cases c <;> first | rfl | cases hc
  · simp
  · simp [Role.Keeps]

theorem relink (s : Tells ρ σ F) (hc : c.tag = .queue) (role : ρ a = .link c) (ha : F a = some E)
    (link : b = .nil ∨ ρ b = .link c) :
    Tells ρ σ (Function.update F a (some { E with children := E.children.set 1 b })) := by
  refine s.write_still ha ((s.conforms ha).set ?_ ?_) ?_ ?_
    (.inl (List.getElem?_set_ne (by decide)))
    (.of_ne (by simp [role]) (by simp [role])) <;> rw [role]
  · exact link
  · trivial
  · cases c <;> first | rfl | cases hc
  · simp

/-- What stands in the slots of a queue. -/
theorem queue_slot (s : Tells ρ σ F) (role : ρ q = .holder c) (hq : F q = some D) {i : Nat}
    (hb : D.children[i]? = some b) : b = .nil ∨ ρ b = .link c := by
  have slot := (s.conforms hq).slot hb
  rwa [role] at slot

/-- A new link comes to the back of a queue. -/
theorem enqueue (s : Tells (Function.update ρ node (.link c)) σ' (Function.update F node
      (some ⟨.linkedList, [], [v, .nil]⟩))) (gone : F node = none) (hc : c.tag = .queue)
    (role : ρ q = .holder c) (behind : F.Enqueues q v node F') :
    Tells (Function.update ρ node (.link c)) σ' F' := by
  obtain ⟨back, D, w, hq, tag, hback, came⟩ := behind
  have ne : ∀ {b B}, F b = some B → b ≠ node := fun hb e => by simp [← e, hb] at gone
  have still : ∀ {b B}, F b = some B → Function.update F node (some ⟨.linkedList, [], [v, .nil]⟩)
    b = some B :=
    fun hb => by rwa [Function.update_of_ne (ne hb)]
  have role : Function.update ρ node (.link c) q = .holder c := by
    rwa [Function.update_of_ne (ne hq)]
  have link : Function.update ρ node (.link c) node = .link c := Function.update_self ..
  rcases came with ⟨-, rfl⟩ | ⟨E, notNil, hE, -, rfl⟩
  · refine s.requeue hc role (still hq) fun {i b} hb => ?_
    simp only [List.getElem?_set] at hb
    split_ifs at hb
    all_goals first
      | exact (Option.some_inj.1 hb) ▸ .inr link
      | exact s.queue_slot role (still hq) hb
  · have role' := (s.queue_slot role (still hq) hback).resolve_left notNil
    refine (s.relink hc role' (still hE) (.inr link)).requeue hc role (D := D) ?_ fun {i b} hb => ?_
    · rw [Function.update_of_ne, still hq]
      rintro rfl
      rw [role] at role'
      cases role'
    · simp only [List.getElem?_set] at hb
      split_ifs at hb
      all_goals first
        | exact (Option.some_inj.1 hb) ▸ .inr link
        | exact s.queue_slot role (still hq) hb

end Tells

/-! ## The run queue -/

namespace Sees

/-- The run queue stays as it is when a new link comes to the back of another queue. -/
theorem lined_enqueue (s : Sees ρ σ F) (gone : F node = none) (ne : c ≠ .runnable)
    (role : ρ q = .holder c) (behind : F.Enqueues q v node F') (queued : ∀ u, (σ' u).queued →
    (σ u).queued) :
    Lined (Function.update ρ node (.link c)) σ' F' := by
  obtain ⟨back, D, w, hq, tag, hback, came⟩ := behind
  have ne_node : ∀ {b B}, F b = some B → b ≠ node := fun hb e => by simp [← e, hb] at gone
  -- the queue and its last link are of another class
  have apart : ∀ {b r}, ρ b = r → r.IsQueue → b ≠ q ∧ (back ≠ .nil → b ≠ back) := by
    rintro b _ rfl here
    refine ⟨?_, fun notNil => ?_⟩ <;> rintro rfl
    · rw [role] at here
      simp [Role.IsQueue, ne] at here
    · rw [(s.queue_slot role hq hback).resolve_left notNil] at here
      simp [Role.IsQueue, ne] at here
  have same : ∀ {b r}, ρ b = r → r.IsQueue → b ≠ node → F' b = F b := by
    intro b r role here hn
    obtain ⟨ne, ne'⟩ := apart role here
    rcases came with ⟨-, rfl⟩ | ⟨E, notNil, -, -, rfl⟩
    · rw [Function.update_of_ne ne, Function.update_of_ne hn]
    · rw [Function.update_of_ne ne, Function.update_of_ne (ne' notNil), Function.update_of_ne hn]
  refine s.lined_of (fun {b B} hb role => ?_)
    (fun {b} role live => same role (.inr rfl) fun e => live (e ▸ gone)) queued
  have hn : b ≠ node := by
    rintro rfl
    rw [Function.update_self] at role
    cases role
  rw [Function.update_of_ne hn] at role
  exact ⟨by rwa [same role (.inl rfl) hn] at hb, role⟩

/-- A thread comes to the back of the run queue. -/
theorem lined_runnable (s : Sees ρ σ F) (gone : F node = none) (role : ρ q = .holder .runnable)
    (behind : F.Enqueues q t node F') (queued : ∀ u, (σ' u).queued → u = t ∨ (σ u).queued) :
    Lined (Function.update ρ node (.link .runnable)) σ' F' := by
  obtain ⟨back, D, w, hq, tag, hback, came⟩ := behind
  have ne : ∀ {b B}, F b = some B → b ≠ node := fun hb e => by simp [← e, hb] at gone
  obtain ⟨w', front, back', ts, rfl, queue, stand⟩ := s.queue hq role
  obtain rfl : back' = back := by simpa using hback
  have stand' : ∀ u, u ≠ .nil → (σ' u).queued → u ∈ ts ++ [t] := fun u notNil hu => by
    rcases queued u hu with rfl | hu
    · simp
    · simp [stand u notNil hu]
  -- the queue is the only one, before and after
  suffices here : ∃ front, F' q = some ⟨.queue, [w], [front, node]⟩ ∧
    Queues F' front node (ts ++ [t]) by
    obtain ⟨front, hq', queue⟩ := here
    have only : ∀ {b B}, F' b = some B → Function.update ρ node (.link .runnable) b = .holder
      .runnable → b = q := by
      intro b B hb role'
      have hn : b ≠ node := by
        rintro rfl
        rw [Function.update_self] at role'
        cases role'
      rw [Function.update_of_ne hn] at role'
      by_contra hne
      refine hne (s.single (B := B) ?_ hq role' role)
      rcases came with ⟨-, rfl⟩ | ⟨E, notNil, hE, -, rfl⟩
      · rwa [Function.update_of_ne hne, Function.update_of_ne hn] at hb
      · have hb' : b ≠ back' := by
          rintro rfl
          rw [(s.queue_slot role hq hback).resolve_left notNil] at role'
          cases role'
        rwa [Function.update_of_ne hne, Function.update_of_ne hb', Function.update_of_ne hn] at hb
    refine ⟨fun hb hb' role role' => (only hb role).trans (only hb' role').symm,
      fun {b B} hb role => ?_⟩
    obtain rfl := only hb role
    obtain rfl := Option.some_inj.1 (hb.symm.trans hq')
    exact ⟨w, front, node, _, rfl, queue, stand'⟩
  rcases came with ⟨rfl, rfl⟩ | ⟨E, notNil, hE, tagE, rfl⟩
  · obtain ⟨rfl, rfl⟩ := queue.eq_nil s.dead
    refine ⟨node, by simp, .nil, ?_, .inl ⟨rfl, rfl, rfl⟩⟩
    rw [Function.update_of_ne (ne hq).symm, Function.update_self]
  · have apart : back' ≠ q := by
      rintro rfl
      rw [hE, Option.some_inj] at hq
      rw [hq] at tagE
      cases tagE
    refine ⟨front, by simp, queue.snoc s.dead notNil ?_ ?_ fun {y D} hy tag' hb => ?_⟩
    · rw [Function.update_of_ne apart, Function.update_self, hE]
      rfl
    · rw [Function.update_of_ne (ne hq).symm, Function.update_of_ne (ne hE).symm,
        Function.update_self]
    · have hq' : y ≠ q := by
        rintro rfl
        rw [hq, Option.some_inj] at hy
        rw [← hy] at tag'
        cases tag'
      rw [Function.update_of_ne hq', Function.update_of_ne hb, Function.update_of_ne (ne hy)]

/-- The run queue stays as it is when another queue loses its first link. -/
theorem lined_dequeue (s : Sees ρ σ F) (ne : c ≠ .runnable) (role : ρ q = .holder c)
    (ahead : F.Dequeues q v F') (queued : ∀ u, (σ' u).queued → (σ u).queued) : Lined ρ σ' F' := by
  obtain ⟨D, hq, tag, came⟩ := ahead
  have same : ∀ {b r}, ρ b = r → r.IsQueue → F' b = F b := by
    rintro b _ rfl here
    have hne : b ≠ q := by
      rintro rfl
      rw [role] at here
      simp [Role.IsQueue, ne] at here
    rcases came with ⟨-, -, rfl⟩ | ⟨front, next, E, w, notNil, hfront, hE, -, -, -, rfl⟩
    · rw [Function.update_of_ne hne]
    · rw [Function.update_of_ne hne, Function.update_of_ne]
      rintro rfl
      rw [(s.queue_slot role hq hfront).resolve_left notNil] at here
      simp [Role.IsQueue, ne] at here
  exact s.lined_of (fun hb role => ⟨by rwa [same role (.inl rfl)] at hb, role⟩)
    (fun role _ => same role (.inr rfl)) queued

/-- The first thread is taken off the run queue. -/
theorem lined_scheduled (s : Sees ρ σ F) (role : ρ q = .holder .runnable)
    (ahead : F.Dequeues q v F')
    (queued : ∀ u, u ≠ .nil → (σ' u).queued → u ≠ v ∧ (σ u).queued) : Lined ρ σ' F' := by
  obtain ⟨D, hq, tag, came⟩ := ahead
  obtain ⟨w, front, back, ts, rfl, queue, stand⟩ := s.queue hq role
  -- the queue is the only one, before and after
  suffices here : ∃ w front back ts', F' q = some ⟨.queue, [w], [front, back]⟩ ∧
    Queues F' front back ts' ∧
      ∀ u, u ∈ ts → u ≠ v → u ∈ ts' by
    obtain ⟨w', front', back', ts', hq', queue', rest⟩ := here
    have only : ∀ {b B}, F' b = some B → ρ b = .holder .runnable → b = q := by
      intro b B hb role'
      by_contra hne
      refine hne (s.single (B := B) ?_ hq role' role)
      rcases came with ⟨-, -, rfl⟩ | ⟨front, next, E, w, notNil, hfront, hE, -, -, -, rfl⟩
      · rwa [Function.update_of_ne hne] at hb
      · rwa [Function.update_of_ne hne, Function.update_of_ne] at hb
        rintro rfl
        rw [(s.queue_slot role hq hfront).resolve_left notNil] at role'
        cases role'
    refine ⟨fun hb hb' role role' => (only hb role).trans (only hb' role').symm,
      fun {b B} hb role => ?_⟩
    obtain rfl := only hb role
    obtain rfl := Option.some_inj.1 (hb.symm.trans hq')
    refine ⟨w', front', back', ts', rfl, queue', fun u notNil hu => ?_⟩
    obtain ⟨ne, hu⟩ := queued u notNil hu
    exact rest u (stand u notNil hu) ne
  rcases came with ⟨-, absent, rfl⟩ | ⟨front', next, E, w', notNil, hfront, hE, -, hv, hnext, rfl⟩
  · obtain rfl : front = .nil := by simpa using absent
    cases ts with
    | nil =>
      obtain rfl := queue.2
      exact ⟨w, .nil, .nil, [], by simp, ⟨rfl, rfl⟩, by simp⟩
    | cons t ts =>
      obtain ⟨_, e, -⟩ := queue
      simp [s.dead] at e
  · obtain rfl : front = front' := by simpa using hfront
    cases ts with
    | nil => exact absurd queue.1 notNil
    | cons t ts =>
      have apart : front ≠ q := by
        rintro rfl
        obtain ⟨_, e, -⟩ := queue
        rw [hq, Option.some_inj] at e
        cases e
      obtain ⟨next', hf, queue'⟩ := queue.tail s.dead (G := Function.update (Function.update F front
        (some { E with children := (E.children.set 0 .nil).set 1 .nil })) q
        (some ⟨.queue, [w].set 0 w',
          (if next = .nil then [front, back].set 1 .nil else [front, back]).set 0 next⟩))
          fun {y D} hy tag' hb => by
        rw [Function.update_of_ne, Function.update_of_ne hb]
        rintro rfl
        rw [hq, Option.some_inj] at hy
        rw [← hy] at tag'
        cases tag'
      obtain rfl := Option.some_inj.1 (hE.symm.trans hf)
      obtain ⟨rfl, rfl⟩ : t = v ∧ next' = next := ⟨by simpa using hv, by simpa using hnext⟩
      refine ⟨w', next', _, ts, ?_, queue', fun u hu ne => (List.mem_cons.1 hu).resolve_left ne⟩
      rw [Function.update_self]
      split <;> rfl

end Sees

/-! ## Putting on -/

namespace Knows

/-- `S` tells where the thread stands then. -/
theorem enqueueOwned_stand [k.KeptByChains] {S : Address → Address → Task} (hc : c.tag = .queue)
    (g : Knows k σ (n + 1) (v ::ₘ O) h)
    (finds : k.Finds σ h fun ρ => (q = .nil ∨ ρ q = .holder c) ∧ ∀ node, node ≠ .nil →
    h.body? node = none →
      Tells (Function.update ρ node (.link c)) (S node)
        (Function.update h.body? node (some ⟨.linkedList, [], [v, .nil]⟩)) ∧
      ∀ F', ρ q = .holder c → Facts.Enqueues h.body? q v node F' →
        Lined (Function.update ρ node (.link c)) (S node) F') :
    Yields (Queue.enqueueOwned q v) h fun _ h' =>
      ∃ node, node ≠ .nil ∧ Knows k (S node) (n + 1) O h' := by
  refine (Queue.enqueueOwned_retains g.toRetains (k.other Tag.keptByChains rfl)
    (k.other Tag.keptByChains rfl)).mono
    fun _ h' ⟨g', node, F', notNil, gone, behind, sub⟩ => ⟨node, notNil, g', g.kept, ?_⟩
  obtain ⟨ρ, seen, noted, role, stands⟩ := finds
  have role : ρ q = .holder c := role.resolve_left fun e => by
    obtain ⟨_, _, _, hq, -⟩ := behind
    simp [e, g.dead] at hq
  obtain ⟨tells, lined⟩ := stands node notNil gone
  refine ⟨Function.update ρ node (.link c),
    Sees.sub ⟨tells.enqueue gone hc role behind, lined F' role behind⟩ sub
    g'.closed, fun x hx => (Function.update_of_ne ?_ ..).trans (noted x hx)⟩
  rintro rfl
  exact (g.live (g.kept x hx)).elim notNil fun live => live gone

/-- A new link holds what the class of the queue asks for. -/
theorem link_conforms (g : Knows k σ n (v ::ₘ O) h) (notNil : node ≠ .nil)
    (gone : h.body? node = none)
    (takes : v = .nil ∨ c.Takes ρ v) :
    Conforms (Function.update ρ node (.link c)) node ⟨.linkedList, [], [v, .nil]⟩ := by
  refine ⟨by rw [Function.update_self]; rfl, fun {i b} hb => ?_, by
    rw [Function.update_self]; trivial⟩
  rw [Function.update_self]
  rcases i with _ | i
  · obtain rfl : v = b := by simpa using hb
    refine takes.imp_right fun takes => ?_
    simp only [Slot, if_true]
    refine takes.congr (.inr (Function.update_of_ne ?_ ..))
    rintro rfl
    exact (g.live_of_mem (Multiset.mem_cons_self ..)).elim notNil fun live => live gone
  · exact .inl (List.eq_of_mem_replicate (n := 1) (List.mem_of_getElem? hb))

/-- No thread stands in a queue of other things. -/
theorem enqueueOwned [k.KeptByChains] (hc : c.tag = .queue) (ne : c ≠ .runnable)
    (g : Knows k σ (n + 1) (v ::ₘ O) h)
    (finds : k.Finds σ h fun ρ => (q = .nil ∨ ρ q = .holder c) ∧ (v = .nil ∨ c.Takes ρ v)) :
    Yields (Queue.enqueueOwned q v) h fun _ h' => Knows k σ (n + 1) O h' := by
  obtain ⟨ρ, seen, noted, role, takes⟩ := finds
  refine (g.enqueueOwned_stand (S := fun _ => σ) hc ⟨ρ, seen, noted, role, fun node notNil gone =>
    ⟨?_, ?_⟩⟩).mono
    fun _ _ ⟨_, _, g⟩ => g
  · refine seen.toTells.create_still g.closed gone notNil (g.link_conforms notNil gone takes)
      (by simp)
      (fun keeps => ?_) (by simp)
    cases c <;> first | exact absurd rfl ne | exact keeps.elim
  · exact fun F' role behind => seen.lined_enqueue gone ne role behind fun _ => id

/-- A thread that stands nowhere is made runnable. -/
theorem enqueueOwned_runnable [k.KeptByChains] (g : Knows k σ (n + 1) (t ::ₘ O) h)
    (finds : k.Finds σ h fun ρ => (q = .nil ∨ ρ q = .holder .runnable) ∧ ρ t = .thread)
    (free : (σ t).place = none) :
    Yields (Queue.enqueueOwned q t) h fun _ h' => ∃ node, Knows k
      (Function.update σ t { σ t with waits := none, place := some node, queued := true })
      (n + 1) O h' := by
  obtain ⟨ρ, seen, noted, role, role'⟩ := finds
  refine (g.enqueueOwned_stand (c := .runnable)
    (S := fun node => Function.update σ t { σ t with waits := none, place := some node, queued :=
    true }) rfl
    ⟨ρ, seen, noted, role, fun node notNil gone => ⟨?_, ?_⟩⟩).mono fun _ _ ⟨node, _, g⟩ => ⟨node, g⟩
  · exact seen.toTells.grasp g.closed gone notNil (g.link_conforms notNil gone (.inr role'))
      (by simp) rfl free
      ⟨rfl, rfl, rfl, subset_rfl, rfl⟩ rfl (fun _ keeps => keeps.symm) (by simp)
  · refine fun F' role behind => seen.lined_runnable gone role behind fun u hu =>
      or_iff_not_imp_left.2 fun ne => ?_
    rwa [Function.update_of_ne ne] at hu

/-! ## Taking off -/

/-- A link that is emptied does what its role asks for. -/
theorem emptied_conforms (conf : Conforms ρ a E) (role : ρ a = .link c) :
    Conforms ρ a { E with children := (E.children.set 0 .nil).set 1 .nil } :=
  (conf.set (.inl rfl) (by rw [role]; trivial)).set (.inl rfl) (by rw [role]; trivial)

/-- The first link is emptied, and the queue goes on with what came behind it. `S` tells where the
threads stand then. -/
theorem dequeue_stand [k.KeptByChains] (hc : c.tag = .queue) (g : Knows k σ (n + 4) O h)
    (role : k.Finds σ h fun ρ => q = .nil ∨ ρ q = .holder c) {S : Address → Address → Task}
    {P : Address → Prop}
    (nothing : ∀ {ρ F'}, Sees ρ σ h.body? → ρ q = .holder c → Facts.Dequeues h.body? q .nil F' →
    Lined ρ σ F')
    (stands : ∀ {ρ front E v}, Sees ρ σ h.body? → ρ front = .link c → h.body? front = some E →
      E.children[0]? = some v → v ≠ .nil → P v ∧ Tells ρ (S v) (Function.update h.body? front
        (some { E with children := (E.children.set 0 .nil).set 1 .nil })) ∧
        ∀ F', ρ q = .holder c → Facts.Dequeues h.body? q v F' → Lined ρ (S v) F') :
    Yields (Queue.dequeue q) h fun v h' => v = .nil ∧ Knows k σ (n + 3) O h' ∨ v ≠ .nil ∧ P v ∧
      Knows k (S v) (n + 3) (v ::ₘ O) h' ∧ k.Finds (S v) h' fun ρ => c.Takes ρ v := by
  obtain ⟨ρ, seen, noted, role⟩ := role
  refine (Queue.dequeue_retains g.toRetains (k.other Tag.keptByChains rfl)
    (k.other Tag.keptByChains rfl)).mono
    fun v h' ⟨g', F', ahead, sub⟩ => ?_
  obtain ⟨D, hq, tag, came⟩ := id ahead
  have role := role.resolve_left fun e => by simp [e, g.dead] at hq
  rcases came with ⟨rfl, -, e⟩ | ⟨front, next, E, w, notNil, hfront, hE, tag', hv, hnext, e⟩
  · refine .inl ⟨rfl, Retains.cons_nil.1 g', g.kept, ρ,
      Sees.sub ⟨?_, nothing seen role ahead⟩ sub g'.closed, noted⟩
    rw [e, tag]
    refine seen.requeue hc role hq fun {i b} hb => ?_
    rw [List.getElem?_set] at hb
    split_ifs at hb
    · exact .inl (Option.some_inj.1 hb).symm
    · exact seen.queue_slot role hq hb
  have role' := (seen.queue_slot role hq hfront).resolve_left notNil
  have conf := seen.conforms hE
  have behind : next = .nil ∨ ρ next = .link c := by
    have slot := conf.slot hnext
    rwa [role'] at slot
  have apart : q ≠ front := by
    rintro rfl
    rw [role] at role'
    cases role'
  have shift : ∀ {σ'}, Tells ρ σ' (Function.update h.body? front
      (some { E with children := (E.children.set 0 .nil).set 1 .nil })) → Tells ρ σ' F' := by
    intro σ' s
    rw [e]
    refine s.requeue hc role ((Function.update_of_ne apart ..).trans hq) fun {i b} hb => ?_
    have slot : b = next ∨ b = .nil ∨ D.children[i]? = some b := by
      split at hb <;> simp only [List.getElem?_set] at hb <;> split_ifs at hb <;> simp_all
    rcases slot with rfl | absent | old
    · exact behind
    · exact .inl absent
    · exact seen.queue_slot role hq old
  by_cases absent : v = .nil
  · refine .inl ⟨absent, Retains.cons_nil.1 (absent ▸ g'), g.kept, ρ,
      Sees.sub ⟨shift ?_, nothing seen role (absent ▸ ahead)⟩ sub g'.closed, noted⟩
    refine seen.toTells.write_still hE (emptied_conforms conf role') ?_ ?_ (.inl ?_)
      (.of_ne (by simp [role']) (by simp [role']))
    · rw [role']
      cases c <;> first | rfl | cases hc
    · simp [role']
    · rw [List.getElem?_set_ne (by decide), hv, absent]
      obtain ⟨_, _, e⟩ := List.getElem?_eq_some_iff.1 hv
      simp_all
  · obtain ⟨done, tells, lined⟩ := stands seen role' hE hv absent
    have s := Sees.sub ⟨shift tells, lined F' role ahead⟩ sub g'.closed
    refine .inr ⟨absent, done, ⟨g', g.kept, ρ, s, noted⟩, ρ, s, noted, ?_⟩
    have slot := (conf.slot hv).resolve_left absent
    rw [role'] at slot
    simpa [Slot] using slot

theorem dequeue [k.KeptByChains] (hc : c.tag = .queue) (ne : c ≠ .runnable)
    (g : Knows k σ (n + 4) O h)
    (role : k.Finds σ h fun ρ => q = .nil ∨ ρ q = .holder c) :
    Yields (Queue.dequeue q) h fun v h' => v = .nil ∧ Knows k σ (n + 3) O h' ∨ v ≠ .nil ∧
      Knows k σ (n + 3) (v ::ₘ O) h' ∧ k.Finds σ h' fun ρ => c.Takes ρ v := by
  suffices stands : _ from (g.dequeue_stand hc role (S := fun _ => σ) (P := fun _ => True)
    (fun seen role ahead => seen.lined_dequeue ne role ahead fun _ => id) stands).mono
    fun _ _ came => came.imp_right fun ⟨notNil, _, came⟩ => ⟨notNil, came⟩
  refine fun {ρ front E v} seen role hE _ _ => ⟨trivial, ?_, fun F' role' ahead =>
    seen.lined_dequeue ne role' ahead fun _ => id⟩
  refine seen.toTells.write_still hE (emptied_conforms (seen.conforms hE) role) ?_ (by simp [role])
    (.inr (.inr fun w keeps => ?_)) (.of_ne (by simp [role]) (by simp [role]))
  · rw [role]
    cases c <;> first | rfl | cases hc
  · rw [role] at keeps
    cases c <;> first | exact ne rfl | exact keeps.elim

/-- A thread that is taken off the queue of runnable threads stands nowhere. -/
theorem dequeue_runnable [k.KeptByChains] (g : Knows k σ (n + 4) O h)
    (role : k.Finds σ h fun ρ => q = .nil ∨ ρ q = .holder .runnable) :
    Yields (Queue.dequeue q) h fun t h' => t = .nil ∧ Knows k σ (n + 3) O h' ∨ t ≠ .nil ∧
    (σ t).waits = none ∧
      Knows k (Function.update σ t { σ t with place := none, queued := false }) (n + 3)
      (t ::ₘ O) h' ∧
      k.Finds (Function.update σ t { σ t with place := none, queued := false }) h' fun ρ =>
      ρ t = .thread := by
  refine g.dequeue_stand (c := .runnable) rfl role
    (S := fun t => Function.update σ t { σ t with place := none, queued := false })
    (fun seen role ahead => seen.lined_scheduled role ahead fun u notNil hu => ⟨notNil, hu⟩)
    fun {ρ front E t} seen role hE ht notNil =>
      ⟨(seen.place (w := none) hE ht notNil (by rw [role]; rfl)).2, ?_, fun F' role' ahead =>
        seen.lined_scheduled role' ahead fun u _ hu => ?_⟩
  · refine seen.toTells.release hE (emptied_conforms (seen.conforms hE) role) (by rw [role]; rfl)
      (by simp [role]) ht notNil
      (w := none) (by rw [role]; rfl) ?_ ⟨rfl, rfl, rfl, subset_rfl, rfl⟩
      (.of_ne (by simp [role]) (by simp [role]))
    obtain ⟨long, -⟩ := List.getElem?_eq_some_iff.1 ht
    rw [List.getElem?_set_ne (by decide), List.getElem?_set_self (by simpa using long)]
  · have ne : u ≠ t := by
      rintro rfl
      simp at hu
    rw [Function.update_of_ne ne] at hu
    exact ⟨ne, hu⟩

/-- The thread that is to run next is all that is taken off the queue. -/
theorem dequeue_runnable_threads [k.KeptByChains] (g : Knows k σ (n + 4) O h)
    (role : k.Finds σ h fun ρ => q = .nil ∨ ρ q = .holder .runnable) :
    Yields (Queue.dequeue q) h fun _ h' => Facts.SameThreads h.body? h'.body? := by
  obtain ⟨ρ, seen, noted, role⟩ := role
  rcases hq : h.body? q with _ | D
  · exact g.sound.takeChild_there.heap.bind fun _ _ there => absurd hq there
  have role := role.resolve_left fun e => by simp [e, g.dead] at hq
  obtain ⟨w, front, back, ts, rfl, queue, -⟩ := seen.queue hq role
  refine Queue.dequeue_threads g.toRetains (k.other Tag.keptByChains rfl)
    (k.other Tag.keptByChains rfl) hq ?_
  cases ts with
  | nil => exact .inl queue.1
  | cons v ts =>
    obtain ⟨next, hf, last⟩ := queue
    refine .inr ⟨v, next, hf, fun e => last.elim (fun h => h.2.2) fun ⟨ne, rest⟩ => ?_⟩
    obtain ⟨_, _, rfl⟩ := List.exists_cons_of_ne_nil ne
    obtain ⟨_, hn, -⟩ := rest
    simp [e, g.dead] at hn

end Knows
end GoMachine
