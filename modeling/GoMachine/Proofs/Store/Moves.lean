import GoMachine.Proofs.Store.Chains
import GoMachine.Proofs.Strings.Making
/-!
# What stacks and queues do to all records

`Stores` tells what a client finds in its containers, but not what else there is in the heap. Here
the client knows what every record says, and learns what every record says afterwards: a link comes,
or goes, the container and the last link are written, and that is all. A link goes only if nothing
but the client has hold of it by then.

* `Stack.pushOwned_reports`, `Stack.pop_reports`: stacks.
* `Queue.enqueueOwned_reports`, `Queue.dequeue_reports`: queues.
-/
namespace GoMachine

open Heap (Reports Backed Records Exact Drops known_update)

variable {P O : Multiset Address} {n : Nat} {F : Facts} {h h' : Heap}
    {a b d l q u v x next top front back : Address}
  {t : Tag} {i : Nat} {w : UInt64} {fs : List UInt64} {cs : List Address} {D : Body}

/-- Something is neither owned nor pinned, and no record has it in a slot. -/
structure Facts.Lone (F : Facts) (P O : Multiset Address) (a : Address) : Prop where
  owned : a ∉ O
  pinned : a ∉ P
  slots : ∀ d D, F d = some D → a ∉ D.children

/-- A record is written, and does not have it in a slot afterwards. -/
theorem Facts.Lone.write (k : F.Lone P O a) (away : a ∉ D.children) :
    Facts.Lone (Function.update F b (some D)) P O a := by
  refine ⟨k.owned, k.pinned, fun d E hd => ?_⟩
  rw [Function.update_apply] at hd
  split_ifs at hd
  · cases hd
    exact away
  · exact k.slots d E hd

namespace Heap

/-- Dropping nothing but nil changes nothing. -/
theorem Drops.nils {m m' : Records} {l : List Address} (drops : Drops m l m') (dead : m .nil = none)
    (nils : ∀ b ∈ l, b = .nil) : m' = m := by
  induction drops with
  | done => rfl
  | nil _ ih => exact ih dead fun b hb => nils b (by simp [hb])
  | lower hc => cases dead.symm.trans (nils _ List.mem_cons_self ▸ hc)
  | release hc => cases dead.symm.trans (nils _ List.mem_cons_self ▸ hc)

namespace Reports

theorem known (g : Reports P n O F h) (ha : F a = some D) : h.body? a = some D := g.body ▸ ha

/-- A reference moves into a slot, and the one that stood there is not the last one. -/
theorem putOwned (g : Reports P n (b ::ₘ O) F h) (ha : F a = some ⟨t, fs, cs⟩)
    (hx : cs[i]? = some x)
    (backed : Backed O (Function.update F a (some ⟨t, fs, cs.set i b⟩)) x) :
    Gives (HeapM.setChildOwned a t i b) h fun _ h' =>
      Reports P n O (Function.update F a (some ⟨t, fs, cs.set i b⟩)) h' := by
  obtain ⟨o, ho, e⟩ := body?_eq_some.1 (g.body ▸ ha)
  cases e
  exact (g.setChildOwned ha fun d hd => by
    obtain rfl := Option.some_inj.1 (hd.symm.trans hx); exact backed).gives
    (g.owns.exact.setChildOwned ho hx)

/-- A new reference is stored in a slot, and the one that stood there is not the last one. -/
theorem put (g : Reports P (n + 1) O F h) (ha : F a = some ⟨t, fs, cs⟩) (hx : cs[i]? = some x)
    (here : b = .nil ∨ F b ≠ none)
    (backed : Backed O (Function.update F a (some ⟨t, fs, cs.set i b⟩)) x) :
    Gives (HeapM.setChild a t i b) h fun _ h' =>
      Reports P (n + 1) O (Function.update F a (some ⟨t, fs, cs.set i b⟩)) h' := by
  have taken := (g.owns.weaken (Nat.zero_le _)).reference_gain (here.imp_right g.isLive.2)
  exact (g.reference.gives taken).bind fun _ _ ⟨_, g₁⟩ =>
    (g₁.putOwned ha hx backed).mono fun _ _ g₂ => g.restore g₂

/-- A reference moves out of a slot. -/
theorem takeChild (g : Reports P (n + 1) O F h) (ha : F a = some ⟨t, fs, cs⟩)
    (hx : cs[i]? = some x) :
    Gives (HeapM.takeChild a t i) h fun b h' => b = x ∧
      Reports P n (x ::ₘ O) (Function.update F a (some ⟨t, fs, cs.set i .nil⟩)) h' := by
  obtain ⟨o, ho, e⟩ := body?_eq_some.1 (g.body ▸ ha)
  cases e
  obtain ⟨slot, word, exact, u⟩ := Holds.put_child (Owns.cons_nil.2 g.owns).exact ho hx
  exact Gives.ask slot ⟨_, _, rfl, word, ⟨exact, g.owns.spare.cons⟩,
    u.body?_eq.trans (g.body ▸ rfl)⟩

/-- The last reference to a record is dropped, and nothing stands in its slots. -/
theorem release (g : Reports P n (a ::ₘ O) F h) (ha : F a = some D) (lone : F.Lone P O a)
    (empty : ∀ b ∈ D.children, b = .nil) :
    Gives (HeapM.free a) h fun _ h' => Reports P n O (Function.update F a none) h' := by
  obtain ⟨c, hc, e⟩ := body?_eq_some.1 (g.body ▸ ha)
  have x := g.owns.exact
  have slotless : a ∉ h.edges := fun edge => by
    obtain ⟨b, o, hb, mem⟩ := mem_edges.1 edge
    exact lone.slots b o.body (by rw [← g.body, body?_eq_some.2 ⟨o, hb, rfl⟩]) mem
  have count : c.count.toNat = 1 := by
    rw [x.count hc, Multiset.count_add, Multiset.count_cons_self,
      Multiset.count_eq_zero_of_notMem lone.owned,
      Multiset.count_eq_zero_of_notMem slotless]
  have unpinned : c.pins.toNat = 0 := by
    rw [x.pins hc, Multiset.count_eq_zero_of_notMem lone.pinned]
  obtain ⟨h', run, x', -⟩ := x.free
  refine ⟨(), h', run, ⟨x', g.owns.spare.anti (Multiset.le_cons_self O a)⟩, ?_⟩
  have last : c.count = 1 ∧ c.pins = 0 := ⟨UInt64.toNat_inj.1 count, UInt16.toNat_inj.1 unpinned⟩
  have dead : h.cell? .nil = none := cell?_eq_none.2 x.sound.not_isLive_nil
  cases x.sound.drain_drops run with
  | nil => cases dead.symm.trans hc
  | lower hc' _ kept =>
    obtain rfl := Option.some_inj.1 (hc.symm.trans hc')
    exact absurd last kept
  | release hc' _ _ rest =>
    obtain rfl := Option.some_inj.1 (hc.symm.trans hc')
    have nils : ∀ b ∈ c.children.reverse ++ [], b = .nil := fun b hb =>
      empty b (e ▸ (by simpa using hb : b ∈ c.children))
    have cells := rest.nils (by rw [Function.update_apply]; split_ifs <;> simp [dead]) nils
    have facts : h'.body? = Records.facts (Function.update h.cell? a none) := by rw [← cells]; rfl
    rw [facts, Records.facts_update, ← g.body]
    rfl

end Reports
end Heap

/-- The heap was too small. -/
abbrev Fault.Shortage (e : Fault) (_ : Heap) : Prop := e.isShortage

/-- A new link takes over the client's reference to its value. -/
theorem Chain.createOwned_reports (g : Reports P (n + 1) (v ::ₘ O) F h) (here : next = .nil ∨
    F next ≠ none) :
    Ends Fault.Shortage (Chain.createOwned v next) h fun l h' => F l = none ∧
      Reports P (n + 1) (l ::ₘ O) (Function.update F l (some ⟨.linkedList, [], [v, next]⟩)) h' := by
  have shortage : Ends _ (liftM (HeapM.allocate .linkedList 0 2) : Action Address) h _ :=
    g.allocate_ends
  refine (shortage.orRelease fun e h' ⟨short, same⟩ => ?_).bind fun l h₁ ⟨fresh, g₁⟩ => ?_
  · subst same
    obtain ⟨h', run, -⟩ := g.owns.exact.free
    exact ⟨(), h', run, short⟩
  rw [Multiset.cons_swap] at g₁
  refine (g₁.fillOwned (Function.update_self ..) rfl).heap.before fun _ h₂ g₂ => ?_
  rw [Function.update_idem] at g₂
  have filled := Function.update_self l (some (⟨.linkedList, [], [v, .nil]⟩ : Body)) F
  refine (g₂.put filled rfl (here.imp_right fun known => ?_) .nil).heap.before fun _ h₃ g₃ =>
    .pure ⟨fresh, ?_⟩
  · rw [Function.update_apply]
    split_ifs
    · simp
    · exact known
  · rwa [Function.update_idem] at g₃

/-- The end of taking a value out of a container: the first link, empty by now, is dropped. -/
theorem dropFirst_reports (g : Reports P n (next ::ₘ v ::ₘ l ::ₘ O) F h)
    (hq : F q = some ⟨t, [w], .nil :: cs⟩)
    (hl : F l = some ⟨.linkedList, [], [.nil, .nil]⟩) (ne : l ≠ q) (lone : F.Lone P O l)
    (other : l ≠ v ∧ l ≠ next) :
    Gives (do
      HeapM.setChildOwned q t 0 next
      HeapM.free l
      HeapM.setField q t 0 (Stack.decrement (← Query.field q t 0))
      return v : Action Address) h fun r h' => r = v ∧ Reports P n (v ::ₘ O)
      (Function.update (Function.update F l none) q
      (some ⟨t, [Stack.decrement w], next :: cs⟩)) h' := by
  refine (g.putOwned hq rfl .nil).heap.bind fun _ h₁ g₁ => ?_
  rw [Multiset.cons_swap] at g₁
  have lone₁ : Facts.Lone (Function.update F q (some ⟨t, [w], next :: cs⟩)) P (v ::ₘ O) l := by
    refine ⟨by simp [other.1, lone.owned], lone.pinned, fun d D hd mem => ?_⟩
    rw [Function.update_apply] at hd
    split_ifs at hd
    · cases hd
      exact lone.slots q _ hq (List.mem_cons_of_mem _ ((List.mem_cons.1 mem).resolve_left other.2))
    · exact lone.slots d D hd mem
  refine (g₁.release (known_update hl ne) lone₁ (by simp)).heap.bind fun _ h₂ g₂ => ?_
  have hq₂ := known_update (a := l) (o := none)
    (Function.update_self q (some (⟨t, [w], next :: cs⟩ : Body)) F) ne.symm
  refine .read (g₂.sound.field_there (D := ⟨t, [w], next :: cs⟩) (i := 0) (g₂.known hq₂) rfl) ?_
  refine (g₂.setField_gives hq₂ Nat.zero_lt_one).heap.bind fun _ h₃ g₃ => .pure ⟨rfl, g₃.owns, ?_⟩
  refine g₃.body.trans (funext fun b => ?_)
  simp only [Function.update_apply]
  split_ifs <;> rfl

/-! ## Stacks -/

namespace Stack

/-- A reference to a value moves onto a stack. -/
theorem pushOwned_reports (g : Reports P (n + 1) (v ::ₘ O) F h) (hq : F q = some ⟨t, [w], [top]⟩) :
    Ends Fault.Shortage (pushOwned q v) h fun _ h' => ∃ l, F l = none ∧ Reports P (n + 1) O
      (Function.update (Function.update F l (some ⟨.linkedList, [], [v, top]⟩)) q
      (some ⟨t, [w + 1], [l]⟩)) h' := by
  refine .read (g.sound.tag_there (g.known hq))
    (.read (g.sound.child_there (i := 0) (g.known hq) rfl) ?_)
  have first := g.closed q _ top hq (by simp)
  refine (Chain.createOwned_reports g first).bind fun l h₁ ⟨fresh, g₁⟩ => ?_
  have ne : q ≠ l := by
    rintro rfl
    cases fresh.symm.trans hq
  have hq₁ := known_update (o := some ⟨.linkedList, [], [v, top]⟩) hq ne
  refine (g₁.putOwned hq₁ rfl
    (.inr (.inr ⟨l, ⟨.linkedList, [], [v, top]⟩, ?_, by simp⟩))).heap.before fun _ h₂ g₂ => ?_
  · rw [Function.update_of_ne ne.symm, Function.update_self]
  have hq₂ := Function.update_self q (some (⟨t, [w], [l]⟩ : Body))
    (Function.update F l (some ⟨.linkedList, [], [v, top]⟩))
  refine .read (g₂.sound.field_there (D := ⟨t, [w], [l]⟩) (i := 0) (g₂.known hq₂) rfl) ?_
  refine (g₂.setField_gives hq₂ Nat.zero_lt_one).heap.ends.mono fun _ h₃ g₃ => ⟨l, fresh, ?_⟩
  rwa [Function.update_idem] at g₃

/-- Nothing is taken off an empty stack. -/
theorem pop_none (g : Reports P (n + 1) O F h) (hq : F q = some ⟨t, [w], [.nil]⟩) :
    Gives (pop q) h fun r h' => r = .nil ∧ Reports P n O F h' := by
  refine .read (g.sound.tag_there (g.known hq)) ?_
  refine (g.takeChild hq rfl).heap.bind fun r h₁ ⟨e, g₁⟩ => ?_
  subst r
  refine .pure ⟨rfl, ?_⟩
  rw [Function.update_eq_self_iff.2 hq.symm] at g₁
  exact Reports.cons_nil.1 g₁

/-- The value of the top link moves to the client, and the link goes. -/
theorem pop_reports (g : Reports P (n + 3) O F h) (hq : F q = some ⟨t, [w], [l]⟩)
    (hl : F l = some ⟨.linkedList, [], [v, next]⟩) (ne : l ≠ q)
    (lone : Facts.Lone (Function.update F q none) P O l) :
    Gives (pop q) h fun r h' => r = v ∧ Reports P (n + 2) (v ::ₘ O)
      (Function.update (Function.update F l none) q (some ⟨t, [decrement w], [next]⟩)) h' := by
  have hn := g.ne_nil hl
  have other := lone.slots l _ (known_update hl ne)
  refine .read (g.sound.tag_there (g.known hq)) ?_
  refine (g.takeChild hq rfl).heap.bind fun r h₁ ⟨e, g₁⟩ => ?_
  subst r
  rw [if_neg (by simpa [Address.isNil_iff] using hn)]
  refine (g₁.takeChild (known_update hl ne) rfl).heap.bind fun r h₂ ⟨e, g₂⟩ => ?_
  subst r
  refine (g₂.takeChild (Function.update_self ..) rfl).heap.bind fun r h₃ ⟨e, g₃⟩ => ?_
  subst r
  rw [Function.update_idem] at g₃
  have hq₃ := known_update (o := some ⟨.linkedList, [], [.nil, .nil]⟩) (Function.update_self q
    (some (⟨t, [w], [.nil]⟩ : Body)) F) ne.symm
  have lone₃ : Facts.Lone (Function.update (Function.update F q (some ⟨t, [w], [.nil]⟩)) l
      (some ⟨.linkedList, [], [.nil, .nil]⟩)) P O l := by
    refine Facts.Lone.write ?_ (by simp [hn])
    simpa using lone.write (b := q) (D := ⟨t, [w], [.nil]⟩) (by simp [hn])
  refine (dropFirst_reports g₃ hq₃ (Function.update_self ..) ne lone₃ (by simpa using other)).mono
    fun r h₄ ⟨e, g₄⟩ => ⟨e, g₄.owns.tighten g.owns.spare.cons, g₄.body.trans (funext fun b => ?_)⟩
  simp only [Function.update_apply]
  split_ifs <;> rfl

end Stack

/-! ## Queues -/

namespace Queue

/-- A link comes to be the last one of a queue. -/
theorem closeBack_reports (g : Reports P n (l ::ₘ O) F h)
    (hq : F q = some ⟨.queue, [w], [front, back]⟩)
    (still : back = .nil ∨ back = front ∨ ∃ d D, d ≠ q ∧ F d = some D ∧ back ∈ D.children) :
    Gives (closeBack q l) h fun _ h' =>
      Reports P n O (Function.update F q (some ⟨.queue, [w + 1], [front, l]⟩)) h' := by
  have here := Function.update_self q (some (⟨.queue, [w], [front, l]⟩ : Body)) F
  refine (g.putOwned hq rfl ?_).heap.bind fun _ h₁ g₁ => ?_
  · rcases still with rfl | rfl | ⟨d, D, ne, hd, mem⟩
    · exact .nil
    · exact .inr (.inr ⟨q, _, here, by simp⟩)
    · exact .inr (.inr ⟨d, D, known_update hd ne, mem⟩)
  refine .read (g₁.sound.field_there (D := ⟨.queue, [w], [front, l]⟩) (i := 0) (g₁.known here) rfl)
    ?_
  refine (g₁.setField_gives here Nat.zero_lt_one).heap.mono fun _ h₂ g₂ => ?_
  rwa [Function.update_idem] at g₂

/-- A reference to a value moves to the back of an empty queue. -/
theorem enqueueOwned_first (g : Reports P (n + 1) (v ::ₘ O) F h)
    (hq : F q = some ⟨.queue, [w], [.nil, .nil]⟩) :
    Ends Fault.Shortage (enqueueOwned q v) h fun _ h' => ∃ l, F l = none ∧ Reports P (n + 1) O
      (Function.update (Function.update F l (some ⟨.linkedList, [], [v, .nil]⟩)) q
      (some ⟨.queue, [w + 1], [l, l]⟩)) h' := by
  have apart : ∀ {l}, F l = none → q ≠ l := fun fresh e => by cases fresh.symm.trans (e ▸ hq)
  refine enqueueOwned_ends
    (M := fun l b h₁ => b = .nil ∧ F l = none ∧ Reports P (n + 1) (l ::ₘ O)
      (Function.update F l (some ⟨.linkedList, [], [v, .nil]⟩)) h₁)
    (N := fun l h₁ => F l = none ∧ Reports P (n + 1) (l ::ₘ O) (Function.update (Function.update F l
      (some ⟨.linkedList, [], [v, .nil]⟩)) q (some ⟨.queue, [w], [l, .nil]⟩)) h₁)
    ?made ?first ?behind ?closed
  case made =>
    refine (Chain.createOwned_reports g (.inl rfl)).mono fun l h₁ ⟨fresh, g₁⟩ => ?_
    have hq₁ := known_update (o := some ⟨.linkedList, [], [v, .nil]⟩) hq (apart fresh)
    exact (Gives.query (g₁.sound.child_there (g₁.known hq₁) rfl) ⟨rfl, fresh, g₁⟩).ends
  case first =>
    rintro l h₁ ⟨-, fresh, g₁⟩
    have hl := Function.update_self l (some (⟨.linkedList, [], [v, .nil]⟩ : Body)) F
    have hq₁ := known_update (o := some ⟨.linkedList, [], [v, .nil]⟩) hq (apart fresh)
    exact ((g₁.put hq₁ rfl (.inr (by simp)) .nil).heap.mono fun _ h₂ g₂ => ⟨fresh, g₂⟩).ends
  case behind => exact fun other there => absurd there.1 other
  case closed =>
    rintro l h₂ ⟨fresh, g₂⟩
    refine (closeBack_reports g₂ (Function.update_self ..) (.inl rfl)).ends.mono fun _ h₃ g₃ => ?_
    rw [Function.update_idem] at g₃
    exact ⟨l, fresh, g₃⟩

/-- A reference to a value moves to the back of a queue, behind the last link. -/
theorem enqueueOwned_reports (g : Reports P (n + 1) (v ::ₘ O) F h)
    (hq : F q = some ⟨.queue, [w], [front, back]⟩)
    (hb : F back = some ⟨.linkedList, [], [u, .nil]⟩) (ne : back ≠ q)
    (still : back = front ∨ ∃ d D, d ≠ q ∧ d ≠ back ∧ F d = some D ∧ back ∈ D.children) :
    Ends Fault.Shortage (enqueueOwned q v) h fun _ h' => ∃ l, F l = none ∧ Reports P (n + 1) O
      (Function.update (Function.update
      (Function.update F l (some ⟨.linkedList, [], [v, .nil]⟩)) back
        (some ⟨.linkedList, [], [u, l]⟩)) q (some ⟨.queue, [w + 1], [front, l]⟩)) h' := by
  have apart : ∀ {l a D}, F l = none → F a = some D → a ≠ l := fun fresh ha e => by
    cases fresh.symm.trans (e ▸ ha)
  refine enqueueOwned_ends
    (M := fun l b h₁ => b = back ∧ F l = none ∧ Reports P (n + 1) (l ::ₘ O)
      (Function.update F l (some ⟨.linkedList, [], [v, .nil]⟩)) h₁)
    (N := fun l h₁ => F l = none ∧ Reports P (n + 1) (l ::ₘ O) (Function.update (Function.update F l
      (some ⟨.linkedList, [], [v, .nil]⟩)) back (some ⟨.linkedList, [], [u, l]⟩)) h₁)
    ?made ?first ?behind ?closed
  case made =>
    refine (Chain.createOwned_reports g (.inl rfl)).mono fun l h₁ ⟨fresh, g₁⟩ => ?_
    have hq₁ := known_update (o := some ⟨.linkedList, [], [v, .nil]⟩) hq (apart fresh hq)
    exact (Gives.query (g₁.sound.child_there (g₁.known hq₁) rfl) ⟨rfl, fresh, g₁⟩).ends
  case first => exact fun there => absurd there.1.symm (g.ne_nil hb)
  case behind =>
    rintro l b h₁ _ ⟨rfl, fresh, g₁⟩
    have hb₁ := known_update (o := some ⟨.linkedList, [], [v, .nil]⟩) hb (apart fresh hb)
    exact ((g₁.put hb₁ rfl (.inr (by simp)) .nil).heap.mono fun _ h₂ g₂ => ⟨fresh, g₂⟩).ends
  case closed =>
    rintro l h₂ ⟨fresh, g₂⟩
    have known : ∀ {a D}, F a = some D → a ≠ back → Function.update (Function.update F l
        (some ⟨.linkedList, [], [v, .nil]⟩)) back (some ⟨.linkedList, [], [u, l]⟩) a = some D :=
      fun ha other => known_update (known_update ha (apart fresh ha)) other
    refine (closeBack_reports g₂ (known hq ne.symm) (.inr ?_)).ends.mono fun _ h₃ g₃ =>
      ⟨l, fresh, g₃⟩
    exact still.imp_right fun ⟨d, D, hdq, hdb, hd, mem⟩ => ⟨d, D, hdq, known hd hdb, mem⟩

/-- Nothing is taken out of an empty queue. -/
theorem dequeue_none (g : Reports P (n + 1) O F h) (hq : F q = some ⟨.queue, [w], [.nil, back]⟩) :
    Gives (dequeue q) h fun r h' => r = .nil ∧ Reports P n O F h' := by
  refine (dequeue_ends (A := fun r h₁ => r = .nil ∧ Reports P n O F h₁)
    (B := fun _ _ _ _ => False) (C := fun _ _ _ _ => False) ?taken (fun there => there)
    (fun ne_nil there => absurd there.1 ne_nil) (fun never => never.elim) (fun _ never => never)
    (fun never => never.elim)).gives
  refine ((g.takeChild hq rfl).heap.mono fun r h₁ ⟨e, g₁⟩ => ⟨e, ?_⟩).ends
  rw [Function.update_eq_self_iff.2 hq.symm] at g₁
  exact Reports.cons_nil.1 g₁

/-- The value of the front link moves to the client, and the link goes. Behind the last link there
is none. -/
theorem dequeue_reports (g : Reports P (n + 4) O F h) (hq : F q = some ⟨.queue, [w], [l, back]⟩)
    (hl : F l = some ⟨.linkedList, [], [v, next]⟩) (ne : l ≠ q)
    (lone : Facts.Lone (Function.update F q none) P O l)
    (last : if next = .nil then back = l else back ≠ l) :
    Gives (dequeue q) h fun r h' => r = v ∧
    Reports P (n + 3) (v ::ₘ O) (Function.update (Function.update F l none) q
      (some ⟨.queue, [Stack.decrement w], [next, if next = .nil then .nil else back]⟩)) h' := by
  have hn := g.ne_nil hl
  have other := lone.slots l _ (known_update hl ne)
  -- what is known when the front link was emptied and the last one is `b`
  let emptied (b : Address) : Facts := Function.update (Function.update F q
    (some ⟨.queue, [w], [.nil, b]⟩)) l (some ⟨.linkedList, [], [.nil, .nil]⟩)
  have queue (b : Address) : emptied b q = some ⟨.queue, [w], [.nil, b]⟩ :=
    known_update (Function.update_self ..) ne.symm
  have still : (if next = .nil then .nil else back) ≠ l := by
    split_ifs with none
    · exact hn.symm
    · simpa [none] using last
  have lone' : Facts.Lone (emptied (if next = .nil then .nil else back)) P O l := by
    refine Facts.Lone.write ?_ (by simp [hn])
    simpa using lone.write (b := q) (D := ⟨.queue, [w], [.nil, _]⟩) (by simp [hn, still.symm])
  refine (dequeue_ends (E := fun _ _ => False)
    (A := fun r h₁ => r = l ∧ Reports P (n + 3) (l ::ₘ O)
      (Function.update F q (some ⟨.queue, [w], [.nil, back]⟩)) h₁)
    (B := fun r v' b h₁ => r = l ∧ v' = v ∧ b = next ∧
      Reports P (n + 1) (next ::ₘ v ::ₘ l ::ₘ O) (emptied back) h₁)
    (C := fun r v' b h₁ => r = l ∧ v' = v ∧ b = next ∧ Reports P (n + 1) (next ::ₘ v ::ₘ l ::ₘ O)
      (emptied (if next = .nil then .nil else back)) h₁)
    ?taken ?empty ?opened ?last ?more ?dropped).gives
  case taken => exact (g.takeChild hq rfl).heap.ends
  case empty => exact fun there => absurd there.1.symm hn
  case opened =>
    rintro r h₁ _ ⟨rfl, g₁⟩
    refine (g₁.takeChild (known_update hl ne) rfl).heap.ends.mono fun v' h₂ ⟨e, g₂⟩ => ?_
    subst v'
    refine (g₂.takeChild (Function.update_self ..) rfl).heap.ends.mono fun b h₃ ⟨e, g₃⟩ => ?_
    rw [Function.update_idem] at g₃
    exact ⟨rfl, rfl, e, g₃⟩
  case last =>
    rintro r v' h₁ ⟨rfl, rfl, e, g₃⟩
    obtain rfl : back = r := by simpa [← e] using last
    refine (g₃.put (queue back) rfl (.inl rfl) (.inr (.inl (by simp)))).heap.ends.mono
      fun _ h₄ g₄ => ⟨rfl, rfl, e, ?_⟩
    have same : Function.update (emptied back) q (some ⟨.queue, [w], [.nil, .nil]⟩) =
        emptied .nil := by
      simp only [emptied]
      rw [Function.update_comm ne, Function.update_idem]
    rw [if_pos e.symm, ← same]
    exact g₄
  case more =>
    rintro r v' b h₁ ne_nil ⟨rfl, rfl, rfl, g₃⟩
    exact ⟨rfl, rfl, rfl, by rwa [if_neg ne_nil]⟩
  case dropped =>
    rintro r v' b h₁ ⟨rfl, rfl, rfl, g₄⟩
    refine (dropFirst_reports g₄ (queue _) (Function.update_self ..) ne lone'
      (by simpa using other)).ends.mono fun x h₅ ⟨e, g₅⟩ =>
      ⟨e, g₅.owns.tighten g.owns.spare.cons, g₅.body.trans (funext fun a => ?_)⟩
    simp only [emptied, Function.update_apply]
    split_ifs <;> rfl

end Queue
end GoMachine
