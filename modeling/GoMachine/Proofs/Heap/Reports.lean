import GoMachine.Proofs.Heap.Cascade
import GoMachine.Proofs.Tasks.Retains
/-!
# What all records say

`Reports P n O F h` is about a client that owns `O`, pins `P`, and knows what every record of the
heap says: `F` is what they say. A new record, and a change of a slot, is a `Function.update` of it.
Where a reference is dropped to something that is `Backed` by another one, nothing goes away.

* `Reports.allocate`, `Reports.setField`, `Reports.setChild`, `Reports.setChildOwned`: the
  primitives.
* `Reports.free`: a reference that is not the last one.
-/
namespace GoMachine
namespace Heap

/-- There is another reference to it, or it is nil. -/
def Backed (O : Multiset Address) (F : Facts) (a : Address) : Prop :=
  a = .nil ∨ a ∈ O ∨ ∃ d D, F d = some D ∧ a ∈ D.children

/-- The client owns `O`, with room for `n` more references to each record, and `F` is what the
records say. -/
structure Reports (P : Multiset Address) (n : Nat) (O : Multiset Address) (F : Facts) (h : Heap) :
    Prop where
  owns : Owns P n O h
  body : h.body? = F

variable {P O : Multiset Address} {n m : Nat} {F F' : Facts} {h h' : Heap} {a b d : Address}
    {B : Body} {t : Tag}
  {i : Nat} {w : UInt64} {fs : List UInt64} {cs : List Address}

theorem Shrinks.body?_sub (k : Shrinks h h') : Facts.Sub h'.body? h.body? := by
  intro a B hB
  obtain ⟨c', hc', rfl⟩ := body?_eq_some.1 hB
  obtain ⟨c, hc, e⟩ := k a c' hc'
  exact body?_eq_some.2 ⟨c, hc, by rw [e]; rfl⟩

/-- Nothing goes away with a reference to what is backed. -/
theorem Exact.free_backed (x : Exact P (a ::ₘ O) h) (backed : Backed O h.body? a) :
    Gives (HeapM.free a) h fun _ h' => Exact P O h' ∧ h'.body? = h.body? := by
  have x₁ := x
  rw [← Multiset.singleton_add] at x₁
  obtain ⟨h', run, x', shrinks, -, inside⟩ := x₁.drained (drainer_drain [a] h)
  have falls : Records.Falls h.cell? {a} ∅ := by
    refine ⟨fun b hb => absurd hb (Finset.notMem_empty b), fun b c hc unpinned total => ?_⟩
    rw [Records.refs, Finset.sum_empty, Nat.add_zero] at total
    exfalso
    by_cases e : b = a
    · subst e
      have counted := x.count hc
      rw [Multiset.count_add, Multiset.count_cons_self, total,
        Multiset.count_singleton_self] at counted
      rcases backed with e | owned | ⟨d, D, hd, hb⟩
      · exact x.sound.ne_nil (cell?_eq_some.1 hc).1 e
      · have := Multiset.count_pos.2 owned
        omega
      · obtain ⟨c', hc', rfl⟩ := body?_eq_some.1 hd
        have := Multiset.count_pos.2 (mem_edges.2 ⟨d, c', hc', hb⟩)
        omega
    · rw [Multiset.count_singleton, if_neg e] at total
      exact x.idle hc (UInt64.toNat_inj.1 total) unpinned
  refine ⟨(), h', run, x', funext fun b => ?_⟩
  cases hb : h.body? b with
  | none =>
    by_contra known
    obtain ⟨B, hB⟩ := Option.ne_none_iff_exists'.1 known
    rw [shrinks.body?_sub hB] at hb
    cases hb
  | some B =>
    obtain ⟨c, hc, -⟩ := body?_eq_some.1 hb
    refine shrinks.body? ?_ hb
    by_contra gone
    have := inside _ falls
      (Finset.mem_sdiff.2 ⟨mem_records.2 (cell?_eq_some.1 hc).1, fun k => gone (mem_records.1 k)⟩)
    cases this

namespace Reports

theorem sound (g : Reports P n O F h) : h.Sound := g.owns.exact.sound

theorem of (own : Owns P n O h) : Reports P n O h.body? h := ⟨own, rfl⟩

theorem closed (g : Reports P n O F h) : Closed F := g.body ▸ g.owns.exact.closed_body

theorem nil_none (g : Reports P n O F h) : F .nil = none := g.body ▸ g.sound.body?_nil

theorem ne_nil (g : Reports P n O F h) (ha : F a = some B) : a ≠ .nil := by
  rintro rfl
  rw [g.nil_none] at ha
  cases ha

theorem isLive (g : Reports P n O F h) : h.isLive a ↔ F a ≠ none := by
  rw [← g.body, body?, ne_eq, Option.map_eq_none_iff, ← isSome_cell?, Option.isSome_iff_ne_none]

/-- There is as much room as there was when the same was owned before. -/
theorem restore (g : Reports P n O F h) (g' : Reports P m O F' h') : Reports P n O F' h' :=
  ⟨g'.owns.tighten g.owns.spare, g'.body⟩

theorem swap (g : Reports P n (a ::ₘ b ::ₘ O) F h) : Reports P n (b ::ₘ a ::ₘ O) F h := by
  rwa [Multiset.cons_swap]

theorem cons_nil : Reports P n (.nil ::ₘ O) F h ↔ Reports P n O F h :=
  ⟨fun g => ⟨Owns.cons_nil.1 g.owns, g.body⟩, fun g => ⟨Owns.cons_nil.2 g.owns, g.body⟩⟩

/-! ### Reading -/

theorem child (g : Reports P n O F h) (ha : F a = some B) (run : Query.child a t i h = .ok b) :
    B.children[i]? = some b := (g.sound.child_of_body (g.body ▸ ha) run).2

theorem field (g : Reports P n O F h) (ha : F a = some B) (run : Query.field a t i h = .ok w) :
    B.fields[i]? = some w := (g.sound.field_of_body (g.body ▸ ha) run).2

/-! ### Writing -/

theorem allocate {fields children : Nat} (g : Reports P n O F h) :
    Yields (HeapM.allocate t fields children) h fun a h' => F a = none ∧ Reports P n (a ::ₘ O)
      (Function.update F a (some ⟨t, .replicate fields 0, .replicate children .nil⟩)) h' := by
  intro a h' run
  obtain ⟨dead, -, u⟩ := g.sound.allocated run
  refine ⟨?_, g.owns.allocate.yields a h' run, u.body?_eq.trans (g.body ▸ rfl)⟩
  rw [← g.body, body?, cell?_eq_none.2 dead, Option.map_none]

/-- A field of some record changes. -/
theorem writes (g : Reports P n O F h) : Yields (HeapM.setField a t i w) h fun _ h' =>
    ∃ D, F a = some D ∧ D.tag = t ∧
    Reports P n O (Function.update F a (some { D with fields := D.fields.set i w })) h' := by
  refine Yields.ask fun slot e => ?_
  obtain ⟨c, hc, rfl, hi, rfl⟩ := g.sound.fieldSlot_ok.1 e
  refine .modify ⟨c.body, ?_, rfl, ⟨g.owns.exact.put_field hc hi, g.owns.spare⟩, ?_⟩
  · rw [← g.body, body?_eq_some.2 ⟨c, hc, rfl⟩]
  · rw [(g.sound.put_field (w := w) hc hi).body?_eq, g.body]
    rfl

theorem setField (g : Reports P n O F h) (ha : F a = some ⟨t, fs, cs⟩) :
    Yields (HeapM.setField a t i w) h fun _ h' =>
      Reports P n O (Function.update F a (some ⟨t, fs.set i w, cs⟩)) h' := by
  refine g.writes.mono fun _ _ ⟨D, hD, _, g'⟩ => ?_
  obtain rfl := Option.some_inj.1 (hD.symm.trans ha)
  exact g'

theorem reference (g : Reports P (n + 1) O F h) :
    Yields (HeapM.reference a) h fun b h' => b = a ∧ Reports P n (a ::ₘ O) F h' := by
  suffices same : Yields (HeapM.reference a) h fun _ h' => h'.body? = F from
    (g.owns.reference.yields.and same).mono fun _ _ ⟨⟨e, own⟩, body⟩ => ⟨e, own, body⟩
  unfold HeapM.reference
  split
  · exact .pure g.body
  · next hn =>
    refine Yields.ask fun count counted => ?_
    rcases g.sound.refCount_ok.1 counted with ⟨rfl, -⟩ | ⟨c, hc, rfl⟩
    · exact absurd rfl hn
    refine (Yields.modify (Q := fun _ h' => h'.body? = F) ?_).bind fun _ _ body => .pure body
    rw [(g.sound.put_count hc (c.count + 1)).body?_eq, Option.map_some, Cell.body_count, ← g.body,
      Function.update_eq_self_iff, body?_eq_some.2 ⟨c, hc, rfl⟩]

theorem free (g : Reports P n (a ::ₘ O) F h) (backed : Backed O F a) :
    Gives (HeapM.free a) h fun _ h' => Reports P n O F h' :=
  (g.owns.exact.free_backed (g.body ▸ backed)).mono fun _ _ ⟨x, same⟩ =>
    ⟨⟨x, g.owns.spare.anti (Multiset.le_cons_self _ _)⟩, same.trans g.body⟩

/-- A reference is dropped, and records may go away with it. -/
theorem drops (g : Reports P n (a ::ₘ O) F h) :
    Gives (HeapM.free a) h fun _ h' => Owns P n O h' ∧ Facts.Sub h'.body? F := by
  obtain ⟨h', run, x, shrinks, -⟩ := g.owns.exact.free
  exact ⟨(), h', run, ⟨x, g.owns.spare.anti (Multiset.le_cons_self _ _)⟩,
    g.body ▸ shrinks.body?_sub⟩

/-- A reference moves into a slot. The one that stood there is dropped, and nothing goes away with
it if that is backed. -/
theorem replaces (g : Reports P n (b ::ₘ O) F h) :
    Yields (HeapM.setChildOwned a t i b) h fun _ h' =>
    ∃ D d, F a = some D ∧ D.tag = t ∧ D.children[i]? = some d ∧ Owns P n O h' ∧
      Facts.Sub h'.body? (Function.update F a (some { D with children := D.children.set i b })) ∧
      (Backed O (Function.update F a (some { D with children := D.children.set i b })) d →
        h'.body? = Function.update F a (some { D with children := D.children.set i b })) := by
  refine Yields.ask fun slot e => ?_
  obtain ⟨c, hc, rfl, rfl, old⟩ := g.sound.childSlot_word e
  have ha : F a = some c.body := by rw [← g.body, body?_eq_some.2 ⟨c, hc, rfl⟩]
  obtain ⟨-, -, x, u⟩ := Holds.put_child g.owns.exact hc old
  have body := u.body?_eq
  rw [g.body, Option.map_some] at body
  refine (Yields.modifyGet (Q := fun d h₁ => c.children[i]? = some d ∧ Exact P (d ::ₘ O) h₁ ∧
    h₁.body? = Function.update F a (some { c.body with children := c.children.set i b }))
    ⟨old, x, body⟩).bind fun d h₁ ⟨old, x, body⟩ => ?_
  have spare := g.owns.spare.anti (Multiset.le_cons_self O b)
  obtain ⟨h', run, x', shrinks, -⟩ := x.free
  have sub := shrinks.body?_sub
  rw [body] at sub
  intro _ h'' run'
  obtain rfl : h'' = h' := by
    rw [run] at run'
    cases run'
    rfl
  refine ⟨c.body, d, ha, rfl, old, ⟨x', spare⟩, sub, fun backed => ?_⟩
  exact ((x.free_backed (body.symm ▸ backed)).yields _ _ run').2.trans body

theorem setChildOwned (g : Reports P n (b ::ₘ O) F h) (ha : F a = some ⟨t, fs, cs⟩)
    (backed : ∀ d, cs[i]? = some d → Backed O (Function.update F a (some ⟨t, fs, cs.set i b⟩)) d) :
    Yields (HeapM.setChildOwned a t i b) h fun _ h' =>
      Reports P n O (Function.update F a (some ⟨t, fs, cs.set i b⟩)) h' := by
  refine g.replaces.mono fun _ _ ⟨D, d, hD, _, old, own, _, same⟩ => ⟨own, ?_⟩
  obtain rfl := Option.some_inj.1 (hD.symm.trans ha)
  exact same (backed d old)

/-- A new reference is stored in a slot, in place of one to something that is backed. -/
theorem setChild (g : Reports P (n + 1) O F h) (ha : F a = some ⟨t, fs, cs⟩)
    (backed : ∀ d, cs[i]? = some d → Backed O (Function.update F a (some ⟨t, fs, cs.set i b⟩)) d) :
    Yields (HeapM.setChild a t i b) h fun _ h' =>
      Reports P (n + 1) O (Function.update F a (some ⟨t, fs, cs.set i b⟩)) h' :=
  g.reference.bind fun _ _ ⟨_, g₁⟩ => (g₁.setChildOwned ha backed).mono fun _ _ g₂ => g.restore g₂

end Reports

theorem Backed.nil : Backed O F .nil := .inl rfl

end Heap
end GoMachine
