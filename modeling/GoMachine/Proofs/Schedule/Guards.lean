import GoMachine.Proofs.Heap.Facts
import GoMachine.Proofs.Owns.Threads
import GoMachine.Proofs.Schedule.Nodes
/-!
# Records that stay

While a case of a `select` is tried, the node of the `select` keeps its cases, and these keep their
bodies: no operation of a channel writes such nodes. Nor does it write threads and environments.
`Guarded G B O h` says so: `G` tells what they say, `B` are the references that stay, and `O` those
that come and go on the way. What they refer to stays with them (`Guarded.live`). `Guards G B n O h`
leaves room for `n` more references as well.
-/
namespace GoMachine

namespace Heap

/-- The machine owns `B` and, for now, `O`, and some steady records say what `G` tells. -/
structure Guarded (G : Facts) (B O : Multiset Address) (h : Heap) : Prop where
  exact : Exact 0 (O + B) h
  body : ∀ {a D}, G a = some D → h.body? a = some D
  steady : ∀ {a D}, G a = some D → D.tag.isSteady
  held : Held G B

/-- There is room for `n` more references to each record. -/
structure Guards (G : Facts) (B : Multiset Address) (n : Nat) (O : Multiset Address) (h : Heap) :
    Prop
    extends Guarded G B O h where
  spare : Spare n (O + B)

/-- What stays: it is owned, or a steady record refers to it. -/
def Secure (G : Facts) (B : Multiset Address) (a : Address) : Prop :=
  a = .nil ∨ a ∈ B ∨ ∃ d D, G d = some D ∧ a ∈ D.children

variable {G : Facts} {B O P : Multiset Address} {n m : Nat} {h h' : Heap} {a b d : Address}
    {t : Tag}
  {i : Nat} {w : UInt64} {c c' : Cell}

theorem Owns.live {P : Multiset Address} (own : Owns P n O h) (ha : a = .nil ∨ a ∈ O) :
    a = .nil ∨ h.isLive a :=
  ha.elim .inl fun ha => own.exact.closed (by simp [ha])

theorem Secure.cons (sec : Secure G B a) : Secure G (b ::ₘ B) a :=
  sec.imp_right (.imp_left Multiset.mem_cons_of_mem)

theorem secure_none : Secure (fun _ => none) B a ↔ a = .nil ∨ a ∈ B := by
  simp [Secure]

namespace Guarded

theorem swap (g : Guarded G B (a ::ₘ b ::ₘ O) h) : Guarded G B (b ::ₘ a ::ₘ O) h := by
  rwa [Multiset.cons_swap]

theorem cons_nil : Guarded G B (.nil ::ₘ O) h ↔ Guarded G B O h := by
  have same : ∀ a, a ≠ .nil → (.nil ::ₘ O + B).count a = (O + B).count a := fun a ha => by
    rw [Multiset.cons_add, Multiset.count_cons_of_ne ha]
  exact ⟨fun g => ⟨g.exact.congr fun a ha => (same a ha).symm, g.body, g.steady, g.held⟩,
    fun g => ⟨g.exact.congr same, g.body, g.steady, g.held⟩⟩

/-- What is owned for now may stay as well. -/
theorem stay (g : Guarded G B (a ::ₘ O) h) : Guarded G (a ::ₘ B) O h := by
  have exact : Exact 0 (O + a ::ₘ B) h := by
    rw [Multiset.add_cons, ← Multiset.cons_add]
    exact g.exact
  exact ⟨exact, g.body, g.steady, g.held.anti (Multiset.le_cons_self B a)⟩

/-- What stays is there. -/
theorem live (g : Guarded G B O h) (sec : Secure G B a) : a = .nil ∨ h.isLive a := by
  rcases sec with rfl | ha | ⟨d, D, hd, ha⟩
  · exact .inl rfl
  · exact g.exact.closed (by simp [ha])
  · obtain ⟨e, he, rfl⟩ := body?_eq_some.1 (g.body hd)
    exact g.exact.closed (by simp [mem_edges.2 ⟨d, e, he, ha⟩])

/-- No record with another tag is steady. -/
theorem other (g : Guarded G B O h) (ht : t.isSteady = false) {D : Body} (hD : G a = some D) :
    D.tag ≠ t := by
  rintro rfl
  rw [g.steady hD] at ht
  cases ht

/-- What a steady record that stays refers to stays as well. -/
theorem learn (g : Guarded G B O h) (sec : Secure G B a) (hc : h.cell? a = some c)
    (ht : c.tag.isSteady) : ∃ G', Guarded G' B O h ∧ (∀ b ∈ c.children, Secure G' B b) ∧
      ∀ {b}, Secure G B b → Secure G' B b := by
  have hn : a ≠ .nil := g.exact.sound.ne_nil (cell?_eq_some.1 hc).1
  have said : h.body? a = some c.body := by rw [body?, hc, Option.map_some]
  have known : ∀ {b D}, Function.update G a (some c.body) b = some D →
      b = a ∧ D = c.body ∨ G b = some D := by
    intro b D hb
    by_cases hne : b = a
    · rw [hne, Function.update_self, Option.some_inj] at hb
      exact .inl ⟨hne, hb.symm⟩
    · exact .inr (by rwa [Function.update_of_ne hne] at hb)
  have more : ∀ {b D}, G b = some D → Function.update G a (some c.body) b = some D := by
    intro b D hb
    by_cases hne : b = a
    · rw [hne] at hb ⊢
      rw [Function.update_self, ← said, g.body hb]
    · rwa [Function.update_of_ne hne]
  have stays : ∀ {b}, Secure G B b → Secure (Function.update G a (some c.body)) B b := fun sec =>
    sec.imp_right (.imp_right fun held => held.imp fun d held => held.imp fun D held =>
    held.imp_left more)
  refine ⟨Function.update G a (some c.body), ⟨g.exact, fun {b D} hb => ?_, fun {b D} hb => ?_,
    fun b D hb => ?_⟩, fun b hb => .inr (.inr ⟨a, c.body, Function.update_self .., hb⟩), stays⟩
  · rcases known hb with ⟨rfl, rfl⟩ | hb
    · exact said
    · exact g.body hb
  · rcases known hb with ⟨rfl, rfl⟩ | hb
    · exact ht
    · exact g.steady hb
  · rcases known hb with ⟨rfl, rfl⟩ | hb
    · exact (stays sec).resolve_left hn
    · exact (g.held b D hb).imp_right fun held => held.imp fun d held => held.imp fun E held =>
        held.imp_left more

theorem learn_child (g : Guarded G B O h) (sec : Secure G B a) (ht : t.isSteady)
    (run : Query.child a t i h = .ok b) : ∃ G', Guarded G' B O h ∧ Secure G' B b ∧
      ∀ {d}, Secure G B d → Secure G' B d := by
  obtain ⟨c, hc, rfl, hi⟩ := g.exact.sound.child_ok.1 (ofHeap_ok.1 run)
  obtain ⟨G', g', inner, stays⟩ := g.learn sec hc ht
  exact ⟨G', g', inner b (List.mem_of_getElem? hi), stays⟩

/-- A record changes that is not known. -/
theorem body_of_other {o : Option Cell} (g : Guarded G B O h) (u : Becomes h a o h')
    (unknown : ∀ {c}, h.cell? a = some c → G a ≠ some c.body) {D : Body} (hb : G b = some D) :
    h'.body? b = some D := by
  rw [u.body?_of_ne, g.body hb]
  rintro rfl
  obtain ⟨c, hc, rfl⟩ := body?_eq_some.1 (g.body hb)
  exact unknown hc hb

theorem setField (g : Guarded G B O h) (other : ∀ {D}, G a = some D → D.tag ≠ t) :
    Yields (HeapM.setField a t i w) h fun _ h' => Guarded G B O h' := by
  refine Yields.ask fun slot e => ?_
  obtain ⟨c, hc, rfl, hi, rfl⟩ := g.exact.sound.fieldSlot_ok.1 e
  refine .modify ⟨g.exact.put_field hc hi, g.body_of_other (g.exact.sound.put_field hc hi)
    fun hc' hG => other hG ?_, g.steady, g.held⟩
  rw [hc, Option.some_inj] at hc'
  rw [← hc', Cell.body]

theorem free (g : Guarded G B (a ::ₘ O) h) :
    Yields (HeapM.free a) h fun _ h' => Guarded G B O h' := by
  obtain ⟨h', run, x, still⟩ := (Multiset.cons_add a O B ▸ g.exact).free_known g.body
    (g.held.anti (Multiset.le_add_left B O))
  intro _ h'' run'
  rw [run] at run'
  cases run'
  exact ⟨x, still, g.steady, g.held⟩

theorem put_child (g : Guarded G B (b ::ₘ O) h) (hc : h.cell? a = some c)
    (old : c.children[i]? = some d) (other : ∀ {D}, G a = some D → D.tag ≠ c.tag) :
    Guarded G B (d ::ₘ O) (h.setWord (a.index + 2 + c.fields.length + i) b.toWord) := by
  obtain ⟨-, -, x, u⟩ := Holds.put_child (Multiset.cons_add b O B ▸ g.exact) hc old
  refine ⟨(Multiset.cons_add d O B).symm ▸ x, g.body_of_other u fun hc' hG => other hG ?_, g.steady,
    g.held⟩
  rw [hc, Option.some_inj] at hc'
  rw [← hc', Cell.body]

theorem setChildOwned (g : Guarded G B (b ::ₘ O) h) (other : ∀ {D}, G a = some D → D.tag ≠ t) :
    Yields (HeapM.setChildOwned a t i b) h fun _ h' => Guarded G B O h' := by
  refine Yields.ask fun slot e => ?_
  obtain ⟨c, hc, rfl, rfl, old⟩ := g.exact.sound.childSlot_word e
  exact (Yields.modifyGet (Q := fun old h' => Guarded G B (old ::ₘ O) h')
    (g.put_child hc old other)).bind fun old h₁ g => g.free

theorem takeChild (g : Guarded G B O h) (other : ∀ {D}, G a = some D → D.tag ≠ t) :
    Yields (HeapM.takeChild a t i) h fun b h' => Guarded G B (b ::ₘ O) h' := by
  refine Yields.ask fun slot e => ?_
  obtain ⟨c, hc, rfl, rfl, old⟩ := g.exact.sound.childSlot_word e
  exact Yields.modifyGet ((cons_nil.2 g).put_child hc old other)

end Guarded

namespace Guards

theorem owns (g : Guards G B n O h) : Owns 0 n (O + B) h := ⟨g.exact, g.spare⟩

theorem none_iff : Guards (fun _ => none) B n 0 h ↔ Owns 0 n B h :=
  ⟨fun g => zero_add B ▸ g.owns, fun own =>
    ⟨⟨(zero_add B).symm ▸ own.exact, nofun, nofun, nofun⟩, (zero_add B).symm ▸ own.spare⟩⟩

theorem tighten (g : Guards G B m O h) (sp : Spare n (O + B)) : Guards G B n O h :=
  ⟨g.toGuarded, g.owns.tighten sp |>.spare⟩

theorem weaken (g : Guards G B n O h) (le : m ≤ n) : Guards G B m O h :=
  ⟨g.toGuarded, (g.owns.weaken le).spare⟩

theorem swap (g : Guards G B n (a ::ₘ b ::ₘ O) h) : Guards G B n (b ::ₘ a ::ₘ O) h := by
  rwa [Multiset.cons_swap]

theorem stay (g : Guards G B n (a ::ₘ O) h) : Guards G (a ::ₘ B) n O h :=
  ⟨g.toGuarded.stay, by rw [Multiset.add_cons, ← Multiset.cons_add]; exact g.spare⟩

theorem unstay (g : Guards G (a ::ₘ B) n O h) (held : Held G B) : Guards G B n (a ::ₘ O) h := by
  have own : Owns 0 n (a ::ₘ O + B) h := by
    rw [Multiset.cons_add, ← Multiset.add_cons]
    exact g.owns
  exact ⟨⟨own.exact, g.body, g.steady, held⟩, own.spare⟩

theorem cons_nil : Guards G B n (.nil ::ₘ O) h ↔ Guards G B n O h := by
  refine ⟨fun g => ⟨Guarded.cons_nil.1 g.toGuarded, ?_⟩, fun g =>
    ⟨Guarded.cons_nil.2 g.toGuarded, ?_⟩⟩
  · exact (Owns.cons_nil.1 (Multiset.cons_add _ O B ▸ g.owns)).spare
  · exact (Multiset.cons_add _ O B).symm ▸ (Owns.cons_nil.2 g.owns).spare

theorem allocate {fields children : Nat} (g : Guards G B n O h) :
    Yields (HeapM.allocate t fields children) h fun a h' => Guards G B n (a ::ₘ O) h' ∧
    G a = none := by
  intro a h' run
  obtain ⟨dead, -, u⟩ := g.exact.sound.allocated run
  have unknown : G a = none := by
    by_contra known
    obtain ⟨D, hD⟩ := Option.ne_none_iff_exists'.1 known
    obtain ⟨c, hc, -⟩ := body?_eq_some.1 (g.body hD)
    rw [(cell?_eq_some.1 hc).1] at dead
    cases dead
  have own : Owns 0 n (a ::ₘ O + B) h' :=
    (Multiset.cons_add a O B).symm ▸ g.owns.allocate.yields a h' run
  exact ⟨⟨⟨own.exact, g.body_of_other u (by simp [unknown]), g.steady, g.held⟩, own.spare⟩, unknown⟩

theorem setField (g : Guards G B n O h) (other : ∀ {D}, G a = some D → D.tag ≠ t) :
    Yields (HeapM.setField a t i w) h fun _ h' => Guards G B n O h' :=
  (g.toGuarded.setField other).mono fun _ _ g' => ⟨g', g.spare⟩

theorem reference (g : Guards G B (n + 1) O h) :
    Yields (HeapM.reference a) h fun b h' => b = a ∧ Guards G B n (a ::ₘ O) h' := by
  suffices same : Yields (HeapM.reference a) h fun _ h' => ∀ {b D}, G b = some D →
    h'.body? b = some D by
    refine (g.owns.reference.yields.and same).mono fun _ h' ⟨⟨e, own⟩, body⟩ => ?_
    have own : Owns 0 n (a ::ₘ O + B) h' := (Multiset.cons_add a O B).symm ▸ own
    exact ⟨e, ⟨own.exact, body, g.steady, g.held⟩, own.spare⟩
  unfold HeapM.reference
  split
  · exact .pure g.body
  · next hn =>
    refine Yields.ask fun count counted => ?_
    rcases g.exact.sound.refCount_ok.1 counted with ⟨rfl, -⟩ | ⟨c, hc, rfl⟩
    · exact absurd rfl hn
    refine (Yields.modify (Q := fun _ h' => ∀ {b D}, G b = some D → h'.body? b = some D) ?_).bind
      fun _ _ body => .pure body
    intro b D hb
    have u := g.exact.sound.put_count hc (c.count + 1)
    by_cases hba : b = a
    · rw [hba] at hb ⊢
      have := g.body hb
      rw [body?, hc, Option.map_some, Option.some_inj] at this
      rw [u.body?_self, Option.map_some, Cell.body_count, this]
    · rw [u.body?_of_ne hba, g.body hb]

theorem free (g : Guards G B n (a ::ₘ O) h) :
    Yields (HeapM.free a) h fun _ h' => Guards G B n O h' :=
  g.toGuarded.free.mono fun _ _ g' => ⟨g', g.spare.anti (by simp [Multiset.le_cons_self])⟩

theorem setChildOwned (g : Guards G B n (b ::ₘ O) h) (other : ∀ {D}, G a = some D → D.tag ≠ t) :
    Yields (HeapM.setChildOwned a t i b) h fun _ h' => Guards G B n O h' :=
  (g.toGuarded.setChildOwned other).mono fun _ _ g' =>
  ⟨g', g.spare.anti (by simp [Multiset.le_cons_self])⟩

theorem takeChild (g : Guards G B (n + 1) O h) (other : ∀ {D}, G a = some D → D.tag ≠ t) :
    Yields (HeapM.takeChild a t i) h fun b h' => Guards G B n (b ::ₘ O) h' :=
  (g.toGuarded.takeChild other).mono fun b _ g' =>
  ⟨g', (Multiset.cons_add b O B).symm ▸ g.spare.cons⟩

instance : Account 0 (Guards G B) where
  owns g := ⟨B, add_comm B _ ▸ g.owns⟩
  cons_nil := cons_nil
  weaken := weaken
  restore g g' := g'.tighten g.spare
  references g := g.reference
  drops g := g.free

instance : Queueing 0 (Guards G B) where
  allocates g := g.allocate.mono fun _ _ made => made.1
  writes ht g := g.setField (g.other ht)
  replaces ht g := g.setChildOwned (g.other ht)
  takes ht g := g.takeChild (g.other ht)
  resume g g' := g'.tighten ((Multiset.cons_add _ _ B).symm ▸ g.spare.cons)

end Guards
end Heap

open Heap (Guarded Guards)

variable {G : Facts} {B O : Multiset Address} {n : Nat} {h : Heap} {a v s w : Address}

/-! ## Stacks -/

namespace Stack

theorem pushOwned_guards (g : Guards G B (n + 1) (v ::ₘ O) h)
    (other : ∀ t, Query.tag a h = .ok t → t.isSteady = false) :
    Yields (pushOwned a v) h fun _ h' => Guards G B (n + 1) O h' := by
  refine .read fun tag tagged => .read fun top _ => ?_
  refine (Chain.createOwned_owns g).yields.bind fun node h₁ g => ?_
  refine (g.setChildOwned (g.other (other tag tagged))).heap.bind fun _ h₂ g => ?_
  exact .read fun _ _ => (g.setField (g.other (other tag tagged))).heap

theorem push_guards (g : Guards G B (n + 2) O h)
    (other : ∀ t, Query.tag a h = .ok t → t.isSteady = false) :
    Yields (push a v) h fun _ h' => Guards G B (n + 2) O h' := by
  refine (g.reference.heap.and (reference_tag (a := a) g.exact.sound)).bind
    fun _ h₁ ⟨⟨_, g₁⟩, same⟩ => ?_
  exact (pushOwned_guards g₁ fun t run => other t (same t run)).mono fun _ h₂ g₂ =>
    g₂.tighten g.spare

theorem pop_guarded (g : Guarded G B O h) (other : ∀ t, Query.tag a h = .ok t →
    t.isSteady = false) :
    Yields (pop a) h fun v h' => Guarded G B (v ::ₘ O) h' := by
  refine .read fun tag tagged => ?_
  refine (g.takeChild (g.other (other tag tagged))).heap.bind fun top h₁ g => ?_
  split
  · next e =>
    rw [Address.isNil_iff.1 e] at g
    exact .pure g
  refine (g.takeChild (g.other rfl)).heap.bind fun value h₂ g => ?_
  refine (g.takeChild (g.other rfl)).heap.bind fun next h₃ g => ?_
  refine (g.setChildOwned (g.other (other tag tagged))).heap.bind fun _ h₄ g => ?_
  refine g.swap.free.heap.bind fun _ h₅ g => .read fun _ _ => ?_
  exact (g.setField (g.other (other tag tagged))).heap.bind fun _ _ g => .pure g

end Stack

end GoMachine
