import GoMachine.Proofs.Heap.Facts
import GoMachine.Proofs.Owns.Values
/-!
# What becomes of the records

`Retains G B n O h` is about a machine that owns `B` for a while and `O` for now, and knows of some
records what they say, by `G`: what is known stays, whatever is dropped of `O`. The primitives of
the heap, and what is made of them for chains and stacks, are described by what they do to all
records: `h.body?` tells what these say, and a change of a record is a `Function.update`. Where a
reference is dropped others may go away besides (`Facts.Sub`).
-/
namespace GoMachine

/-- All that is told by the first is told by the second. -/
def Facts.Sub (F F' : Facts) : Prop := ∀ ⦃a B⦄, F a = some B → F' a = some B

/-- The records of threads are as they were. -/
def Facts.SameThreads (F F' : Facts) : Prop := ∀ ⦃a B⦄, F a = some B → B.tag = .thread →
    F' a = some B

/-- Records have the slots that are read of any record with their tag. -/
def Facts.Shaped (F : Facts) : Prop := ∀ ⦃a B⦄, F a = some B → B.tag.slots ≤ B.children.length

/-- What a record refers to is there. -/
def Closed (F : Facts) : Prop := ∀ a B b, F a = some B → b ∈ B.children → b = .nil ∨ F b ≠ none

namespace Facts

variable {F F' G : Facts} {a : Address} {B : Body}

theorem Sub.refl : F.Sub F := fun _ _ h => h

theorem Sub.of_eq (e : F = F') : F.Sub F' := e ▸ .refl

theorem Sub.trans (h : F.Sub F') (h' : F'.Sub G) : F.Sub G := fun _ _ e => h' (h e)

theorem Sub.update (h : F.Sub F') {o : Option Body} :
    Facts.Sub (Function.update F a o) (Function.update F' a o) := by
  intro b D hb
  by_cases e : b = a
  · subst e
    rwa [Function.update_self] at hb ⊢
  · rw [Function.update_of_ne e] at hb ⊢
    exact h hb

namespace SameThreads

theorem refl : F.SameThreads F := fun _ _ h _ => h

theorem trans (h : F.SameThreads F') (h' : F'.SameThreads G) : F.SameThreads G := fun _ _ e ht =>
    h' (h e ht) ht

/-- Another record changes. -/
theorem update {o : Option Body} (h : F.SameThreads F') (ha : ∀ B, F' a = some B →
    B.tag ≠ .thread) :
    F.SameThreads (Function.update F' a o) := by
  intro b D hb ht
  have hb := h hb ht
  rwa [Function.update_of_ne]
  rintro rfl
  exact ha D hb ht

end SameThreads

theorem Shaped.sub (h : F'.Shaped) (sub : F.Sub F') : F.Shaped := fun _ _ ha => h (sub ha)

/-- A record comes up or changes. -/
theorem Shaped.update (h : F.Shaped) (fits : B.tag.slots ≤ B.children.length) :
    Facts.Shaped (Function.update F a (some B)) := by
  intro b D hb
  by_cases e : b = a
  · subst e
    rw [Function.update_self, Option.some_inj] at hb
    exact hb ▸ fits
  · rw [Function.update_of_ne e] at hb
    exact h hb

/-- What is still there says what it said. -/
theorem Sub.eq_some (h : F.Sub F') (ha : F' a = some B) (known : F a ≠ none) : F a = .some B := by
  obtain ⟨D, hD⟩ := Option.ne_none_iff_exists'.1 known
  rw [hD, ← h hD, ha]

end Facts

namespace Heap

/-- The machine owns `B` and, for now, `O`, with room for `n` more references to each record, and
some records say what `G` tells. -/
structure Retains (G : Facts) (B : Multiset Address) (n : Nat) (O : Multiset Address) (h : Heap) :
    Prop where
  owns : Owns 0 n (O + B) h
  body : G.Sub h.body?
  held : Held G B
  shaped : Facts.Shaped h.body?

variable {G : Facts} {B O : Multiset Address} {n m : Nat} {h h' : Heap} {a b v d : Address}
    {t : Tag}
  {i : Nat} {w : UInt64} {D : Body} {P : Multiset Address}

theorem Exact.closed_body (x : Exact P O h) : GoMachine.Closed h.body? := by
  intro a D b ha hb
  obtain ⟨c, hc, rfl⟩ := body?_eq_some.1 ha
  refine (x.closed (a := b) (by simp [mem_edges.2 ⟨a, c, hc, hb⟩])).imp_right fun live => ?_
  simp [body?, cell?_eq_some.2 ⟨live, rfl⟩]

theorem Sound.body?_nil (s : h.Sound) : h.body? .nil = none := by
  by_contra known
  obtain ⟨D, hD⟩ := Option.ne_none_iff_exists'.1 known
  obtain ⟨c, hc, -⟩ := body?_eq_some.1 hD
  exact s.ne_nil (cell?_eq_some.1 hc).1 rfl

/-! ## Reading -/

theorem Sound.child_read (s : h.Sound) (run : Query.child a t i h = .ok b) :
    ∃ D, h.body? a = some D ∧ D.tag = t ∧ D.children[i]? = some b := by
  obtain ⟨c, hc, ht, hb⟩ := s.child_ok.1 (ofHeap_ok.1 run)
  exact ⟨c.body, body?_eq_some.2 ⟨c, hc, rfl⟩, ht, hb⟩

theorem Sound.field_read (s : h.Sound) (run : Query.field a t i h = .ok w) :
    ∃ D, h.body? a = some D ∧ D.tag = t ∧ D.fields[i]? = some w := by
  obtain ⟨c, hc, ht, hb⟩ := s.field_ok.1 (ofHeap_ok.1 run)
  exact ⟨c.body, body?_eq_some.2 ⟨c, hc, rfl⟩, ht, hb⟩

theorem Sound.tag_read (s : h.Sound) (run : Query.tag a h = .ok t) :
    a = .nil ∧ t = .nil ∨ ∃ D, h.body? a = some D ∧ D.tag = t := by
  refine (s.tag_ok.1 (ofHeap_ok.1 run)).imp_right fun ⟨c, hc, ht⟩ => ?_
  exact ⟨c.body, body?_eq_some.2 ⟨c, hc, rfl⟩, ht⟩

theorem Sound.children_read {l : List Address} (s : h.Sound) (run : Query.children a h = .ok l) :
    a = .nil ∧ l = [] ∨ ∃ D, h.body? a = some D ∧ D.children = l := by
  refine (s.children_ok.1 (ofHeap_ok.1 run)).imp_right fun ⟨c, hc, e⟩ => ?_
  exact ⟨c.body, body?_eq_some.2 ⟨c, hc, rfl⟩, e⟩

theorem Sound.takeChild_there (s : h.Sound) :
    Yields (HeapM.takeChild a t i) h fun _ _ => h.body? a ≠ none := by
  refine Yields.ask fun slot e => ?_
  obtain ⟨c, hc, -⟩ := s.childSlot_word e
  exact Yields.any.mono fun _ _ _ => by simp [body?, hc]

theorem Sound.tag_of_body (s : h.Sound) (ha : h.body? a = some D) (run : Query.tag a h = .ok t) :
    t = D.tag := by
  rcases s.tag_read run with ⟨rfl, -⟩ | ⟨E, hE, rfl⟩
  · simp [s.body?_nil] at ha
  · rw [ha, Option.some_inj] at hE
    rw [hE]

theorem Sound.child_of_body (s : h.Sound) (ha : h.body? a = some D)
    (run : Query.child a t i h = .ok b) :
    D.tag = t ∧ D.children[i]? = some b := by
  obtain ⟨E, hE, k⟩ := s.child_read run
  rw [ha, Option.some_inj] at hE
  exact hE ▸ k

theorem Sound.field_of_body (s : h.Sound) (ha : h.body? a = some D)
    (run : Query.field a t i h = .ok w) :
    D.tag = t ∧ D.fields[i]? = some w := by
  obtain ⟨E, hE, k⟩ := s.field_read run
  rw [ha, Option.some_inj] at hE
  exact hE ▸ k

theorem Becomes.body?_eq {o : Option Cell} (u : Becomes h a o h') :
    h'.body? = Function.update h.body? a (o.map Cell.body) := by
  funext b
  by_cases e : b = a
  · rw [e, Function.update_self, u.body?_self]
  · rw [Function.update_of_ne e, u.body?_of_ne e]

/-- A record that refers to nothing is all that may go away with a reference to it, and not even
that while it is owned besides. -/
theorem Exact.free_threads (x : Exact 0 (a ::ₘ O) h)
    (bare : a ∈ O ∨ ∃ D, h.body? a = some D ∧ D.tag ≠ .thread ∧ ∀ b ∈ D.children, b = .nil) :
    Yields (HeapM.free a) h fun _ h' => Facts.SameThreads h.body? h'.body? := by
  obtain ⟨h₁, run₁, -, less, spares⟩ := x.free
  intro _ h' run
  obtain rfl : h' = h₁ := by
    rw [run₁] at run
    cases run
    rfl
  -- all records but this one are owned, or another of them refers to them
  have stay : ∀ b ∈ {b | h.isLive b ∧ (b = a → a ∈ O)}, h'.isLive b := by
    refine spares _ fun b ⟨live, self⟩ => ⟨live, ?_⟩
    have hb := cell?_eq_some.2 ⟨live, rfl⟩
    have held : b ∈ a ::ₘ O + h.edges := Multiset.count_pos.1 (Nat.pos_of_ne_zero fun unheld =>
      x.idle hb (UInt64.toNat_inj.1 ((x.count hb).trans unheld)) (UInt16.toNat_inj.1 (x.pins hb)))
    rw [Multiset.cons_add, Multiset.mem_cons, Multiset.mem_add] at held
    rcases held with e | owned | edge
    · exact .inl (e ▸ self e)
    · exact .inl owned
    · obtain ⟨d, c, hd, hbd⟩ := mem_edges.1 edge
      refine .inr ⟨d, ⟨(cell?_eq_some.1 hd).1, fun e => ?_⟩, c, hd, hbd⟩
      subst e
      refine bare.resolve_right fun ⟨D, ha, _, nils⟩ => ?_
      obtain ⟨c', hc', rfl⟩ := body?_eq_some.1 ha
      obtain rfl := Option.some_inj.1 (hd.symm.trans hc')
      exact x.sound.ne_nil live (nils b hbd)
  intro b E hb tag
  obtain ⟨c, hc, rfl⟩ := body?_eq_some.1 hb
  have live' : h'.isLive b :=
    stay b ⟨(cell?_eq_some.1 hc).1, fun e => bare.resolve_right fun ⟨D, ha, ne, _⟩ => ne ?_⟩
  · have hc' := cell?_eq_some.2 ⟨live', rfl⟩
    obtain ⟨c₀, hc₀, e⟩ := less b _ hc'
    obtain rfl := Option.some_inj.1 (hc₀.symm.trans hc)
    exact body?_eq_some.2 ⟨_, hc', by rw [e, Cell.body_count]⟩
  · subst e
    rw [← tag, Option.some_inj.1 (ha.symm.trans hb)]

namespace Retains

theorem sound (g : Retains G B n O h) : h.Sound := g.owns.exact.sound

theorem closed (g : Retains G B n O h) : GoMachine.Closed h.body? := g.owns.exact.closed_body

theorem dead (g : Retains G B n O h) : h.body? .nil = none := g.owns.exact.sound.body?_nil

theorem weaken (g : Retains G B n O h) (le : m ≤ n) : Retains G B m O h :=
  ⟨g.owns.weaken le, g.body, g.held, g.shaped⟩

/-- There is as much room as there was when the same was owned before. -/
theorem restore {G' : Facts} (g : Retains G B n O h) (g' : Retains G' B m O h') :
    Retains G' B n O h' :=
  ⟨g'.owns.tighten g.owns.spare, g'.body, g'.held, g'.shaped⟩

/-- There is as much room as is left when one thing more is owned than before. -/
theorem tighten {G' : Facts} (g : Retains G B (n + 1) O h) (g' : Retains G' B m (a ::ₘ O) h') :
    Retains G' B n (a ::ₘ O) h' :=
  ⟨g'.owns.tighten ((Multiset.cons_add a O B).symm ▸ g.owns.spare.cons), g'.body, g'.held,
    g'.shaped⟩

theorem swap (g : Retains G B n (a ::ₘ b ::ₘ O) h) : Retains G B n (b ::ₘ a ::ₘ O) h := by
  rwa [Multiset.cons_swap]

theorem cons_nil : Retains G B n (.nil ::ₘ O) h ↔ Retains G B n O h :=
  ⟨fun g => ⟨Owns.cons_nil.1 (Multiset.cons_add _ O B ▸ g.owns), g.body, g.held, g.shaped⟩,
    fun g => ⟨(Multiset.cons_add _ O B).symm ▸ Owns.cons_nil.2 g.owns, g.body, g.held, g.shaped⟩⟩

/-- What is owned for now may be kept for a while. -/
theorem stay (g : Retains G B n (a ::ₘ O) h) : Retains G (a ::ₘ B) n O h := by
  refine ⟨?_, g.body, g.held.anti (Multiset.le_cons_self B a), g.shaped⟩
  rw [Multiset.add_cons, ← Multiset.cons_add]
  exact g.owns

theorem unstay (g : Retains G (a ::ₘ B) n O h) (held : Held G B) : Retains G B n (a ::ₘ O) h := by
  refine ⟨?_, g.body, held, g.shaped⟩
  rw [Multiset.cons_add, ← Multiset.add_cons]
  exact g.owns

/-- Knowing less. -/
theorem forget {G' : Facts} (g : Retains G B n O h) (less : G'.Sub G) (held : Held G' B) :
    Retains G' B n O h :=
  ⟨g.owns, less.trans g.body, held, g.shaped⟩

/-- What a record says is known. -/
theorem learn (g : Retains G B n O h) (ha : h.body? a = some D)
    (sec : a ∈ B ∨ ∃ d E, G d = some E ∧ a ∈ E.children) :
    Retains (Function.update G a (some D)) B n O h := by
  have more : ∀ {b E}, G b = some E → Function.update G a (some D) b = some E := by
    intro b E hb
    by_cases e : b = a
    · subst e
      rw [Function.update_self, ← ha, g.body hb]
    · rwa [Function.update_of_ne e]
  have still : a ∈ B ∨ ∃ d E, Function.update G a (some D) d = some E ∧ a ∈ E.children :=
    sec.imp_right fun ⟨d, E, hd, hm⟩ => ⟨d, E, more hd, hm⟩
  refine ⟨g.owns, fun b E hb => ?_, fun b E hb => ?_, g.shaped⟩
  · by_cases e : b = a
    · subst e
      rwa [Function.update_self, ← ha] at hb
    · rw [Function.update_of_ne e] at hb
      exact g.body hb
  · by_cases e : b = a
    · exact e ▸ still
    · rw [Function.update_of_ne e] at hb
      exact (g.held b E hb).imp_right fun ⟨d, E, hd, hm⟩ => ⟨d, E, more hd, hm⟩

/-- What is known is not what changes. -/
theorem body_update (g : Retains G B n O h) (ha : h.body? a = some D) (other : ∀ {E}, G a = some E →
    E.tag ≠ D.tag)
    {E : Body} : G.Sub (Function.update h.body? a (some E)) := by
  intro b C hb
  rw [Function.update_of_ne, g.body hb]
  rintro rfl
  have := g.body hb
  rw [ha, Option.some_inj] at this
  exact other hb (this ▸ rfl)

/-! ## The primitives -/

theorem allocate {fields children : Nat} (g : Retains G B n O h) (fits : t.slots ≤ children) :
    Yields (HeapM.allocate t fields children) h fun a h' => Retains G B n (a ::ₘ O) h' ∧ a ≠ .nil ∧
      h.body? a = none ∧ G a = none ∧
      h'.body? = Function.update h.body? a
      (some ⟨t, .replicate fields 0, .replicate children .nil⟩) := by
  intro a h' run
  obtain ⟨dead, hne, u⟩ := g.owns.exact.sound.allocated run
  have gone : h.body? a = none := by rw [body?, cell?_eq_none.2 dead, Option.map_none]
  have unknown : G a = none := by
    by_contra known
    obtain ⟨D, hD⟩ := Option.ne_none_iff_exists'.1 known
    simp [g.body hD] at gone
  have e := u.body?_eq
  refine ⟨⟨(Multiset.cons_add a O B).symm ▸ g.owns.allocate.yields a h' run, fun b D hb =>
    ?_, g.held, ?_⟩, hne,
    gone, unknown, e⟩
  · rw [e, Function.update_of_ne, g.body hb]
    rintro rfl
    simp [unknown] at hb
  · rw [e]
    exact g.shaped.update (fits.trans_eq List.length_replicate.symm)

theorem setField (g : Retains G B n O h) (other : ∀ {D}, G a = some D → D.tag ≠ t) :
    Yields (HeapM.setField a t i w) h fun _ h' => Retains G B n O h' ∧ ∃ D, h.body? a = some D ∧
    D.tag = t ∧
      h'.body? = Function.update h.body? a (some { D with fields := D.fields.set i w }) := by
  refine Yields.ask fun slot e => ?_
  obtain ⟨c, hc, rfl, hi, rfl⟩ := g.owns.exact.sound.fieldSlot_ok.1 e
  have ha : h.body? a = some c.body := body?_eq_some.2 ⟨c, hc, rfl⟩
  have e := (g.owns.exact.sound.put_field (w := w) hc hi).body?_eq
  refine .modify ⟨⟨⟨g.owns.exact.put_field hc hi, g.owns.spare⟩, ?_, g.held, ?_⟩, c.body, ha, rfl,
    e⟩
  · rw [e]
    exact g.body_update ha other
  · rw [e]
    exact g.shaped.update (g.shaped ha :)

theorem reference (g : Retains G B (n + 1) O h) :
    Yields (HeapM.reference a) h fun b h' => b = a ∧ Retains G B n (a ::ₘ O) h' ∧
    h'.body? = h.body? := by
  suffices same : Yields (HeapM.reference a) h fun _ h' => h'.body? = h.body? by
    refine (g.owns.reference.yields.and same).mono fun _ h' ⟨⟨e, own⟩, body⟩ =>
      ⟨e, ⟨?_, ?_, g.held, ?_⟩, body⟩
    · exact (Multiset.cons_add a O B).symm ▸ own
    · rw [body]
      exact g.body
    · rw [body]
      exact g.shaped
  unfold HeapM.reference
  split
  · exact .pure rfl
  · next hn =>
    refine Yields.ask fun count counted => ?_
    rcases g.owns.exact.sound.refCount_ok.1 counted with ⟨rfl, -⟩ | ⟨c, hc, rfl⟩
    · exact absurd rfl hn
    refine (Yields.modify (Q := fun _ h' => h'.body? = h.body?) ?_).bind fun _ _ body => .pure body
    rw [(g.owns.exact.sound.put_count hc (c.count + 1)).body?_eq, Option.map_some, Cell.body_count,
      Function.update_eq_self_iff, body?_eq_some.2 ⟨c, hc, rfl⟩]

/-- A reference is dropped, and what else goes away with it. -/
theorem drop (x : Exact 0 (a ::ₘ O + B) h) (body : G.Sub h.body?) (held : Held G B) :
    Yields (HeapM.free a) h fun _ h' => Exact 0 (O + B) h' ∧ G.Sub h'.body? ∧
    Facts.Sub h'.body? h.body? := by
  rw [Multiset.cons_add] at x
  obtain ⟨h', run, x', k, -⟩ := x.free
  obtain ⟨h'', run', -, still⟩ :=
    x.free_known (fun hb => body hb) (held.anti (Multiset.le_add_left B O))
  intro _ h₁ run₁
  rw [run] at run₁ run'
  cases run₁
  cases run'
  refine ⟨x', fun b D hb => still hb, fun b D hb => ?_⟩
  obtain ⟨c, hc, rfl⟩ := body?_eq_some.1 hb
  obtain ⟨c', hc', e⟩ := k b c hc
  exact body?_eq_some.2 ⟨c', hc', by rw [e]; rfl⟩

theorem free (g : Retains G B n (a ::ₘ O) h) :
    Yields (HeapM.free a) h fun _ h' => Retains G B n O h' ∧ Facts.Sub h'.body? h.body? :=
  (drop g.owns.exact g.body g.held).mono fun _ _ ⟨x, body, sub⟩ =>
    ⟨⟨⟨x, g.owns.spare.anti (by simp [Multiset.le_cons_self])⟩, body, g.held, g.shaped.sub sub⟩,
    sub⟩

/-- What becomes of the records when a reference moves into a slot. -/
theorem put_child {c : Cell} (x : Exact 0 (b ::ₘ O + B) h) (hc : h.cell? a = some c)
    (old : c.children[i]? = some d) :
    Exact 0 (d ::ₘ O + B) (h.setWord (a.index + 2 + c.fields.length + i) b.toWord) ∧
      (h.setWord (a.index + 2 + c.fields.length + i) b.toWord).body? =
        Function.update h.body? a (some { c.body with children := c.children.set i b }) := by
  obtain ⟨-, -, x', u⟩ := Holds.put_child (Multiset.cons_add b O B ▸ x) hc old
  exact ⟨(Multiset.cons_add d O B).symm ▸ x', u.body?_eq⟩

theorem setChildOwned (g : Retains G B n (b ::ₘ O) h) (other : ∀ {D}, G a = some D → D.tag ≠ t) :
    Yields (HeapM.setChildOwned a t i b) h fun _ h' => Retains G B n O h' ∧
    ∃ D d, h.body? a = some D ∧
      D.tag = t ∧ D.children[i]? = some d ∧
      Facts.Sub h'.body? (Function.update h.body? a
      (some { D with children := D.children.set i b })) ∧
      (d = .nil → h'.body? = Function.update h.body? a
      (some { D with children := D.children.set i b })) := by
  refine Yields.ask fun slot e => ?_
  obtain ⟨c, hc, rfl, rfl, old⟩ := g.owns.exact.sound.childSlot_word e
  have ha : h.body? a = some c.body := body?_eq_some.2 ⟨c, hc, rfl⟩
  obtain ⟨x, e⟩ := put_child g.owns.exact hc old
  refine (Yields.modifyGet (Q := fun d h' => c.children[i]? = some d ∧ Exact 0 (d ::ₘ O + B) h' ∧
    h'.body? = Function.update h.body? a (some { c.body with children := c.children.set i b }))
    ⟨old, x, e⟩).bind ?_
  rintro d h₁ ⟨old, x, e⟩
  have body : G.Sub h₁.body? := e ▸ g.body_update ha other
  have shaped : Facts.Shaped h₁.body? :=
    e ▸ g.shaped.update (by rw [List.length_set]; exact g.shaped ha)
  by_cases hd : d = .nil
  · subst hd
    intro _ h' run
    unfold HeapM.free at run
    rw [drain, if_pos (by decide), drain] at run
    cases run
    exact ⟨(cons_nil.1 ⟨⟨x, ⟨g.owns.spare.lt, fun a ha => by
      have := g.owns.spare.le a ha
      rw [Multiset.cons_add, Multiset.count_cons] at this ⊢
      rw [if_neg ha]
      split_ifs at this <;> omega⟩⟩, body, g.held, shaped⟩), c.body, _, ha, rfl, old,
      e ▸ .refl, fun _ => e⟩
  · refine (drop x body g.held).mono ?_
    rintro _ h' ⟨x', body', sub⟩
    refine ⟨⟨⟨x', g.owns.spare.anti (by simp [Multiset.le_cons_self])⟩, body', g.held,
      shaped.sub sub⟩, c.body, d,
      ha, rfl, old, e ▸ sub, fun absent => absurd absent hd⟩

theorem setChild (g : Retains G B (n + 1) O h) (other : ∀ {D}, G a = some D → D.tag ≠ t) :
    Yields (HeapM.setChild a t i b) h fun _ h' => Retains G B (n + 1) O h' ∧
    ∃ D d, h.body? a = some D ∧
      D.tag = t ∧ D.children[i]? = some d ∧
      Facts.Sub h'.body? (Function.update h.body? a
      (some { D with children := D.children.set i b })) ∧
      (d = .nil → h'.body? = Function.update h.body? a
      (some { D with children := D.children.set i b })) := by
  refine g.reference.bind fun _ h₁ ⟨_, g₁, same⟩ => ?_
  exact (same ▸ g₁.setChildOwned other).mono fun _ h' ⟨g₂, e⟩ => ⟨g.restore g₂, e⟩

theorem free_threads (g : Retains G B n (a ::ₘ O) h) (ha : h.body? a = some D)
    (bare : D.tag ≠ .thread ∧ ∀ b ∈ D.children, b = .nil) :
    Yields (HeapM.free a) h fun _ h' => Facts.SameThreads h.body? h'.body? :=
  Exact.free_threads (Multiset.cons_add a O B ▸ g.owns.exact) (.inr ⟨D, ha, bare⟩)

/-- What stood in the slot is owned besides. -/
theorem setChild_threads (g : Retains G B (n + 1) O h) (ha : h.body? a = some D)
    (ht : D.tag ≠ .thread)
    (old : D.children[i]? = some d) (owned : d ∈ O) :
    Yields (HeapM.setChild a t i b) h fun _ h' => Facts.SameThreads h.body? h'.body? := by
  refine g.reference.bind fun _ h₁ ⟨e, g₁, same⟩ => Yields.ask fun slot e => ?_
  rw [← same] at ha ⊢
  obtain ⟨c, hc, -, rfl, old'⟩ := g₁.owns.exact.sound.childSlot_word e
  obtain rfl : D = c.body := Option.some_inj.1 (ha.symm.trans (body?_eq_some.2 ⟨c, hc, rfl⟩))
  obtain ⟨x, e⟩ := put_child g₁.owns.exact hc old
  refine (Yields.modifyGet (Q := fun d' h' => d' = d ∧
    h' = h₁.setWord (a.index + 2 + c.fields.length + i) b.toWord)
    ⟨Option.some_inj.1 (old'.symm.trans old), rfl⟩).bind fun _ h₂ ⟨e₁, e₂⟩ => ?_
  subst e₁ e₂
  refine (Exact.free_threads (Multiset.cons_add _ O B ▸ x)
    (.inl (Multiset.mem_add.2 (.inl owned)))).mono
    fun _ h' same => Facts.SameThreads.trans ?_ same
  rw [e]
  exact Facts.SameThreads.refl.update fun E hE => Option.some_inj.1 (ha.symm.trans hE) ▸ ht

theorem takeChild (g : Retains G B (n + 1) O h) (other : ∀ {D}, G a = some D → D.tag ≠ t) :
    Yields (HeapM.takeChild a t i) h fun b h' => Retains G B n (b ::ₘ O) h' ∧
    ∃ D, h.body? a = some D ∧
      D.tag = t ∧ D.children[i]? = some b ∧
      h'.body? = Function.update h.body? a (some { D with children := D.children.set i .nil }) := by
  refine Yields.ask fun slot e => ?_
  obtain ⟨c, hc, rfl, rfl, old⟩ := g.owns.exact.sound.childSlot_word e
  have ha : h.body? a = some c.body := body?_eq_some.2 ⟨c, hc, rfl⟩
  obtain ⟨x, e⟩ := put_child (b := .nil) (cons_nil.2 g).owns.exact hc old
  refine Yields.modifyGet ⟨⟨⟨x, ?_⟩, ?_, g.held, ?_⟩, c.body, ha, rfl, old, e⟩
  · exact (Multiset.cons_add _ O B).symm ▸ g.owns.spare.cons
  · exact e ▸ g.body_update ha other
  · exact e ▸ g.shaped.update (by rw [List.length_set]; exact g.shaped ha)

end Retains
end Heap

open Heap (Retains)

variable {G : Facts} {B O : Multiset Address} {n : Nat} {h : Heap} {a v : Address}

/-! ## Chains and stacks -/

/-- A new link is all that changes. -/
theorem Chain.createOwned_retains {next : Address} (g : Retains G B (n + 1) (v ::ₘ O) h) :
    Yields (createOwned v next) h fun node h' => Retains G B (n + 1) (node ::ₘ O) h' ∧ node ≠ .nil ∧
      h.body? node = none ∧ G node = none ∧
      h'.body? = Function.update h.body? node (some ⟨.linkedList, [], [v, next]⟩) := by
  refine (Yields.orRelease (g.allocate (Nat.zero_le _)).heap).bind
    fun node h₁ ⟨g₁, notNil, gone, new, e₁⟩ => ?_
  have here : h₁.body? node = some ⟨.linkedList, [], [.nil, .nil]⟩ := by
    rw [e₁, Function.update_self]; rfl
  refine (g₁.swap.setChildOwned (by simp [new])).heap.bind fun _ h₂ ⟨g₂, D, d, ha, _, hd, _, e₂⟩ =>
    ?_
  obtain rfl : D = _ := Option.some_inj.1 (ha.symm.trans here)
  have e₂ := e₂ (by simpa using hd.symm)
  refine (g₂.setChild (by simp [new])).heap.bind fun _ h₃ ⟨g₃, D, d, ha, _, hd, _, e₃⟩ => ?_
  obtain rfl : D = _ := Option.some_inj.1 (ha.symm.trans (by rw [e₂, Function.update_self]))
  have e₃ := e₃ (by simpa using hd.symm)
  refine .pure ⟨g₃, notNil, gone, new, ?_⟩
  rw [e₃, e₂, e₁, Function.update_idem, Function.update_idem]
  rfl

namespace Stack

theorem pushOwned_retains {t : Tag} {w : UInt64} {top : Address}
    (g : Retains G B (n + 1) (v ::ₘ O) h)
    (ha : h.body? a = some ⟨t, [w], [top]⟩) (other : ∀ {D}, G a = some D → D.tag ≠ t) :
    Yields (pushOwned a v) h fun _ h' => Retains G B (n + 1) O h' ∧ ∃ node, node ≠ .nil ∧
      h.body? node = none ∧
      Facts.Sub h'.body? (Function.update
      (Function.update h.body? node (some ⟨.linkedList, [], [v, top]⟩)) a
        (some ⟨t, [w + 1], [node]⟩)) := by
  refine .read fun tag tagged => .read fun top' read => ?_
  obtain rfl : tag = t := g.sound.tag_of_body ha tagged
  obtain rfl : top' = top := by simpa using (g.sound.child_of_body ha read).2.symm
  refine (Chain.createOwned_retains g).bind fun node h₁ ⟨g₁, notNil, gone, new, e₁⟩ => ?_
  have ne : a ≠ node := fun e => by simp [← e, ha] at gone
  have ha₁ : h₁.body? a = _ := (congrFun e₁ a).trans ((Function.update_of_ne ne ..).trans ha)
  refine (g₁.setChildOwned other).heap.bind fun _ h₂ ⟨g₂, D, d, hD, _, _, sub₂, _⟩ => ?_
  obtain rfl : D = _ := Option.some_inj.1 (hD.symm.trans ha₁)
  refine .read fun w' read => ?_
  obtain ⟨D, hD, -, hw⟩ := g₂.sound.field_read read
  have hD' := sub₂ hD
  rw [Function.update_self, Option.some_inj] at hD'
  subst hD'
  obtain rfl : w = w' := by simpa using hw
  refine ((g₂.setField other).mono fun _ h₃ ⟨g₃, D, hD', _, e₃⟩ => ?_).heap
  obtain rfl := Option.some_inj.1 (hD'.symm.trans hD)
  refine ⟨g₃, node, notNil, gone, ?_⟩
  rw [e₃, ← e₁]
  refine (Facts.Sub.update sub₂).trans ?_
  rw [Function.update_idem]
  exact .refl

theorem pop_there (s : h.Sound) : Yields (pop a) h fun _ _ => h.body? a ≠ none :=
  .read fun _ _ => s.takeChild_there.heap.bind fun _ _ there => Yields.any.mono fun _ _ _ => there

theorem pop_empty {t : Tag} {w : UInt64} (g : Retains G B (n + 1) O h)
    (ha : h.body? a = some ⟨t, [w], [.nil]⟩) (other : ∀ {D}, G a = some D → D.tag ≠ t) :
    Yields (pop a) h fun v h' => v = .nil ∧ Retains G B n O h' ∧ h'.body? = h.body? := by
  refine .read fun tag tagged => ?_
  obtain rfl : tag = t := g.sound.tag_of_body ha tagged
  refine (g.takeChild other).heap.bind fun top h₁ ⟨g₁, D, hD, _, ht, e₁⟩ => ?_
  obtain rfl : D = _ := Option.some_inj.1 (hD.symm.trans ha)
  obtain rfl : .nil = top := by simpa using ht
  rw [if_pos (by decide)]
  exact .pure ⟨rfl, Retains.cons_nil.1 g₁, by
    rw [e₁, List.set_cons_zero, Function.update_eq_self_iff.2 ha.symm]⟩

theorem pop_retains {t : Tag} {w : UInt64} {top value next : Address} (g : Retains G B (n + 3) O h)
    (ha : h.body? a = some ⟨t, [w], [top]⟩) (ht :
    h.body? top = some ⟨.linkedList, [], [value, next]⟩)
    (other : ∀ {D}, G a = some D → D.tag ≠ t) (link : ∀ {b D}, G b = some D → D.tag ≠ .linkedList)
    (ne : t ≠ .linkedList) (ne' : t ≠ .thread) :
    Yields (pop a) h fun v h' => v = value ∧ Retains G B (n + 2) (v ::ₘ O) h' ∧ Facts.Sub h'.body?
      (Function.update (Function.update h.body? top (some ⟨.linkedList, [], [.nil, .nil]⟩)) a
        (some ⟨t, [decrement w], [next]⟩)) ∧ Facts.SameThreads h.body? h'.body? := by
  have apart : top ≠ a := by
    rintro rfl
    rw [ha, Option.some_inj] at ht
    exact ne (congrArg Body.tag ht)
  have notNil : top ≠ .nil := fun e => by simp [e, g.dead] at ht
  refine .read fun tag tagged => ?_
  obtain rfl : tag = t := g.sound.tag_of_body ha tagged
  refine (g.takeChild other).heap.bind fun top' h₁ ⟨g₁, D, hD, _, hx, e₁⟩ => ?_
  obtain rfl : D = _ := Option.some_inj.1 (hD.symm.trans ha)
  obtain rfl : top = top' := by simpa using hx
  rw [if_neg (by rwa [Address.isNil_iff])]
  have ht₁ : h₁.body? top = _ := (congrFun e₁ top).trans ((Function.update_of_ne apart ..).trans ht)
  refine (g₁.takeChild link).heap.bind fun v h₂ ⟨g₂, D, hD, _, hv, e₂⟩ => ?_
  obtain rfl : D = _ := Option.some_inj.1 (hD.symm.trans ht₁)
  obtain rfl : value = v := by simpa using hv
  have ht₂ : h₂.body? top = _ := (congrFun e₂ top).trans (Function.update_self ..)
  refine (g₂.takeChild link).heap.bind fun next' h₃ ⟨g₃, D, hD, _, hn, e₃⟩ => ?_
  obtain rfl : D = _ := Option.some_inj.1 (hD.symm.trans ht₂)
  obtain rfl : next = next' := by simpa using hn
  have ha₃ : h₃.body? a = some ⟨tag, [w], [.nil]⟩ := by
    rw [e₃, Function.update_of_ne apart.symm, e₂, Function.update_of_ne apart.symm, e₁,
      Function.update_self]
    rfl
  refine (g₃.setChildOwned other).heap.bind fun _ h₄ ⟨g₄, D, d, hD, _, hd, _, e₄⟩ => ?_
  obtain rfl : D = _ := Option.some_inj.1 (hD.symm.trans ha₃)
  have e₄ := e₄ (by simpa using hd.symm)
  have four : h₄.body? = Function.update
    (Function.update h.body? top (some ⟨.linkedList, [], [.nil, .nil]⟩)) a
      (some ⟨tag, [w], [next]⟩) := by
    rw [e₄, e₃, e₂, e₁, Function.update_idem, Function.update_comm apart.symm, Function.update_idem]
    rfl
  have same : Facts.SameThreads h.body? h₄.body? := by
    rw [four]
    refine (Facts.SameThreads.refl.update (by simp [ht])).update fun D hD => ?_
    rw [Function.update_of_ne apart.symm, ha, Option.some_inj] at hD
    exact hD ▸ ne'
  have bare : h₄.body? top = some ⟨.linkedList, [], [.nil, .nil]⟩ := by
    rw [four, Function.update_of_ne apart, Function.update_self]
  refine (g₄.swap.free.and (g₄.swap.free_threads bare (by simp))).heap.bind
    fun _ h₅ ⟨⟨g₅, sub⟩, same'⟩ => .read fun w' read => ?_
  obtain ⟨D, hD, -, hw⟩ := g₅.sound.field_read read
  obtain rfl : D = ⟨tag, [w], [next]⟩ := by
    have := sub hD
    rw [e₄, Function.update_self, Option.some_inj] at this
    exact this.symm
  obtain rfl : w = w' := by simpa using hw
  refine (g₅.setField other).heap.bind fun _ h₆ ⟨g₆, D, hD', _, e₆⟩ =>
    .pure ⟨rfl, g.tighten g₆, ?_, ?_⟩
  all_goals
    obtain rfl := Option.some_inj.1 (hD'.symm.trans hD)
    rw [e₆]
  · refine (Facts.Sub.update sub).trans ?_
    rw [four, Function.update_idem]
    exact .refl
  · exact (same.trans same').update fun E hE => Option.some_inj.1 (hD.symm.trans hE) ▸ ne'

end Stack
/-! ## Queues -/

/-- A new link comes to the back of a queue, behind the one that was there. -/
def Facts.Enqueues (F : Facts) (q v node : Address) (F' : Facts) : Prop :=
  ∃ (back : Address) (D : Body) (w : UInt64), F q = some D ∧ D.tag = .queue ∧
  D.children[1]? = some back ∧
    (back = .nil ∧ F' = Function.update
    (Function.update F node (some ⟨.linkedList, [], [v, .nil]⟩)) q
      (some ⟨.queue, D.fields.set 0 w, (D.children.set 0 node).set 1 node⟩) ∨
    ∃ E, back ≠ .nil ∧ F back = some E ∧ E.tag = .linkedList ∧
      F' = Function.update
      (Function.update (Function.update F node (some ⟨.linkedList, [], [v, .nil]⟩)) back
        (some { E with children := E.children.set 1 node })) q
          (some ⟨.queue, D.fields.set 0 w, D.children.set 1 node⟩))

/-- The first link of a queue loses what it holds, and the queue starts with what came after it. -/
def Facts.Dequeues (F : Facts) (q v : Address) (F' : Facts) : Prop :=
  ∃ D, F q = some D ∧ D.tag = .queue ∧
    (v = .nil ∧ D.children[0]? = some .nil ∧
      F' = Function.update F q (some { D with children := D.children.set 0 .nil }) ∨
    ∃ (front next : Address) (E : Body) (w : UInt64), front ≠ .nil ∧ D.children[0]? = some front ∧
      F front = some E ∧ E.tag = .linkedList ∧ E.children[0]? = some v ∧
      E.children[1]? = some next ∧
      F' = Function.update (Function.update F front
        (some { E with children := (E.children.set 0 .nil).set 1 .nil })) q
        (some ⟨.queue, D.fields.set 0 w,
          (if next = .nil then D.children.set 1 .nil else D.children).set 0 next⟩))

namespace Queue

variable {q front back node value next : Address} {F : Facts} {E : Body}

/-- A link comes to be the last one of a queue that has said `E` before, if it is still there. -/
theorem closeBack_retains (g : Retains G B n (node ::ₘ O) h)
    (queue : ∀ {b D}, G b = some D → D.tag ≠ .queue)
    (sub : Facts.Sub h.body? (Function.update F q (some E))) :
    Yields (closeBack q node) h fun _ h' => Retains G B n O h' ∧ ∃ w, Facts.Sub h'.body?
      (Function.update F q (some ⟨E.tag, E.fields.set 0 w, E.children.set 1 node⟩)) := by
  refine (g.setChildOwned queue).heap.bind fun _ h₁ ⟨g₁, D, d, hD, _, _, sub₁, _⟩ => ?_
  obtain rfl : E = D := by
    have said := sub hD
    rwa [Function.update_self, Option.some_inj] at said
  refine .read fun w _ => ((g₁.setField queue).mono fun _ h₂ ⟨g₂, D, hD, _, e₂⟩ =>
    ⟨g₂, w + 1, ?_⟩).heap
  have said := sub₁ hD
  rw [Function.update_self, Option.some_inj] at said
  subst said
  rw [e₂]
  refine (Facts.Sub.update (sub₁.trans (Facts.Sub.update sub))).trans ?_
  rw [Function.update_idem, Function.update_idem]
  exact .refl

theorem enqueueOwned_retains (g : Retains G B (n + 1) (v ::ₘ O) h)
    (queue : ∀ {b D}, G b = some D → D.tag ≠ .queue)
    (link : ∀ {b D}, G b = some D → D.tag ≠ .linkedList) :
    Yields (enqueueOwned q v) h fun _ h' => Retains G B (n + 1) O h' ∧ ∃ node F, node ≠ .nil ∧
      h.body? node = none ∧ Facts.Enqueues h.body? q v node F ∧ Facts.Sub h'.body? F := by
  refine enqueueOwned_yields
    (M := fun node back h₁ => Retains G B (n + 1) (node ::ₘ O) h₁ ∧ node ≠ .nil ∧
      h.body? node = none ∧
      h₁.body? = Function.update h.body? node (some ⟨.linkedList, [], [v, .nil]⟩) ∧
      ∃ D, h.body? q = some D ∧ h₁.body? q = some D ∧ D.tag = .queue ∧ D.children[1]? = some back)
    (N := fun node h₂ => Retains G B (n + 1) (node ::ₘ O) h₂ ∧ node ≠ .nil ∧
      h.body? node = none ∧ ∃ F D, Facts.Sub h₂.body? (Function.update F q (some D)) ∧
      ∀ w, Facts.Enqueues h.body? q v node
        (Function.update F q (some ⟨D.tag, D.fields.set 0 w, D.children.set 1 node⟩)))
    ?made ?first ?behind ?closed
  case made =>
    refine (Chain.createOwned_retains g).mono fun node h₁ ⟨g₁, notNil, gone, _, e₁⟩ back read => ?_
    obtain ⟨D, hD, tag, hback⟩ := g₁.sound.child_read read
    have ne : q ≠ node := by
      rintro rfl
      rw [e₁, Function.update_self, Option.some_inj] at hD
      rw [← hD] at tag
      cases tag
    refine ⟨g₁, notNil, gone, e₁, D, ?_, hD, tag, hback⟩
    rw [← hD, e₁, Function.update_of_ne ne]
  case first =>
    rintro node h₁ ⟨g₁, notNil, gone, e₁, D, hD, hD₁, tag, hback⟩
    refine (g₁.setChild queue).mono fun _ h₂ ⟨g₂, D', d, hd, _, _, sub, _⟩ => ?_
    obtain rfl := Option.some_inj.1 (hd.symm.trans hD₁)
    exact ⟨g₂, notNil, gone, _, _, sub, fun w =>
      ⟨.nil, D', w, hD, tag, hback, .inl ⟨rfl, by rw [e₁, tag]⟩⟩⟩
  case behind =>
    rintro node back h₁ ne_nil ⟨g₁, notNil, gone, e₁, D, hD, hD₁, tag, hback⟩
    refine (g₁.setChild link).mono fun _ h₂ ⟨g₂, E, d, hE, tag', _, sub, _⟩ => ?_
    have back_ne : q ≠ back := by
      rintro rfl
      obtain rfl := Option.some_inj.1 (hE.symm.trans hD₁)
      rw [tag] at tag'
      cases tag'
    have back_ne' : back ≠ node := by
      rintro rfl
      exact (g.closed q D back hD (List.mem_of_getElem? hback)).elim notNil fun live => live gone
    have hE' : h.body? back = some E := by rw [← hE, e₁, Function.update_of_ne back_ne']
    refine ⟨g₂, notNil, gone, Function.update h₁.body? back
      (some { E with children := E.children.set 1 node }), D, ?_, fun w =>
      ⟨back, D, w, hD, tag, hback, .inr ⟨E, ne_nil, hE', tag', by rw [e₁, tag]⟩⟩⟩
    rwa [Function.update_eq_self_iff.2 (by rw [Function.update_of_ne back_ne, hD₁])]
  case closed =>
    rintro node h₂ ⟨g₂, notNil, gone, F, D, sub, enqueues⟩
    exact (closeBack_retains g₂ queue sub).mono fun _ h₃ ⟨g₃, w, sub'⟩ =>
      ⟨g₃, node, _, notNil, gone, enqueues w, sub'⟩

/-- The first link of a queue that has said `E` before is dropped, and its value is owned now. -/
theorem dropFront_retains (g : Retains G B n (next ::ₘ value ::ₘ front ::ₘ O) h)
    (queue : ∀ {b D}, G b = some D → D.tag ≠ .queue)
    (sub : Facts.Sub h.body? (Function.update F q (some E))) :
    Yields (dropFront q front next value) h fun v h' => v = value ∧
      Retains G B n (value ::ₘ O) h' ∧ ∃ w, Facts.Sub h'.body?
        (Function.update F q (some ⟨E.tag, E.fields.set 0 w, E.children.set 0 next⟩)) := by
  refine (g.setChildOwned queue).heap.bind fun _ h₁ ⟨g₁, D, d, hD, _, _, sub₁, _⟩ => ?_
  obtain rfl : E = D := by
    have said := sub hD
    rwa [Function.update_self, Option.some_inj] at said
  refine g₁.swap.free.heap.bind fun _ h₂ ⟨g₂, sub₂⟩ => .read fun w _ => ?_
  refine (g₂.setField queue).heap.bind fun _ h₃ ⟨g₃, D, hD, _, e₃⟩ =>
    .pure ⟨rfl, g₃, Stack.decrement w, ?_⟩
  have said := sub₁ (sub₂ hD)
  rw [Function.update_self, Option.some_inj] at said
  subst said
  rw [e₃]
  refine (Facts.Sub.update (sub₂.trans (sub₁.trans (Facts.Sub.update sub)))).trans ?_
  rw [Function.update_idem, Function.update_idem]
  exact .refl

theorem dequeue_retains (g : Retains G B (n + 4) O h)
    (queue : ∀ {b D}, G b = some D → D.tag ≠ .queue)
    (link : ∀ {b D}, G b = some D → D.tag ≠ .linkedList) :
    Yields (dequeue q) h fun v h' => Retains G B (n + 3) (v ::ₘ O) h' ∧
      ∃ F, Facts.Dequeues h.body? q v F ∧ Facts.Sub h'.body? F := by
  refine dequeue_yields
    (A := fun front h₁ => Retains G B (n + 3) (front ::ₘ O) h₁ ∧ ∃ D, h.body? q = some D ∧
      D.tag = .queue ∧ D.children[0]? = some front ∧
      h₁.body? = Function.update h.body? q (some { D with children := D.children.set 0 .nil }))
    (B := fun front v next h₃ => Retains G B (n + 1) (next ::ₘ v ::ₘ front ::ₘ O) h₃ ∧
      front ≠ .nil ∧ ∃ D E, h.body? q = some D ∧ D.tag = .queue ∧ D.children[0]? = some front ∧
      h.body? front = some E ∧ E.tag = .linkedList ∧ E.children[0]? = some v ∧
      E.children[1]? = some next ∧ h₃.body? = Function.update (Function.update h.body? front
        (some { E with children := (E.children.set 0 .nil).set 1 .nil })) q
        (some { D with children := D.children.set 0 .nil }))
    (C := fun front v next h₄ => Retains G B (n + 1) (next ::ₘ v ::ₘ front ::ₘ O) h₄ ∧
      ∃ F D, Facts.Sub h₄.body? (Function.update F q (some D)) ∧
      ∀ w, Facts.Dequeues h.body? q v
        (Function.update F q (some ⟨D.tag, D.fields.set 0 w, D.children.set 0 next⟩)))
    ?taken ?empty ?opened ?last ?more ?dropped
  case taken =>
    exact (g.takeChild queue).mono fun _ _ ⟨g₁, D, hD, tag, hfront, e₁⟩ =>
      ⟨g₁, D, hD, tag, hfront, e₁⟩
  case empty =>
    rintro h₁ ⟨g₁, D, hD, tag, hfront, e₁⟩
    exact ⟨g₁, _, ⟨D, hD, tag, .inl ⟨rfl, hfront, rfl⟩⟩, e₁ ▸ .refl⟩
  case opened =>
    rintro front h₁ ne_nil ⟨g₁, D, hD, tag, hfront, e₁⟩
    refine (g₁.takeChild link).mono fun v h₂ ⟨g₂, E, hE, tag', hv, e₂⟩ => ?_
    have apart : front ≠ q := by
      rintro rfl
      rw [e₁, Function.update_self, Option.some_inj] at hE
      rw [← hE, tag] at tag'
      cases tag'
    refine (g₂.takeChild link).mono fun next h₃ ⟨g₃, E', hE', _, hn, e₃⟩ => ?_
    obtain rfl : E' = { E with children := E.children.set 0 .nil } := by
      rw [e₂, Function.update_self, Option.some_inj] at hE'
      exact hE'.symm
    refine ⟨g₃, ne_nil, D, E, hD, tag, hfront, ?_, tag', hv, ?_, ?_⟩
    · rw [← hE, e₁, Function.update_of_ne apart]
    · rwa [List.getElem?_set_ne (by decide)] at hn
    · rw [e₃, e₂, e₁, Function.update_idem, Function.update_comm apart.symm]
  case last =>
    rintro front v h₃ ⟨g₃, ne_nil, D, E, hD, tag, hfront, hE, tag', hv, hn, e₃⟩
    refine (g₃.setChild queue).mono fun _ h₄ ⟨g₄, D', d, hd, _, _, sub, _⟩ => ?_
    obtain rfl : D' = { D with children := D.children.set 0 .nil } := by
      rw [e₃, Function.update_self, Option.some_inj] at hd
      exact hd.symm
    rw [e₃, Function.update_idem] at sub
    have same : ((D.children.set 0 .nil).set 1 .nil).set 0 .nil =
        (D.children.set 1 .nil).set 0 .nil := by
      rw [List.set_comm _ _ (by decide : (0 : Nat) ≠ 1), List.set_set]
    refine ⟨g₄, _, _, sub, fun w => ⟨D, hD, tag, .inr ⟨front, .nil, E, w, ne_nil, hfront, hE, tag',
      hv, hn, ?_⟩⟩⟩
    simp only [if_true, same, tag]
  case more =>
    rintro front v next h₃ other ⟨g₃, ne_nil, D, E, hD, tag, hfront, hE, tag', hv, hn, e₃⟩
    refine ⟨g₃, _, _, .of_eq e₃, fun w => ⟨D, hD, tag, .inr ⟨front, next, E, w, ne_nil, hfront, hE,
      tag', hv, hn, ?_⟩⟩⟩
    rw [if_neg other, List.set_set, tag]
  case dropped =>
    rintro front v next h₄ ⟨g₄, F, D, sub, dequeues⟩
    exact (dropFront_retains g₄ queue sub).mono fun _ h₅ ⟨e, g₅, w, sub'⟩ =>
      ⟨e ▸ g.tighten g₅, _, e ▸ dequeues w, sub'⟩

/-- A link that is empty by now goes away, and nothing else. -/
theorem dropFront_threads {w : UInt64} (g : Retains G B n (next ::ₘ value ::ₘ front ::ₘ O) h)
    (queue : ∀ {b D}, G b = some D → D.tag ≠ .queue)
    (hq : ∀ {D}, h.body? q = some D → D = ⟨.queue, [w], [.nil, back]⟩)
    (bare : h.body? front = some ⟨.linkedList, [], [.nil, .nil]⟩) (apart : front ≠ q) :
    Yields (dropFront q front next value) h fun _ h' => Facts.SameThreads h.body? h'.body? := by
  refine (g.setChildOwned queue).heap.bind fun _ h₁ ⟨g₁, D, d, hD, _, hd, _, e₁⟩ => ?_
  obtain rfl := hq hD
  have e₁ := e₁ (by simpa using hd.symm)
  have bare₁ : h₁.body? front = some ⟨.linkedList, [], [.nil, .nil]⟩ := by
    rw [e₁, Function.update_of_ne apart, bare]
  have same₁ : Facts.SameThreads h.body? h₁.body? := by
    rw [e₁]
    exact Facts.SameThreads.refl.update (by simp [hD])
  refine (g₁.swap.free.and (g₁.swap.free_threads bare₁ (by simp))).heap.bind
    fun _ h₂ ⟨⟨g₂, _⟩, same₂⟩ => .read fun _ _ => ?_
  refine (g₂.setField queue).heap.bind fun _ h₃ ⟨_, D, hD, tag, e₃⟩ => .pure ?_
  rw [e₃]
  refine (same₁.trans same₂).update fun E hE => ?_
  rw [← Option.some_inj.1 (hD.symm.trans hE), tag]
  decide

/-- What is taken off a queue is all that changes for threads: the link goes away and nothing else.
-/
theorem dequeue_threads {w : UInt64} (g : Retains G B (n + 4) O h)
    (queue : ∀ {b D}, G b = some D → D.tag ≠ .queue)
    (link : ∀ {b D}, G b = some D → D.tag ≠ .linkedList)
    (hq : h.body? q = some ⟨.queue, [w], [front, back]⟩)
    (first : front = .nil ∨ ∃ v next, h.body? front = some ⟨.linkedList, [], [v, next]⟩ ∧
      (next = .nil → back = front)) :
    Yields (dequeue q) h fun _ h' => Facts.SameThreads h.body? h'.body? := by
  have apart (ne_nil : front ≠ .nil) : front ≠ q := by
    rintro rfl
    obtain ⟨v, next, hf, -⟩ := first.resolve_left ne_nil
    simp [hq] at hf
  refine dequeue_yields
    (A := fun front' h₁ => front' = front ∧ Retains G B (n + 3) (front ::ₘ O) h₁ ∧
      h₁.body? = Function.update h.body? q (some ⟨.queue, [w], [.nil, back]⟩) ∧
      Facts.SameThreads h.body? h₁.body?)
    (B := fun front' v next h₃ => front' = front ∧ front ≠ .nil ∧ (next = .nil → back = front) ∧
      Retains G B (n + 1) (next ::ₘ v ::ₘ front ::ₘ O) h₃ ∧
      h₃.body? front = some ⟨.linkedList, [], [.nil, .nil]⟩ ∧
      h₃.body? q = some ⟨.queue, [w], [.nil, back]⟩ ∧ Facts.SameThreads h.body? h₃.body?)
    (C := fun front' v next h₄ => front' = front ∧ front ≠ .nil ∧
      Retains G B (n + 1) (next ::ₘ v ::ₘ front ::ₘ O) h₄ ∧
      h₄.body? front = some ⟨.linkedList, [], [.nil, .nil]⟩ ∧
      (∃ b, ∀ D, h₄.body? q = some D → D = ⟨.queue, [w], [.nil, b]⟩) ∧
      Facts.SameThreads h.body? h₄.body?)
    ?taken (fun there => there.2.2.2) ?opened ?last ?more ?dropped
  case taken =>
    refine (g.takeChild queue).mono fun front' h₁ ⟨g₁, D, hD, _, hf, e₁⟩ => ?_
    obtain rfl := Option.some_inj.1 (hD.symm.trans hq)
    obtain rfl : front = front' := by simpa using hf
    refine ⟨rfl, g₁, e₁, ?_⟩
    rw [e₁]
    exact Facts.SameThreads.refl.update (by simp [hq])
  case opened =>
    rintro front h₁ ne_nil ⟨rfl, g₁, e₁, same₁⟩
    obtain ⟨v, next, hf, last⟩ := first.resolve_left ne_nil
    have hf₁ : h₁.body? front = some ⟨.linkedList, [], [v, next]⟩ := by
      rw [e₁, Function.update_of_ne (apart ne_nil), hf]
    refine (g₁.takeChild link).mono fun v' h₂ ⟨g₂, D, hD, _, hv, e₂⟩ => ?_
    obtain rfl := Option.some_inj.1 (hD.symm.trans hf₁)
    have hf₂ : h₂.body? front = some ⟨.linkedList, [], [.nil, next]⟩ := by
      rw [e₂, Function.update_self]
      rfl
    refine (g₂.takeChild link).mono fun next' h₃ ⟨g₃, D, hD, _, hn, e₃⟩ => ?_
    obtain rfl := Option.some_inj.1 (hD.symm.trans hf₂)
    obtain rfl : next = next' := by simpa using hn
    refine ⟨rfl, ne_nil, last, g₃, ?_, ?_, ?_⟩
    · rw [e₃, Function.update_self]
      rfl
    · rw [e₃, Function.update_of_ne (apart ne_nil).symm, e₂,
        Function.update_of_ne (apart ne_nil).symm, e₁, Function.update_self]
    · rw [e₃]
      refine Facts.SameThreads.update ?_ (by simp [hf₂])
      rw [e₂]
      exact same₁.update (by simp [hf₁])
  case last =>
    rintro front v h₃ ⟨rfl, ne_nil, last, g₃, bare, hq₃, same₃⟩
    obtain rfl := last rfl
    refine ((g₃.setChild queue).and (g₃.setChild_threads hq₃ (by simp) rfl (by simp))).mono
      fun _ h₄ ⟨⟨g₄, D, d, hD, _, _, sub, _⟩, same₄⟩ => ?_
    obtain rfl := Option.some_inj.1 (hD.symm.trans hq₃)
    refine ⟨rfl, ne_nil, g₄, ?_, ⟨.nil, fun E hE => ?_⟩, same₃.trans same₄⟩
    · refine sub.eq_some (by rw [Function.update_of_ne (apart ne_nil), bare]) ?_
      have live := (g₄.owns.exact.closed (a := back) (by simp)).resolve_left ne_nil
      simp [Heap.body?, Heap.cell?_eq_some.2 ⟨live, rfl⟩]
    · have said := sub hE
      rw [Function.update_self, Option.some_inj] at said
      exact said.symm
  case more =>
    rintro front v next h₃ - ⟨rfl, ne_nil, -, g₃, bare, hq₃, same₃⟩
    exact ⟨rfl, ne_nil, g₃, bare, ⟨back, fun D hD => Option.some_inj.1 (hD.symm.trans hq₃)⟩, same₃⟩
  case dropped =>
    rintro front v next h₄ ⟨rfl, ne_nil, g₄, bare, ⟨b, hq₄⟩, same₄⟩
    exact (dropFront_threads g₄ queue (hq₄ _) bare (apart ne_nil)).mono fun _ _ => same₄.trans

end Queue
end GoMachine
