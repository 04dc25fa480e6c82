import GoMachine.Proofs.Heap.Client
/-!
# What a refused operation leaves behind

An operation on a heap with exact counts that fails leaves the heap as it was, word for word,
whatever its arguments are. There are two exceptions. `setChild` takes its reference to the child
before it looks for the slot, and does not give it back. And a reference that is dropped although
the client does not own it may be missed later in the same cascade, which needs a record that leads
back to itself.

* `Drops.drain`: references can be dropped if the records allow for it, whoever owns them.
* `Exact.drains_slot`: a reference in a slot can be dropped unless its record is on a cycle.
* `Owns.leaves`: what has changed when an operation has failed.
-/
namespace GoMachine
namespace Heap

/-! ## References that nobody owns -/

/-- The records with other addresses in the slots of one of them. -/
def Records.relink (m : Records) (b : Address) (f : List Address → List Address) : Records :=
  Function.update m b ((m b).map fun c => { c with children := f c.children })

variable {P O : Multiset Address} {h h₁ h' : Heap} {m m' : Records} {a b d x : Address} {c o : Cell}
    {t : Tag}
  {i : Nat} {w : UInt64} {l : List Address} {e : HeapError} {op : Op} {f : List Address →
  List Address}

namespace Records

theorem relink_of_ne (hne : a ≠ b) : m.relink b f a = m a := Function.update_of_ne hne ..

/-- Where there is nothing but what was there, slots lead to nothing else. -/
theorem leads_mono (sub : ∀ a c', m' a = some c' → ∃ c, m a = some c ∧ c'.children ⊆ c.children)
    (leads : Relation.ReflTransGen m'.Points a b) : Relation.ReflTransGen m.Points a b := by
  refine Relation.ReflTransGen.mono ?_ a b leads
  rintro y z ⟨c', hc', hz⟩
  obtain ⟨c, hc, within⟩ := sub y c' hc'
  exact ⟨c, hc, within hz⟩

theorem relink_lower (hc : m a = some c) :
    relink (Function.update m a (some { c with count := w })) b f =
    Function.update (m.relink b f) a ((m.relink b f a).map fun c => { c with count := w }) := by
  by_cases same : a = b
  · subst same
    simp [relink, hc]
  · rw [relink_of_ne same, hc, relink, relink, Function.update_of_ne (Ne.symm same),
      Function.update_comm same,
      Option.map_some]

theorem relink_remove (hne : a ≠ b) :
    relink (Function.update m a none) b f = Function.update (m.relink b f) a none := by
  rw [relink, relink, Function.update_of_ne hne.symm, Function.update_comm hne]

end Records

/-- A reference to a record is dropped, in the words of the record. -/
theorem drain_live (s : Sound h) (hl : h.isLive a) : h.drain (a :: l) =
    if (h.cellAt a).count = 0 then .error (.doubleFree a) h
    else if (h.cellAt a).count = 1 ∧ (h.cellAt a).pins = 0 then
      match (h.pool.setWord (a.index + 1) ((h.cellAt a).count - 1)).deallocate a.index with
      | .ok pool => Heap.drain ⟨pool, h.live.erase a.index⟩ ((h.cellAt a).children.reverse ++ l)
      | .error e =>
          .error e ⟨h.pool.setWord (a.index + 1) ((h.cellAt a).count - 1), h.live.erase a.index⟩
    else (h.setWord (a.index + 1) ((h.cellAt a).count - 1)).drain l := by
  rw [drain, if_neg (by simp [s.isNil_eq_false hl]), dif_pos hl]
  rfl

namespace Drops

/-- References can be dropped if the records allow for it, whoever owns them. -/
theorem drain (drops : Drops m l m') (s : Sound h) (cells : h.cell? = m) : ∃ h',
    h.drain l = .ok () h' := by
  induction drops generalizing h with
  | done => exact ⟨h, by rw [Heap.drain]⟩
  | nil _ ih =>
    rw [Heap.drain, if_pos (Address.isNil_iff.2 rfl)]
    exact ih s cells
  | @lower m m' a rest c hc h0 kept _ ih =>
    subst cells
    obtain ⟨hl, rfl⟩ := cell?_eq_some.1 hc
    have u := s.put_count hc ((h.cellAt a).count - 1)
    rw [drain_live s hl, if_neg h0, if_neg kept]
    exact ih u.sound u.cells
  | @release m m' a rest c hc last unpinned _ ih =>
    subst cells
    obtain ⟨hl, rfl⟩ := cell?_eq_some.1 hc
    have u := s.put_count hc ((h.cellAt a).count - 1)
    obtain ⟨q, hq, u'⟩ := u.sound.discarded (a := a) (h := h.setWord (a.index + 1) _) hl
    rw [drain_live s hl, if_neg (by simp [last]), if_pos ⟨last, unpinned⟩,
      show (h.pool.setWord _ _).deallocate a.index = .ok q from hq]
    exact ih u'.sound (u.trans u').cells

/-- What goes away was there, and slots lead to it from a reference that is dropped. -/
theorem reached (drops : Drops m l m') (here : m x ≠ none) (gone : m' x = none) :
    ∃ b ∈ l, Relation.ReflTransGen m.Points b x := by
  induction drops with
  | done => exact absurd gone here
  | nil _ ih =>
    obtain ⟨b, hb, leads⟩ := ih here gone
    exact ⟨b, List.mem_cons_of_mem _ hb, leads⟩
  | @lower m m' a rest c hc _ _ _ ih =>
    obtain ⟨b, hb, leads⟩ := ih (by grind) gone
    refine ⟨b, List.mem_cons_of_mem _ hb, Records.leads_mono (fun y c' hy => ?_) leads⟩
    by_cases hne : y = a
    · subst hne
      obtain rfl : { c with count := c.count - 1 } = c' := by simpa using hy
      exact ⟨c, hc, List.Subset.refl _⟩
    · exact ⟨c', by rwa [Function.update_of_ne hne] at hy, List.Subset.refl _⟩
  | @release m m' a rest c hc _ _ _ ih =>
    by_cases same : x = a
    · exact ⟨a, List.mem_cons_self, same ▸ .refl⟩
    obtain ⟨b, hb, leads⟩ := ih (by rwa [Function.update_of_ne same]) gone
    have leads := Records.leads_mono (m := m) (fun y c' hy => ⟨c', by grind, List.Subset.refl _⟩)
      leads
    rcases List.mem_append.1 hb with hb | hb
    · exact ⟨a, List.mem_cons_self, .head ⟨c, hc, List.mem_reverse.1 hb⟩ leads⟩
    · exact ⟨b, List.mem_cons_of_mem _ hb, leads⟩

/-- What stands in the slots of a record that stays does not matter. -/
theorem relink (drops : Drops m l m') (stays : m' b ≠ none) :
    Drops (m.relink b f) l (m'.relink b f) := by
  induction drops with
  | done => exact .done
  | nil _ ih => exact .nil (ih stays)
  | @lower m m' a rest c hc h0 kept _ ih =>
    have ih := ih stays
    rw [Records.relink_lower hc] at ih
    by_cases same : a = b
    · subst same
      have here : m.relink a f a = some { c with children := f c.children } := by
        simp [Records.relink, hc]
      rw [here] at ih
      exact .lower here h0 kept ih
    · rw [Records.relink_of_ne same, hc] at ih
      exact .lower ((Records.relink_of_ne same).trans hc) h0 kept ih
  | @release m m' a rest c hc last unpinned rests ih =>
    have apart : a ≠ b := by
      rintro rfl
      obtain ⟨c', hc'⟩ := Option.ne_none_iff_exists'.1 stays
      obtain ⟨c, hc, -⟩ := rests.sameAt a c' hc'
      simp at hc
    have ih := ih stays
    rw [Records.relink_remove apart] at ih
    exact .release ((Records.relink_of_ne apart).trans hc) last unpinned ih

end Drops

/-- The reference in a slot can be dropped, whatever stands in the slot afterwards, unless the
record that it refers to is on a cycle. -/
theorem Exact.drains_slot (x : Exact P O h) (hc : h.cell? b = some o)
    (hold : o.children[i]? = some a)
    (acyclic : ¬Relation.TransGen h.Points a a) (s : Sound h₁)
    (cells : h₁.cell? = Function.update h.cell? b
    (some { o with children := o.children.set i d })) :
    ∃ h', h₁.drain [a] = .ok () h' := by
  -- the slot is emptied first, and its reference is the client's
  have widened : Exact P (.nil ::ₘ O) h := x.congr fun y hy => Multiset.count_cons_of_ne hy O
  obtain ⟨-, -, emptied, u⟩ := Holds.put_child widened hc hold
  obtain ⟨h', run, -⟩ := emptied.free
  have drops := u.sound.drain_drops run
  rw [u.cells] at drops
  obtain ⟨hi, ha⟩ := List.getElem?_eq_some_iff.1 hold
  by_cases stays : h'.cell? b = none
  · -- the cascade has come to the record with the slot
    refine absurd ?_ acyclic
    obtain ⟨y, hy, leads⟩ := drops.reached (x := b) (by simp) stays
    obtain rfl := List.mem_singleton.1 hy
    refine .tail' ?_ ⟨o, hc, ha ▸ List.getElem_mem hi⟩
    clear hy hold acyclic emptied run drops ha
    induction leads using Relation.ReflTransGen.head_induction_on with
    | refl => exact .refl
    | @head y z points _ ih =>
      by_cases same : y = b
      · exact same ▸ .refl
      · obtain ⟨c, hy, hz⟩ := points
        exact .head ⟨c, by rwa [Function.update_of_ne same] at hy, hz⟩ ih
  · have filled := drops.relink (f := fun cs => cs.set i d) stays
    have same : Records.relink
      (Function.update h.cell? b (some { o with children := o.children.set i .nil })) b
        (fun cs => cs.set i d) = h₁.cell? := by
      simp [Records.relink, cells]
    exact (same ▸ filled).drain s rfl

/-! ## Operations that fail -/

/-- A computation that fails has changed nothing. -/
def Refuses {ε σ α : Type} (act : EStateM ε σ α) (s : σ) : Prop := ∀ e s', act s = .error e s' →
    s' = s

namespace Refuses

variable {ε σ α β : Type} {act : EStateM ε σ α} {g : α → EStateM ε σ β} {s : σ} {Q : α → σ → Prop}

theorem of_ok {r : α} {t : σ} (run : act s = .ok r t) : Refuses act s := by
  rintro e s'' run'
  rw [run] at run'
  cases run'

theorem of_gives (done : Gives act s Q) : Refuses act s := by
  obtain ⟨r, s', run, -⟩ := done
  exact .of_ok run

theorem of_error {e : ε} (run : act s = .error e s) : Refuses act s := by
  rintro e' s' run'
  rw [run] at run'
  cases run'
  rfl

/-- Something that does not fail comes after. -/
theorem before (first : Refuses act s) (rest : ∀ r s', act s = .ok r s' → Gives (g r) s' fun _ _ =>
    True) :
    Refuses (act >>= g) s := by
  cases ran : act s with
  | ok r s₁ =>
    obtain ⟨r', s₂, run, -⟩ := rest r s₁ ran
    exact .of_ok (bind_ok.2 ⟨r, s₁, ran, run⟩)
  | error e s₁ =>
    obtain rfl := first _ _ ran
    exact .of_error (bind_error ran)

end Refuses

/-- A question comes first. -/
theorem refuses_ask {α β : Type} {q : Heap → Except HeapError α} {g : α → HeapM β}
    (rest : ∀ r, q h = .ok r → Refuses (g r) h) : Refuses (HeapM.ask q >>= g) h := by
  cases asked : q h with
  | ok r =>
    rintro e h' run
    rw [ask_bind asked] at run
    exact rest r asked e h' run
  | error e => exact .of_error (e := e) (bind_error (by simp [HeapM.ask, asked]))

/-- An operation drops a reference to a record: the one that it is about, or the one in the slot
that it fills. -/
inductive Op.Loses (m : Records) : Op → Address → Prop
  | free {a : Address} : Loses m (.free a) a
  | slot {a b d : Address} {o : Cell} {i : Nat} : m b = some o → o.children[i]? = some a →
      Loses m (.setChildOwned b o.tag i d) a

/-- What is left of a heap when an operation of a client that owns `O` has failed. -/
inductive Remains (O : Multiset Address) (h : Heap) : Op → Heap → Prop
  /-- Everything is as it was, down to the words of the pool. -/
  | same {op : Op} : Remains O h op h
  /-- There is no such slot, and `setChild` has counted a reference to the child. -/
  | counted {a c : Address} {o : Cell} {t : Tag} {i : Nat} : h.cell? c = some o →
      (¬∃ p, h.cell? a = some p ∧ p.tag = t ∧ i < p.children.length) →
      Remains O h (.setChild a t i c) (h.setWord (c.index + 1) (o.count + 1))
  /-- The client has given up a reference that it does not own, and a record on a cycle has lost
  one. -/
  | stray {op : Op} {a : Address} {h' : Heap} : ¬op.Entitled O → op.Loses h.cell? a →
      Relation.TransGen h.Points a a → Remains O h op h'

theorem Remains.of_refuses (refuses : Refuses op.run h) (run : op.run h = .error e h') :
    Remains O h op h' := by
  rw [refuses e h' run]
  exact .same

/-- A reference to a record can be dropped, unless the client does not own it and the record is on a
cycle. -/
theorem Exact.free_refuses (x : Exact P O h) (acyclic : ¬Op.Entitled O (.free a) →
    ¬Relation.TransGen h.Points a a) :
    Refuses (HeapM.free a) h := by
  by_cases mine : a = .nil ∨ a ∈ O
  · obtain ⟨h', run, -⟩ := (x.split mine).free
    exact .of_ok run
  by_cases hl : h.isLive a
  swap
  · refine .of_error (e := .released a) ?_
    rw [HeapM.free, Heap.drain, if_neg fun n => mine (.inl (Address.isNil_iff.1 n)), dif_neg hl]
  have hc := cell?_eq_some.2 ⟨hl, rfl⟩
  by_cases h0 : (h.cellAt a).count = 0
  · exact .of_error (e := .doubleFree a) (by rw [HeapM.free, drain_live x.sound hl, if_pos h0])
  · -- the references that are counted stand in slots
    have counted := x.count hc
    rw [Multiset.count_add, Multiset.count_eq_zero_of_notMem fun owned => mine (.inr owned),
      zero_add] at counted
    have slotted : a ∈ h.edges := by
      rw [← Multiset.count_pos, ← counted]
      exact Nat.pos_of_ne_zero fun e => h0 (UInt64.toNat_inj.1 e)
    obtain ⟨b, o, hb, ha⟩ := mem_edges.1 slotted
    obtain ⟨i, hi, hold⟩ := List.getElem_of_mem ha
    have hold : o.children[i]? = Option.some a := by rw [List.getElem?_eq_getElem hi, hold]
    obtain ⟨h', run⟩ := x.drains_slot (d := a) hb hold (acyclic mine) x.sound (by
      obtain ⟨hi, here⟩ := List.getElem?_eq_some_iff.1 hold
      rw [← here, List.set_getElem_self, eq_comm, Function.update_eq_self_iff, hb])
    exact .of_ok run

theorem Exact.setChildOwned_refuses (x : Exact P O h)
    (acyclic : ¬Op.Entitled O (.setChildOwned a t i d) →
    ∀ b, Op.Loses h.cell? (.setChildOwned a t i d) b →
      ¬Relation.TransGen h.Points b b) : Refuses (HeapM.setChildOwned a t i d) h := by
  cases asked : h.childSlot a t i with
  | error e => exact .of_error (e := e) (bind_error (by simp [HeapM.ask, asked]))
  | ok slot =>
    obtain ⟨o, ho, rfl, hslot, hold⟩ := x.sound.childSlot_word asked
    by_cases mine : d = .nil ∨ d ∈ O
    · exact .of_gives ((x.split mine).setChildOwned ho hold)
    obtain ⟨hi, -⟩ := List.getElem?_eq_some_iff.1 hold
    have u := x.sound.put_slot (w := d.toWord) ho hi
    rw [← hslot] at u
    obtain ⟨h', run⟩ := x.drains_slot ho hold (acyclic mine _ (.slot ho hold)) u.sound u.cells
    refine .of_ok (r := ()) (t := h') ?_
    rw [HeapM.setChildOwned, ask_bind asked]
    exact (run_bind (modifyGet_ok.2 rfl)).trans run

theorem Owns.copy_refuses (own : Owns P 0 O h) : Refuses (HeapM.copy a) h := by
  cases hc : Records.look h.cell? a with
  | none =>
    obtain ⟨e, run⟩ := own.exact.sound.copy_dead hc
    exact .of_error run
  | some c =>
    obtain ⟨-, -, made⟩ | ⟨e, run, -⟩ :=
      @Exact.allocate P O h c.tag own.exact c.fields.length c.children.length
    · exact .of_gives (own.copies hc made)
    · exact .of_error (own.exact.sound.copy_error hc run)

theorem Exact.unpin_refuses (x : Exact P O h) : Refuses (HeapM.unpin a) h := by
  by_cases hn : a.isNil
  · exact .of_ok (r := ()) (t := h) (by simp [HeapM.unpin, hn, pure, EStateM.pure])
  by_cases hl : h.isLive a
  swap
  · exact .of_error (e := .released a)
      (by simp [HeapM.unpin, hn, HeapM.ask, header, hl, bind, EStateM.bind])
  have hc := cell?_eq_some.2 ⟨hl, rfl⟩
  by_cases h0 : (h.headerAt a).pins = 0
  · refine .of_error (e := .unbalancedUnpin a) ?_
    rw [HeapM.unpin, if_neg hn, ask_bind (header_of_isLive hl), if_pos h0]
    rfl
  by_cases last : (h.cellAt a).pins = 1 ∧ (h.cellAt a).count = 0
  · exact .of_gives (x.unpin_last hl last.1 last.2)
  · obtain ⟨h₁, run₁, u, -⟩ := x.sound.setPins hc ((h.headerAt a).pins - 1)
    have count := u.sound.refCount_ok.2 (.inr ⟨_, u.cell?_self, rfl⟩)
    refine .of_ok (r := ()) (t := h₁) ?_
    rw [HeapM.unpin, if_neg hn, ask_bind (header_of_isLive hl), if_neg h0]
    refine bind_ok.2 ⟨(), h₁, run₁, ?_⟩
    rw [ask_bind count]
    exact congrFun (if_neg last) h₁

/-- A reference to a record is counted. -/
theorem reference_live (s : Sound h) (hc : h.cell? a = some o) :
    HeapM.reference a h = .ok a (h.setWord (a.index + 1) (o.count + 1)) := by
  have hl := (cell?_eq_some.1 hc).1
  rw [HeapM.reference, if_neg (by simp [s.isNil_eq_false hl]),
    ask_bind (s.refCount_ok.2 (.inr ⟨o, hc, rfl⟩))]
  rfl

/-- A `setChild` that fails has changed nothing, or there is no such slot. -/
theorem Owns.setChild_remains (own : Owns P 0 O h) (run : HeapM.setChild a t i d h = .error e h') :
    Remains O h (.setChild a t i d) h' := by
  have s := own.exact.sound
  by_cases hn : d = .nil
  · subst hn
    have taken : HeapM.reference .nil h = .ok .nil h := rfl
    rw [HeapM.setChild, run_bind taken] at run
    rw [own.exact.setChildOwned_refuses (fun not => absurd (.inl rfl) not) _ _ run]
    exact .same
  by_cases hl : h.isLive d
  swap
  · obtain ⟨taken, -⟩ := reference_dead (not_or.2 ⟨hn, hl⟩)
    rw [HeapM.setChild, bind_error taken] at run
    cases run
    exact .same
  · obtain ⟨k, hd⟩ : ∃ k, h.cell? d = some k := ⟨_, cell?_eq_some.2 ⟨hl, rfl⟩⟩
    have x := own.exact.gain hd (own.count_lt hd)
    rw [HeapM.setChild, run_bind (reference_live s hd)] at run
    have mine : Op.Entitled (d ::ₘ O) (.setChildOwned a t i d) := .inr (Multiset.mem_cons_self d O)
    have refuses := x.setChildOwned_refuses (a := a) (t := t) (i := i) fun not => absurd mine not
    obtain rfl := refuses e h' run
    refine .counted hd ?_
    rintro ⟨p, hp, rfl, hi⟩
    -- the slot is still there when the reference is counted
    have u := s.put_count hd (k.count + 1)
    obtain ⟨q, hq, tag, kids⟩ : ∃ q, (h.setWord (d.index + 1) (k.count + 1)).cell? a = some q ∧
        q.tag = p.tag ∧ q.children = p.children := by
      by_cases same : a = d
      · subst same
        obtain rfl := Option.some_inj.1 (hd.symm.trans hp)
        exact ⟨_, u.cell?_self, rfl, rfl⟩
      · exact ⟨p, by rw [u.cell?_of_ne same, hp], rfl, rfl⟩
    obtain ⟨_, _, run', -⟩ := x.setChildOwned hq (List.getElem?_eq_getElem (by rwa [kids]))
    rw [tag, run] at run'
    cases run'

/-- What an operation of a client leaves behind when it fails, whatever its arguments are. -/
theorem Owns.remains (own : Owns P 0 O h) (call : ∀ roots, op ≠ .sweep roots)
    (run : op.run h = .error e h') :
    Remains O h op h' := by
  have x := own.exact
  -- a reference is dropped to no record on a cycle, or it is the client's
  have honest (not : ¬∃ a, ¬op.Entitled O ∧ op.Loses h.cell? a ∧ Relation.TransGen h.Points a a)
      (refuses : (∀ a, ¬op.Entitled O → op.Loses h.cell? a → ¬Relation.TransGen h.Points a a) →
        Refuses op.run h) : Remains O h op h' :=
    .of_refuses (refuses fun a stray loses cycle => not ⟨a, stray, loses, cycle⟩) run
  by_cases stray : ∃ a, ¬op.Entitled O ∧ op.Loses h.cell? a ∧ Relation.TransGen h.Points a a
  · obtain ⟨a, not, loses, cycle⟩ := stray
    exact .stray not loses cycle
  cases op with
  | read q a =>
    refine .of_refuses ?_ run
    change Refuses (HeapM.ask (q.ask a)) h
    simpa using refuses_ask (q := q.ask a) (g := pure) fun r _ => .of_ok rfl
  | allocate t fields children =>
    exact .of_refuses (Refuses.before (fun e h' run => Owns.allocate_error run) fun _ _ _ =>
      .pure trivial) run
  | setField a t i w =>
    exact .of_refuses (Refuses.before (refuses_ask fun _ _ => .of_ok rfl) fun _ _ _ =>
      .pure trivial) run
  | setChild a t i d =>
    have failed : HeapM.setChild a t i d h = .error e h' := by
      cases ran : HeapM.setChild a t i d h with
      | ok r h₁ =>
        rw [Op.run, run_bind ran] at run
        cases run
      | error e₁ h₁ =>
        rw [Op.run, bind_error ran] at run
        cases run
        rfl
    exact own.setChild_remains failed
  | setChildOwned a t i d =>
    exact honest stray fun acyclic => Refuses.before
      (x.setChildOwned_refuses fun not b loses => acyclic b not loses) fun _ _ _ => .pure trivial
  | takeChild a t i =>
    exact .of_refuses (Refuses.before (refuses_ask fun _ _ => .of_ok rfl) fun _ _ _ =>
      .pure trivial) run
  | reference a =>
    refine .of_refuses (Refuses.before ?_ fun _ _ _ => .pure trivial) run
    unfold HeapM.reference
    split
    · exact .of_ok rfl
    · exact refuses_ask fun _ _ => .of_ok rfl
  | free a =>
    exact honest stray fun acyclic => Refuses.before (x.free_refuses fun not => acyclic a not .free)
      fun _ _ _ => .pure trivial
  | copy a => exact .of_refuses (Refuses.before own.copy_refuses fun _ _ _ => .pure trivial) run
  | pin a =>
    refine .of_refuses (Refuses.before ?_ fun _ _ _ => .pure trivial) run
    unfold HeapM.pin
    split
    · exact .of_ok rfl
    · refine refuses_ask fun _ _ => ?_
      dsimp only
      split
      · exact .of_error rfl
      · exact refuses_ask fun _ _ => .of_ok rfl
  | unpin a => exact .of_refuses (Refuses.before x.unpin_refuses fun _ _ _ => .pure trivial) run
  | sweep roots => exact absurd rfl (call roots)

/-- The calls of a client that puts a number into a list twice and asks for a third slot. -/
def remainsRun : Bool :=
  match Heap.new 64 with
  | .error _ => false
  | .ok h₀ => match (Op.allocate .int32 1 0).run h₀ with
    | .ok (.address a) h₁ => match (Op.allocate .linkedList 0 2).run h₁ with
      | .ok (.address b) h₂ => match (Op.setChild b .linkedList 0 a).run h₂ with
        | .ok .done h₃ => match (Op.setChild b .linkedList 1 a).run h₃ with
          | .ok .done h => h.children b = .ok [a, a] ∧
            h.childSlot b .linkedList 2 = .error (.childOutOfRange b .linkedList 2 2)
          | _ => false
        | _ => false
      | _ => false
    | _ => false

/-- A client that has two numbers in a list asks for a third slot. -/
theorem remains_without_slot : ∃ P O h a b, Owns P 0 O h ∧ a ∈ O ∧ h.children b = .ok [a, a] ∧
    (∀ roots, Op.setChildOwned b .linkedList 2 a ≠ .sweep roots) ∧
    (Op.setChildOwned b .linkedList 2 a).run h = .error (.childOutOfRange b .linkedList 2 2) h ∧
    Remains O h (.setChildOwned b .linkedList 2 a) h := by
  have ran : remainsRun = true := by decide +kernel
  unfold remainsRun at ran
  split at ran
  · cases ran
  next h₀ made =>
  split at ran
  case h_2 => cases ran
  next a h₁ ran₁ =>
  split at ran
  case h_2 => cases ran
  next b h₂ ran₂ =>
  split at ran
  case h_2 => cases ran
  next h₃ ran₃ =>
  split at ran
  case h_2 => cases ran
  next h ran₄ =>
  obtain ⟨linked, asked⟩ := of_decide_eq_true ran
  let k₀ : Client := ⟨h₀, 0, 0, Client.count_le_limit (by decide)⟩
  let k₁ : Client := ⟨h₁, {a}, 0, Client.count_le_limit (by simp)⟩
  let k₂ : Client := ⟨h₂, {b, a}, 0, Client.count_le_limit (by simp)⟩
  let k₃ : Client := ⟨h₃, {b, a}, 0, Client.count_le_limit (by simp)⟩
  let k : Client := ⟨h, {b, a}, 0, Client.count_le_limit (by simp)⟩
  have reached : k₀.Reached := .new made rfl rfl
  have reached : k₁.Reached := .step reached (.done ran₁ rfl rfl) trivial
  have reached : k₂.Reached := .step reached (.done ran₂ rfl rfl) trivial
  have reached : k₃.Reached := .step reached (.done ran₃ rfl rfl) trivial
  have reached : k.Reached := .step reached (.done ran₄ rfl rfl) trivial
  have own : Owns 0 0 {b, a} h := Client.owns reached.exact
  have run : (Op.setChildOwned b .linkedList 2 a).run h = .error
    (.childOutOfRange b .linkedList 2 2) h :=
    bind_error (bind_error (by simp [HeapM.ask, asked]))
  have call : ∀ roots, Op.setChildOwned b .linkedList 2 a ≠ .sweep roots := by rintro roots ⟨⟩
  exact ⟨0, {b, a}, h, a, b, own, by simp, linked, call, run, own.remains call run⟩

/-- A setter that is refused, for want of such a record, has changed the count of another one. -/
theorem refused_setter_counts : ∃ h₀ h₁ h₂ h₃ h₄ a b, Heap.new 64 = .ok h₀ ∧
    HeapM.allocate .int32 1 0 h₀ = .ok a h₁ ∧ HeapM.allocate .linkedList 0 2 h₁ = .ok b h₂ ∧
    HeapM.free b h₂ = .ok () h₃ ∧ HeapM.setChild b .linkedList 0 a h₃ = .error (.released b) h₄ ∧
    h₃.refCount a = .ok 1 ∧ h₄.refCount a = .ok 2 := by
  have ran : (match Heap.new 64 with
    | .error _ => false
    | .ok h₀ => match HeapM.allocate .int32 1 0 h₀ with
      | .error _ _ => false
      | .ok a h₁ => match HeapM.allocate .linkedList 0 2 h₁ with
        | .error _ _ => false
        | .ok b h₂ => match HeapM.free b h₂ with
          | .error _ _ => false
          | .ok _ h₃ => match HeapM.setChild b .linkedList 0 a h₃ with
            | .ok _ _ => false
            | .error e h₄ =>
                e = .released b ∧ h₃.refCount a = .ok 1 ∧ h₄.refCount a = .ok 2) = true := by
    decide +kernel
  split at ran
  · cases ran
  next h₀ made =>
  split at ran
  · cases ran
  next a h₁ ran₁ =>
  split at ran
  · cases ran
  next b h₂ ran₂ =>
  split at ran
  · cases ran
  next h₃ ran₃ =>
  split at ran
  · cases ran
  next e h₄ ran₄ =>
  obtain ⟨rfl, before, after⟩ := of_decide_eq_true ran
  exact ⟨h₀, h₁, h₂, h₃, h₄, a, b, made, ran₁, ran₂, ran₃, ran₄, before, after⟩

end Heap
end GoMachine
