import GoMachine.Proofs.Schedule.Tame
/-!
# Writing the records of the scheduler

What the primitives of the heap do to the records that `Orderly` tells about, and to the references
to them and to threads that the machine owns. A thread that moves into a slot is named by `Joins`:
no other thread gets into more slots than before.
-/
namespace GoMachine
namespace Heap

variable {K : Set Address} {F J : Facts} {C O L : Multiset Address} {n : Nat} {h h₁ h' : Heap}
  {a b u v x : Address} {B : Body} {t : Tag} {fs : List UInt64} {cs : List Address} {i : Nat}
  {w : UInt64}

/-- Nothing personal has come up, and no thread but one has got into more slots. -/
structure Joins (v : Address) (h h' : Heap) : Prop where
  personal : ∀ {t u}, t.isPersonal → h'.HasTag t u → h.HasTag t u
  slots : ∀ {u}, u ≠ v → h'.HasTag .thread u → h'.edges.count u ≤ h.edges.count u

namespace Later

theorem joins (l : Later h h') : Joins v h h' := ⟨l.personal, fun _ => l.slots⟩

/-- A thread in no slot stays in none. -/
theorem idle (l : Later h h') (zero : h.edges.count u = 0) (k : h'.HasTag .thread u) :
    h'.edges.count u = 0 := by
  have := l.slots k
  omega

end Later

namespace Joins

theorem plain (j : Joins v h h') (ha : h.Plain F a) : h'.Plain F a :=
  ⟨ha.1, fun hp => ha.2 (hp.imp_right fun ⟨t, ht, k⟩ => ⟨t, ht, j.personal ht k⟩)⟩

theorem trans (j₁ : Joins v h h₁) (j : Joins v h₁ h') : Joins v h h' :=
  ⟨fun ht k => j₁.personal ht (j.personal ht k),
    fun ne k => (j.slots ne k).trans (j₁.slots ne (j.personal rfl k))⟩

/-- What is no thread does not matter. -/
theorem later (j : Joins v h h') (hv : ¬h.HasTag .thread v) : Later h h' :=
  ⟨j.personal, fun k => j.slots (fun e => hv (e ▸ j.personal rfl k)) k⟩

end Joins

namespace Orderly

theorem not_thread (o : Orderly K F O L h) (hB : F a = some B) : ¬h.HasTag .thread a := fun k => by
  rw [o.none_of_tag k rfl] at hB
  cases hB

theorem none_of_dead (o : Orderly K F O L h) (dead : h.isLive a = false) : F a = none :=
  not_not.1 fun known => o.not_private_of_dead dead (.inl known)

/-- A thread that the machine owns stays one. -/
theorem still_thread (o : Orderly K F O L h') (l : Later h h') (k : h.HasTag .thread a) (ha : a ∈ O)
    (hn : a ≠ .nil) (unknown : F a = none) : h'.HasTag .thread a := by
  rcases (o.owned ha).resolve_left hn with known | ⟨t, ht, k'⟩
  · exact absurd unknown known
  · rwa [(l.personal ht k').unique k] at k'

/-- Owning nil is owning nothing. -/
theorem cons_nil : Orderly K F (.nil ::ₘ O) L h ↔ Orderly K F O L h := by
  have count : ∀ (o : h.Sound) {a : Address} {c}, h.cell? a = some c →
      (L + (.nil ::ₘ O) + h.edges).count a = (L + O + h.edges).count a := by
    intro s a c hc
    have := s.ne_nil (cell?_eq_some.1 hc).1
    simp only [Multiset.count_add, Multiset.count_cons_of_ne this]
  constructor
  · refine fun o => ⟨o.sound, o.body, o.internal, o.held.drop (.inl ?_), fun ha =>
      o.owned (by simp [ha]),
      fun hp hc => (count o.sound hc) ▸ o.count hp hc, o.fits, o.inner, o.once⟩
    exact o.none_of_dead o.sound.not_isLive_nil
  · refine fun o => ⟨o.sound, o.body, o.internal, o.held.anti (Multiset.le_cons_self O _), fun ha =>
      ?_,
      fun hp hc => (count o.sound hc).symm ▸ o.count hp hc, o.fits, o.inner, o.once⟩
    exact (Multiset.mem_cons.1 ha).elim .inl o.owned

/-- A reference is given up that something else makes up for. -/
theorem loosen (o : Orderly K F (a ::ₘ O) L h)
    (still : F a = none ∨ a ∈ O ∨ ∃ d D, F d = some D ∧ a ∈ D.children) :
    Orderly K F O (a ::ₘ L) h :=
  ⟨o.sound, o.body, o.internal, o.held.drop still, fun ha => o.owned (by simp [ha]), fun hp hc => by
    rw [o.count hp hc, Multiset.add_cons, Multiset.cons_add, Multiset.cons_add, Multiset.cons_add],
    o.fits, o.inner, o.once⟩

theorem free (o : Orderly K F (a ::ₘ O) 0 h)
    (still : F a = none ∨ a ∈ O ∨ ∃ d D, F d = some D ∧ a ∈ D.children) :
    Yields (HeapM.free a) h fun _ h' => Orderly K F O 0 h' ∧ Later h h' := fun _ _ run =>
  ((o.loosen still).drain (l := [a]) run).imp_right And.left

theorem setField (o : Orderly K F O 0 h) (hB : F a = some ⟨t, fs, cs⟩) (hi : i < fs.length) :
    Yields (HeapM.setField a t i w) h fun _ h' =>
      Orderly K (Function.update F a (some ⟨t, fs.set i w, cs⟩)) O 0 h' ∧ Later h h' := by
  refine Yields.ask fun slot e => ?_
  obtain ⟨c, hc, -, -, rfl⟩ := o.sound.fieldSlot_ok.1 e
  obtain ⟨c', hc', e'⟩ := o.cell hB
  obtain rfl : c = c' := by simpa [hc] using hc'
  cases e'
  refine .modify (o.put_field hc hi (fun b hb => Function.update_of_ne hb ..) ?_ ?_)
  · rw [Function.update_self, hB]
    rfl
  · exact o.held.update hB (fun b hb => .inl hb) fun b hb hnb => absurd hb hnb

/-- A reference to something private is taken. -/
theorem reference (o : Orderly K F O 0 h) (own : Owns 0 n C h) (ha : h.Private F a) :
    Yields (HeapM.reference a) h fun b h' => b = a ∧ Orderly K F (a ::ₘ O) 0 h' ∧ Later h h' ∧
      ∀ {t b}, h'.HasTag t b ↔ h.HasTag t b := by
  unfold HeapM.reference
  split
  · next hn =>
    obtain rfl := Address.isNil_iff.1 hn
    exact absurd ha o.not_private_nil
  · refine Yields.ask fun count e => ?_
    rcases o.sound.refCount_ok.1 e with ⟨rfl, -⟩ | ⟨c, hc, rfl⟩
    · exact absurd ha o.not_private_nil
    have grows : (c.count + 1).toNat = c.count.toNat + 1 := by
      rw [UInt64.toNat_add]
      exact Nat.mod_eq_of_lt (own.count_lt hc)
    refine (Yields.modify (Q := fun _ h' => Orderly K F (a ::ₘ O) 0 h' ∧ Later h h' ∧
      ∀ {t b}, h'.HasTag t b ↔ h.HasTag t b) ?_).bind fun _ h' done => .pure ⟨rfl, done⟩
    have := o.put_count (w := c.count + 1) hc (P := a ::ₘ O) (M := 0)
      (o.held.anti (Multiset.le_cons_self O a)) (fun b hb => ?_) (fun b hb => ?_) fun _ => ?_
    · exact ⟨this.1, this.2, (o.sound.put_count hc _).hasTag_iff hc rfl⟩
    · exact (Multiset.mem_cons.1 hb).elim (fun e => .inr (e ▸ ha)) o.owned
    · rw [zero_add, zero_add, Multiset.count_cons_of_ne hb]
    · rw [grows, o.count ha hc, zero_add, zero_add, Multiset.cons_add, Multiset.count_cons_self]

/-- An owned reference moves into a slot of a known record. -/
theorem setChildOwned (o : Orderly K F (b ::ₘ O) 0 h) (hB : F a = some ⟨t, fs, cs⟩)
    (hx : cs[i]? = some x)
    (still : Function.update F a (some ⟨t, fs, cs.set i b⟩) x = none ∨ x ∈ O ∨
      ∃ d D, Function.update F a (some ⟨t, fs, cs.set i b⟩) d = some D ∧ x ∈ D.children)
    (kind : b = .nil ∨ F b ≠ none ∨ h.HasTag .thread b ∧ h.edges.count b = 0) :
    Yields (HeapM.setChildOwned a t i b) h fun _ h' =>
      Orderly K (Function.update F a (some ⟨t, fs, cs.set i b⟩)) O 0 h' ∧ Joins b h h' := by
  refine Yields.ask fun slot e => ?_
  obtain ⟨c, hc, -, rfl, old⟩ := o.sound.childSlot_word e
  obtain ⟨c', hc', e'⟩ := o.cell hB
  obtain rfl : c = c' := by simpa [hc] using hc'
  cases e'
  obtain rfl : Address.ofWord (h.pool.word (a.index + 2 + c.fields.length + i)) = x := by
    simpa [old] using hx
  have small : b.index < 2 ^ 32 := by
    rcases o.owned (Multiset.mem_cons_self b O) with rfl | hp
    · decide
    · have := o.sound.serves.lt_two_pow (isLive_iff.1 (o.isLive_of_private hp))
      omega
  have replaced := Holds.held_set o.held hB hx still
  have idle : h.HasTag .thread b → h.edges.count b = 0 := fun k => by
    rcases kind with rfl | known | ⟨-, zero⟩
    · exact absurd rfl (o.sound.ne_nil k.isLive)
    · exact absurd (o.none_of_tag k rfl) known
    · exact zero
  let J := Function.update F a (some ⟨c.tag, c.fields, c.children.set i b⟩)
  have here : J a = (F a).map fun _ => { c with children := c.children.set i b }.body := by
    simp [J, hB, Cell.body]
  obtain ⟨o₁, count⟩ := o.put_child (J := J)
    (M := {.ofWord (h.pool.word (a.index + 2 + c.fields.length + i))}) hc old small
    (fun b hb => Function.update_of_ne hb ..) here replaced (fun b hb => o.owned (by simp [hb]))
    (fun hn => by simp [hn] at hB) (fun _ => kind.imp_right (.imp_right And.left)) (fun y _ => by
      rw [zero_add, Multiset.singleton_add, Multiset.cons_swap]) fun k => .inl (idle k)
  have u := o.sound.put_child (b := b) hc (List.getElem?_eq_some_iff.1 old).1 small
  have j : Joins b h (h.setWord (a.index + 2 + c.fields.length + i) b.toWord) :=
    ⟨fun _ k => (u.hasTag_iff hc rfl).1 k, fun {v} ne _ => by
      have := count v
      rwa [if_neg ne] at this⟩
  refine (Yields.modifyGet (Q := fun old h₁ =>
    Orderly K (Function.update F a (some ⟨c.tag, c.fields,
    c.children.set i b⟩)) O {old} h₁ ∧ Joins b h h₁) ⟨o₁, j⟩).bind ?_
  rintro old h₁ ⟨o₁, j⟩
  intro _ h' run
  obtain ⟨o', l, -⟩ := o₁.drain (l := [old]) run
  exact ⟨o', j.trans l.joins⟩

/-- A reference moves out of a slot, to the machine. -/
theorem vacate {c : Cell} (o : Orderly K F O 0 h) (hc : h.cell? a = some c)
    (hx : c.children[i]? = some x) (kind : x = .nil ∨ h.Private F x) (same : ∀ b, b ≠ a → J b = F b)
    (here : J a = (F a).map fun _ => { c with children := c.children.set i .nil }.body)
    (held : Held J (x ::ₘ O)) :
    Orderly K J (x ::ₘ O) 0 (h.setWord (a.index + 2 + c.fields.length + i) Address.nil.toWord) ∧
      Later h (h.setWord (a.index + 2 + c.fields.length + i) Address.nil.toWord) ∧
      (x ≠ .nil → (h.setWord (a.index + 2 + c.fields.length + i) Address.nil.toWord).edges.count
      x + 1 =
        h.edges.count x) := by
  have some_ne : ∀ y, h.Private F y → y ≠ .nil := fun y hy e => o.not_private_nil (e ▸ hy)
  obtain ⟨o₁, count⟩ := o.put_child (b := .nil) (J := J) (P := x ::ₘ O) (M := 0) hc hx (by decide)
    same here held (fun b hb => (Multiset.mem_cons.1 hb).elim (fun e => e ▸ kind) o.owned)
    (fun hn => by
      have hidden := o.not_private_nil
      unfold Fits
      split_ifs
      · exact .inl rfl
      · exact .inl rfl
      · exact .inl rfl
      · exact hidden) (fun _ => .inl rfl)
    (fun y hy => by rw [zero_add, zero_add, Multiset.count_cons_of_ne (some_ne y hy)])
    fun k => absurd (k.personal rfl) fun k => o.not_private_nil (.inr k)
  have u := o.sound.put_child (b := .nil) hc (List.getElem?_eq_some_iff.1 hx).1 (by decide)
  refine ⟨o₁, ⟨fun _ k => (u.hasTag_iff hc rfl).1 k, fun {v} k => ?_⟩, fun hne => ?_⟩
  · have ne : v ≠ .nil := u.sound.ne_nil k.isLive
    have := count v
    rwa [if_neg ne] at this
  · have moved := congrArg (Multiset.count x) (u.edges_set hc hx)
    rwa [Multiset.count_cons_self, Multiset.count_cons_of_ne hne] at moved

/-- A reference moves out of a slot of a known record. -/
theorem takeChild (o : Orderly K F O 0 h) (hB : F a = some ⟨t, fs, cs⟩) (hx : cs[i]? = some x) :
    Yields (HeapM.takeChild a t i) h fun r h' => r = x ∧
      Orderly K (Function.update F a (some ⟨t, fs, cs.set i .nil⟩)) (x ::ₘ O) 0 h' ∧ Later h h' ∧
      (x ≠ .nil → h'.edges.count x + 1 = h.edges.count x) := by
  refine Yields.ask fun slot e => ?_
  obtain ⟨c, hc, -, rfl, old⟩ := o.sound.childSlot_word e
  obtain ⟨c', hc', e'⟩ := o.cell hB
  obtain rfl : c = c' := by simpa [hc] using hc'
  cases e'
  obtain rfl : Address.ofWord (h.pool.word (a.index + 2 + c.fields.length + i)) = x := by
    simpa [old] using hx
  have held := o.held.anti ((Multiset.le_cons_self O (.ofWord (h.pool.word
    (a.index + 2 + c.fields.length + i)))).trans (Multiset.le_cons_self _ .nil))
  refine .modifyGet ⟨rfl, o.vacate hc old ((o.inner hB (List.mem_of_getElem? hx)).imp_right
    (.imp_right fun k => k.personal rfl)) (fun b hb => Function.update_of_ne hb ..) ?_
    (Holds.held_set held hB hx (.inr (.inl (by simp))))⟩
  simp [hB, Cell.body]

/-- The waiting thread is taken out of a waker. -/
theorem takeThread (o : Orderly K F O 0 h) :
    Yields (HeapM.takeChild a .waker 0) h fun u h' => Orderly K F (u ::ₘ O) 0 h' ∧ Later h h' ∧
      (u ≠ .nil → h'.HasTag .thread u ∧ h'.edges.count u = 0 ∧ h.edges.count u ≠ 0 ∧ u ∈ K) := by
  refine Yields.ask fun slot e => ?_
  obtain ⟨c, hc, ht, rfl, old⟩ := o.sound.childSlot_word e
  have unknown := o.none_of_tag ⟨c, hc, ht⟩ rfl
  have fits := o.fits hc unknown old
  rw [Fits, if_pos ht] at fits
  refine .modifyGet ?_
  dsimp only
  generalize Address.ofWord (h.pool.word (a.index + 2 + c.fields.length + 0)) = x at *
  obtain ⟨o₁, l, moved⟩ := o.vacate hc old (fits.imp_right fun k => .inr (k.1.personal rfl))
    (fun _ _ => rfl) (by simp [unknown]) (o.held.anti (Multiset.le_cons_self O x))
  refine ⟨o₁, l, fun hne => ?_⟩
  obtain ⟨k, hK, -⟩ := fits.resolve_left hne
  have single := o.once k
  have : (h.setWord (a.index + 2 + c.fields.length + 0) 0).edges.count x + 1 = h.edges.count x :=
    moved hne
  exact ⟨o₁.still_thread l k (Multiset.mem_cons_self x O) hne (o.none_of_tag k rfl), by omega, by
    omega, hK⟩

/-- Nothing is known of what stands in the slots of other records. -/
theorem none_of_fits (o : Orderly K F O L h) (f : h.Fits K F t i b) : F b = none := by
  have dead := o.none_of_dead o.sound.not_isLive_nil
  have personal : ∀ {t'}, t'.isPersonal → b = .nil ∨ h.HasTag t' b → F b = none := fun ht k =>
    k.elim (fun e => e ▸ dead) fun k => o.none_of_personal (k.personal ht)
  unfold Fits at f
  split_ifs at f
  · exact personal rfl (f.imp_right And.left)
  · exact personal rfl f
  · exact personal rfl f
  · exact not_not.1 fun k => f (.inl k)

/-- A reference moves into a slot of a record of which nothing is known. -/
theorem fillChild (o : Orderly K F P 0 h) (mine : P = b ::ₘ O ∨ P = O ∧ h.Plain F b)
    (ht : t.isInternal = false) (fits : h.Fits K F t i b)
    (idle : h.HasTag .thread b → h.edges.count b = 0) :
    Yields (HeapM.setChildOwned a t i b) h fun _ h' => Orderly K F O 0 h' ∧ Joins b h h' := by
  refine Yields.ask fun slot e => ?_
  obtain ⟨c, hc, rfl, rfl, old⟩ := o.sound.childSlot_word e
  have unknown := o.none_of_tag ⟨c, hc, rfl⟩ ht
  have small : b.index < 2 ^ 32 := by
    rcases mine with rfl | ⟨-, plain⟩
    · rcases o.owned (Multiset.mem_cons_self b O) with rfl | hp
      · decide
      · have := o.sound.serves.lt_two_pow (isLive_iff.1 (o.isLive_of_private hp))
        omega
    · exact plain.1
  have held : Held F O := by
    rcases mine with rfl | ⟨rfl, -⟩
    · exact o.held.drop (.inl (o.none_of_fits fits))
    · exact o.held
  have owned : ∀ a ∈ O, a = .nil ∨ h.Private F a := by
    rcases mine with rfl | ⟨rfl, -⟩
    · exact fun a ha => o.owned (Multiset.mem_cons_of_mem ha)
    · exact fun _ => o.owned
  have moved : ∀ old x, h.Private F x →
    (b ::ₘ ({old} + O)).count x = (old ::ₘ (0 + P)).count x := by
    intro old x hx
    rcases mine with rfl | ⟨rfl, plain⟩
    · rw [zero_add, Multiset.singleton_add, Multiset.cons_swap]
    · rw [zero_add, Multiset.singleton_add, Multiset.count_cons_of_ne]
      rintro rfl
      exact plain.2 hx
  obtain ⟨o₁, count⟩ := o.put_child (J := F) (M := {.ofWord (h.pool.word
    (a.index + 2 + c.fields.length + i))}) hc old small (fun _ _ => rfl)
    (by simp [unknown]) held owned
    (fun _ => fits) (fun known => absurd unknown known) (moved _) fun k => .inl (idle k)
  have u := o.sound.put_child (b := b) hc (List.getElem?_eq_some_iff.1 old).1 small
  have j : Joins b h (h.setWord (a.index + 2 + c.fields.length + i) b.toWord) :=
    ⟨fun _ k => (u.hasTag_iff hc rfl).1 k, fun {v} ne _ => by
      have := count v
      rwa [if_neg ne] at this⟩
  refine (Yields.modifyGet (Q := fun old h₁ => Orderly K F O {old} h₁ ∧ Joins b h h₁) ⟨o₁, j⟩).bind
    fun old h₁ ⟨o₁, j⟩ => ?_
  intro _ h' run
  obtain ⟨o', l, -⟩ := o₁.drain (l := [old]) run
  exact ⟨o', j.trans l.joins⟩

/-- A thread that is in no slot is left to a waker. -/
theorem leaveThread (o : Orderly K F O 0 h) (own : Owns 0 n C h) (hv : h.HasTag .thread v)
    (zero : h.edges.count v = 0) (waits : v ∈ K) :
    Yields (HeapM.setChild a .waker 0 v) h fun _ h' => Orderly K F O 0 h' ∧ Joins v h h' := by
  refine (o.reference own (.inr (hv.personal rfl))).bind fun _ h₁ ⟨_, o₁, l₁, same⟩ => ?_
  have hv₁ : h₁.HasTag .thread v := same.2 hv
  refine (o₁.fillChild (.inl rfl) rfl ?_ (l₁.idle zero)).mono
    fun _ _ ⟨o₂, j⟩ => ⟨o₂, l₁.joins.trans j⟩
  rw [Fits, if_pos rfl]
  exact .inr ⟨hv₁, waits, rfl⟩

theorem nil_still (o : Orderly K F O L h) (hB : F a = some B) {C : Body} :
    Function.update F a (some C) .nil = none := by
  have dead := o.none_of_dead o.sound.not_isLive_nil
  rwa [Function.update_of_ne]
  rintro rfl
  simp [dead] at hB

theorem swap (o : Orderly K F (a ::ₘ b ::ₘ O) L h) : Orderly K F (b ::ₘ a ::ₘ O) L h := by
  rwa [Multiset.cons_swap]

/-- A slot of a known record becomes empty. -/
theorem clearChild (o : Orderly K F O 0 h) (hB : F a = some ⟨t, fs, cs⟩) (hx : cs[i]? = some x)
    (still : Function.update F a (some ⟨t, fs, cs.set i .nil⟩) x = none ∨ x ∈ O ∨
      ∃ d D, Function.update F a (some ⟨t, fs, cs.set i .nil⟩) d = some D ∧ x ∈ D.children) :
    Yields (HeapM.setChild a t i .nil) h fun _ h' =>
      Orderly K (Function.update F a (some ⟨t, fs, cs.set i .nil⟩)) O 0 h' ∧ Later h h' := by
  have hidden : ¬h.HasTag .thread .nil := fun k => o.sound.ne_nil k.isLive rfl
  have same : Yields (HeapM.reference .nil) h fun _ h' => h' = h := .pure rfl
  refine same.bind fun _ h₁ e => ?_
  subst e
  exact ((cons_nil.2 o).setChildOwned hB hx still (.inl rfl)).mono
    fun _ _ ⟨o', j⟩ => ⟨o', j.later hidden⟩

/-- A new reference to a record of the scheduler is stored in an empty slot of another one. -/
theorem setChild (o : Orderly K F O 0 h) (own : Owns 0 n C h) (hB : F a = some ⟨t, fs, cs⟩)
    (hx : cs[i]? = some .nil) (hb : F b = some B) :
    Yields (HeapM.setChild a t i b) h fun _ h' =>
      Orderly K (Function.update F a (some ⟨t, fs, cs.set i b⟩)) O 0 h' ∧ Later h h' := by
  refine (o.reference own (.inl (by simp [hb]))).bind fun _ h₁ ⟨_, o₁, l₁, _⟩ => ?_
  exact (o₁.setChildOwned hB hx (.inl (o.nil_still hB)) (.inr (.inl (by simp [hb])))).mono
    fun _ _ ⟨o', j⟩ => ⟨o', l₁.trans (j.later (o₁.not_thread hb))⟩

/-- The scheduler gives up an empty record that nothing else of it refers to. -/
theorem forget (o : Orderly K F (a ::ₘ O) L h) (hB : F a = some B)
    (empty : ∀ b ∈ B.children, b = .nil)
    (unheld : ∀ {d D}, F d = some D → a ∉ D.children) (unowned : a ∉ O) :
    Orderly K (Function.update F a none) O (a ::ₘ L) h := by
  have here : Function.update F a none a = none := Function.update_self ..
  have less : ∀ {b D}, Function.update F a none b = some D → F b = some D := fun {b D} hb => by
    rwa [Function.update_of_ne] at hb
    rintro rfl
    simp at hb
  have none_of : ∀ {b}, F b = none → Function.update F a none b = none := fun {b} hb => by
    by_cases hba : b = a
    · rw [hba, here]
    · rwa [Function.update_of_ne hba]
  have priv : ∀ {b}, h.Private (Function.update F a none) b → h.Private F b := fun hp =>
    hp.imp_left fun k hb => k (none_of hb)
  have dead := o.none_of_dead o.sound.not_isLive_nil
  have held : Held (Function.update F a none) (a ::ₘ O) :=
    o.held.erase hB fun b hb => empty b hb ▸ dead
  refine ⟨o.sound, fun hb => o.body (less hb), fun hb => o.internal (less hb),
    held.drop (.inl here),
    fun {b} hb => ?_, fun {b c} hp hc => ?_, fun {b c i x} hc hn hx => ?_, fun {d D x} hd hx => ?_,
    o.once⟩
  · refine (o.owned (by simp [hb])).imp_right (.imp_left fun k => ?_)
    rwa [Function.update_of_ne]
    rintro rfl
    exact unowned hb
  · rw [o.count (priv hp) hc, Multiset.add_cons, Multiset.cons_add, Multiset.cons_add,
      Multiset.cons_add]
  · by_cases hba : b = a
    · subst hba
      obtain ⟨c', hc', rfl⟩ := o.cell hB
      obtain rfl : c = c' := by simpa [hc] using hc'
      obtain rfl := empty x (List.mem_of_getElem? hx)
      have hidden := fun k => o.not_private_nil (priv k)
      unfold Fits
      split_ifs
      · exact .inl rfl
      · exact .inl rfl
      · exact .inl rfl
      · exact hidden
    · rw [Function.update_of_ne hba] at hn
      exact (o.fits hc hn hx).mono (le_refl K) none_of id fun _ k => k
  · refine (o.inner (less hd) hx).imp_right (.imp_left fun k => ?_)
    rwa [Function.update_of_ne]
    rintro rfl
    exact unheld (less hd) hx

/-- A new record that is private. -/
theorem allocate (o : Orderly K F O 0 h) (own : Owns 0 n C h) {fields children : Nat}
    (here : J = F ∧ t.isPersonal ∨ J = Function.update F a
      (some ⟨t, .replicate fields 0, .replicate children .nil⟩) ∧ t.isInternal)
    (run : HeapM.allocate t fields children h = .ok a h') :
    h.isLive a = false ∧ h'.HasTag t a ∧ Orderly K J (a ::ₘ O) 0 h' ∧ h'.edges.count a = 0 ∧
      (∀ {t b}, b ≠ a → (h'.HasTag t b ↔ h.HasTag t b)) ∧
      ∀ v, v ≠ .nil → h'.edges.count v = h.edges.count v := by
  obtain ⟨dead, hne, u⟩ := o.sound.allocated run
  have unknown : F a = none := o.none_of_dead dead
  have tagged : h'.HasTag t a := ⟨_, u.cell?_self, rfl⟩
  have unused : h.edges.count a = 0 := by
    rw [Multiset.count_eq_zero]
    intro ha
    rcases own.exact.closed (a := a) (by simp [ha]) with rfl | hl
    · exact hne rfl
    · rw [dead] at hl
      cases hl
  have unowned : a ∉ O := fun ha => by
    rcases o.owned ha with rfl | hp
    · exact hne rfl
    · exact o.not_private_of_dead dead hp
  have hidden : h'.Private J a := by
    rcases here with ⟨-, ht⟩ | ⟨rfl, -⟩
    · exact .inr (tagged.personal ht)
    · exact .inl (by simp)
  have held : Held J (a ::ₘ O) := by
    rcases here with ⟨rfl, -⟩ | ⟨rfl, -⟩
    · exact o.held.anti (Multiset.le_cons_self O a)
    · intro b D hb
      by_cases hba : b = a
      · exact .inl (by simp [hba])
      · rw [Function.update_of_ne hba] at hb
        refine (o.held b D hb).imp Multiset.mem_cons_of_mem ?_
        rintro ⟨d, E, hd, hm⟩
        exact ⟨d, E, known_update hd fun e => by simp [← e, hd] at unknown, hm⟩
  have same : ∀ b, b ≠ a → J b = F b := fun b hb => by
    rcases here with ⟨rfl, -⟩ | ⟨rfl, -⟩
    · rfl
    · exact Function.update_of_ne hb ..
  have kind : J a = none ∨ J a = some ⟨t, .replicate fields 0, .replicate children .nil⟩ ∧
      t.isInternal := by
    rcases here with ⟨rfl, -⟩ | ⟨rfl, ht⟩
    · exact .inl unknown
    · exact .inr ⟨Function.update_self .., ht⟩
  have one : (0 + a ::ₘ O).count a = 1 := by
    rw [zero_add, Multiset.count_cons_self, Multiset.count_eq_zero_of_notMem unowned]
  have new : Appears h F a _ h' J :=
    ⟨dead, u, fun b hb => List.eq_of_mem_replicate hb, same, kind, fun _ => unused⟩
  have o' : Orderly K J (a ::ₘ O) 0 h' := o.create new held
    (fun b hb hne => (Multiset.mem_cons.1 hb).resolve_left hne) (fun _ => hidden)
    (fun b hb => Multiset.count_cons_of_ne hb O) fun _ => one.symm
  exact ⟨dead, tagged, o', (new.edges_count hne).trans unused, new.hasTag_iff,
    fun _ => new.edges_count⟩

end Orderly
end Heap
end GoMachine
