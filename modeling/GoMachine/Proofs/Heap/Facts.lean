import GoMachine.Proofs.Gives
import GoMachine.Proofs.Heap.Owns
/-!
# Facts about records

A client that owns references may also know what some records say. `Holds P n O F h` puts both
together: the client owns `O`, and `F` tells the tag, the fields and the children of some records.
Each of these the client owns or finds in a slot of another one of them, so that none of them goes
away by itself. The primitives of the heap are described by what they do to `O` and to `F`.

* `Holds.allocate`, `Holds.setField`, `Holds.setChildOwned`, `Holds.takeChild`: changes of one
  record.
* `Holds.free`: a reference is dropped, and nothing that is known goes with it.
-/
namespace GoMachine

/-- What a record says about itself and other records. -/
@[ext]
structure Body where
  tag : Tag
  fields : List UInt64
  children : List Address
  deriving DecidableEq

/-- The body of a record. -/
def Cell.body (c : Cell) : Body := ⟨c.tag, c.fields, c.children⟩

@[simp]
theorem Cell.body_count {c : Cell} {w : UInt64} : { c with count := w }.body = c.body := rfl

/-- What is known of some records. -/
abbrev Facts := Address → Option Body

/-- A fault that is due to the size of the heap. -/
def Fault.isShortage : Fault → Bool
  | .heap (.outOfMemory _ _) | .heap (.recordTooLarge _ _) => true
  | _ => false

namespace Heap

/-- What the record at an address says. -/
def body? (h : Heap) (a : Address) : Option Body := (h.cell? a).map Cell.body

variable {P O O' : Multiset Address} {n : Nat} {F F' : Facts} {h h' : Heap} {a b c x : Address}
  {B : Body} {o : Option Cell} {i : Nat} {w : UInt64} {t : Tag}
  {fs : List UInt64} {cs : List Address}

theorem body?_eq_some : h.body? a = some B ↔ ∃ c, h.cell? a = some c ∧ c.body = B := by
  simp [body?]

theorem Becomes.body?_self (u : Becomes h a o h') : h'.body? a = o.map Cell.body := by
  rw [body?, u.cell?_self]

theorem Becomes.body?_of_ne (u : Becomes h a o h') (hb : b ≠ a) : h'.body? b = h.body? b := by
  rw [body?, u.cell?_of_ne hb, body?]

theorem Shrinks.body? (k : Shrinks h h') (hl : h'.isLive a) (hB : h.body? a = some B) :
    h'.body? a = some B := by
  obtain ⟨c, hc, e⟩ := k a _ (cell?_eq_some.2 ⟨hl, rfl⟩)
  rw [Heap.body?, hc, Option.map_some, Option.some_inj] at hB
  rw [Heap.body?, cell?_eq_some.2 ⟨hl, rfl⟩, Option.map_some, congrArg Cell.body e,
    Cell.body_count, hB]

/-- There are no more different records than are live. -/
theorem Sound.length_le (s : h.Sound) {l : List Address} (nodup : l.Nodup)
    (live : ∀ a ∈ l, h.isLive a) : l.length ≤ h.liveCount ∧ l.length ≤ 2 ^ 31 := by
  have nodup' : (l.map Address.index).Nodup :=
    nodup.map fun a b e => by cases a; cases b; simpa using e
  constructor
  · have sub : (l.map Address.index).Subperm h.live.toList := nodup'.subperm fun i hi => by
      obtain ⟨a, ha, rfl⟩ := List.mem_map.1 hi
      exact Std.TreeSet.mem_toList.2 (isLive_iff.1 (live a ha))
    simpa [liveCount] using sub.length_le
  · have below : l.map Address.index ⊆ List.range (2 ^ 31) := fun i hi => by
      obtain ⟨a, ha, rfl⟩ := List.mem_map.1 hi
      exact List.mem_range.2 (s.serves.lt_two_pow (isLive_iff.1 (live a ha)))
    simpa only [List.length_map, List.length_range] using nodup'.length_le_of_subset below

theorem Sound.child_body (s : h.Sound) (hB : h.body? a = some ⟨t, fs, cs⟩) (hb : cs[i]? = some b) :
    Query.child a t i h = .ok b := by
  obtain ⟨c, hc, e⟩ := body?_eq_some.1 hB
  cases e
  exact ofHeap_ok.2 (s.child_ok.2 ⟨c, hc, rfl, hb⟩)

/-- The client owns each of the records or finds it in a slot of one of them. -/
def Held (F : Facts) (O : Multiset Address) : Prop :=
  ∀ a B, F a = some B → a ∈ O ∨ ∃ d D, F d = some D ∧ a ∈ D.children

/-- The client owns the references `O`, with room for `n` more, and knows the facts `F`. -/
structure Holds (P : Multiset Address) (n : Nat) (O : Multiset Address) (F : Facts) (h : Heap) :
    Prop where
  owns : Owns P n O h
  body : ∀ {a B}, F a = some B → h.body? a = some B
  held : Held F O

/-- The heap was too small, and what the client owns it still owns. -/
def Short (P O : Multiset Address) (e : Fault) (h : Heap) : Prop :=
  e.isShortage ∧ ∃ L, Exact P (L + O) h

/-- A reference that is dropped after the heap was too small. -/
theorem Short.free {e : Fault} (s : Short P (a ::ₘ O) e h) :
    Gives (HeapM.free a) h fun _ h' => Short P O e h' := by
  obtain ⟨short, L, x⟩ := s
  rw [Multiset.add_cons] at x
  obtain ⟨h', run, x, -⟩ := x.free
  exact ⟨(), h', run, short, L, x⟩

/-- What is known of a record after a change of another one. -/
theorem known_update {o : Option Body} (hB : F b = some B) (ne : b ≠ a) :
    Function.update F a o b = some B := by
  rwa [Function.update_of_ne ne]

/-! ## What is held -/

namespace Held

theorem anti (held : Held F O) (le : O ≤ O') : Held F O' := fun a B hB =>
  (held a B hB).imp_left (Multiset.mem_of_le le)

/-- An owned reference that something else makes up for. -/
theorem drop (held : Held F (a ::ₘ O))
    (still : F a = none ∨ a ∈ O ∨ ∃ d D, F d = some D ∧ a ∈ D.children) : Held F O := by
  intro b B hB
  rcases held b B hB with ho | hs
  · rcases Multiset.mem_cons.1 ho with rfl | ho
    · exact still.resolve_left (by simp [hB])
    · exact .inl ho
  · exact .inr hs

/-- A record that refers to nothing known is forgotten. -/
theorem erase (held : Held F O) (hB : F a = some B) (empty : ∀ b ∈ B.children, F b = none) :
    Held (Function.update F a none) O := by
  intro b D hb
  have hne : b ≠ a := by
    rintro rfl
    simp at hb
  rw [Function.update_of_ne hne] at hb
  refine (held b D hb).imp_right ?_
  rintro ⟨d, E, hd, hm⟩
  refine ⟨d, E, ?_, hm⟩
  rwa [Function.update_of_ne]
  rintro rfl
  obtain rfl : E = B := by simpa [hd] using hB
  simp [empty b hm] at hb

/-- One record is known to say something else: what it does not refer to any more has to be held
otherwise. -/
theorem update {C : Body} {M : Multiset Address} (held : Held F O) (hB : F a = some B)
    (own : ∀ b ∈ O, b ∈ M ∨ b ∈ C.children)
    (still : ∀ b ∈ B.children, b ∉ C.children → Function.update F a (some C) b = none ∨ b ∈ M ∨
      ∃ d D, Function.update F a (some C) d = some D ∧ b ∈ D.children) :
    Held (Function.update F a (some C)) M := by
  have here : Function.update F a (some C) a = some C := Function.update_self ..
  intro b D hb
  have hb' : ∃ D, F b = some D := by
    by_cases hne : b = a
    · exact ⟨B, hne ▸ hB⟩
    · exact ⟨D, by rwa [Function.update_of_ne hne] at hb⟩
  obtain ⟨D', hb'⟩ := hb'
  rcases held b D' hb' with ho | ⟨d, E, hd, hm⟩
  · exact (own b ho).imp_right fun hc => ⟨a, C, here, hc⟩
  · by_cases hne : d = a
    · subst hne
      obtain rfl : E = B := by simpa [hd] using hB
      by_cases hc : b ∈ C.children
      · exact .inr ⟨d, C, here, hc⟩
      · exact (still b hm hc).resolve_left (by simp [hb])
    · exact .inr ⟨d, E, by rwa [Function.update_of_ne hne], hm⟩

end Held

/-! ## The primitives -/

/-- A reference is dropped, and what is known and held without it stays. -/
theorem Exact.free_known (exact : Exact P (a ::ₘ O) h)
    (body : ∀ {b B}, F b = some B → h.body? b = some B) (held : Held F O) :
    ∃ h', HeapM.free a h = .ok () h' ∧ Exact P O h' ∧
      ∀ {b B}, F b = some B → h'.body? b = some B := by
  obtain ⟨h', run, x, k, spared⟩ := exact.free
  have live : ∀ b ∈ {b | F b ≠ none}, h'.isLive b := by
    refine spared _ fun b hb => ?_
    obtain ⟨B, hB⟩ := Option.ne_none_iff_exists'.1 hb
    obtain ⟨c, hc, rfl⟩ := body?_eq_some.1 (body hB)
    refine ⟨(cell?_eq_some.1 hc).1, (held b c.body hB).imp_right ?_⟩
    rintro ⟨d, D, hd, hm⟩
    obtain ⟨e, he, rfl⟩ := body?_eq_some.1 (body hd)
    exact ⟨d, by simp [hd], e, he, hm⟩
  exact ⟨h', run, x, fun {b B} hB => k.body? (live b (by simp [hB])) (body hB)⟩

namespace Holds

theorem isLive (holds : Holds P n O F h) (hB : F a = some B) : h.isLive a := by
  obtain ⟨c, hc, -⟩ := body?_eq_some.1 (holds.body hB)
  exact (cell?_eq_some.1 hc).1

theorem ne_nil (holds : Holds P n O F h) (hB : F a = some B) : a ≠ .nil :=
  holds.owns.exact.sound.ne_nil (holds.isLive hB)

theorem nil_none (holds : Holds P n O F h) : F .nil = none := by
  by_contra known
  obtain ⟨B, hB⟩ := Option.ne_none_iff_exists'.1 known
  exact holds.ne_nil hB rfl

/-- Nothing is known of nil after a change of a known record either. -/
theorem nil_still (holds : Holds P n O F h) (hB : F a = some B) {C : Body} :
    Function.update F a (some C) .nil = none := by
  rw [Function.update_of_ne (holds.ne_nil hB).symm, holds.nil_none]

theorem tighten {m : Nat} (holds : Holds P m O F h) (sp : Spare n O) : Holds P n O F h :=
  ⟨holds.owns.tighten sp, holds.body, holds.held⟩

theorem weaken {m : Nat} (holds : Holds P n O F h) (le : m ≤ n) : Holds P m O F h :=
  ⟨holds.owns.weaken le, holds.body, holds.held⟩

theorem short {e : Fault} (holds : Holds P n O F h) (shortage : e.isShortage) : Short P O e h :=
  ⟨shortage, 0, by simpa using holds.owns.exact⟩

/-- Knowing less. -/
theorem forget (holds : Holds P n O F h) (less : ∀ a B, F' a = some B → F a = some B)
    (held : Held F' O) : Holds P n O F' h :=
  ⟨holds.owns, fun hB => holds.body (less _ _ hB), held⟩

/-- A record that refers to nothing known is forgotten. -/
theorem erase (holds : Holds P n O F h) (hB : F a = some B) (empty : ∀ b ∈ B.children, F b = none) :
    Holds P n O (Function.update F a none) h := by
  refine holds.forget (fun b D hb => ?_) (holds.held.erase hB empty)
  rwa [Function.update_of_ne] at hb
  rintro rfl
  simp at hb

/-- No more records are known than are live. -/
theorem length_le (holds : Holds P n O F h) {l : List Address} (nodup : l.Nodup)
    (known : ∀ a ∈ l, F a ≠ none) : l.length ≤ h.liveCount ∧ l.length ≤ 2 ^ 31 :=
  holds.owns.exact.sound.length_le nodup fun a ha => by
    obtain ⟨B, hB⟩ := Option.ne_none_iff_exists'.1 (known a ha)
    exact holds.isLive hB

/-! ### Reading -/

theorem child (holds : Holds P n O F h) (hB : F a = some ⟨t, fs, cs⟩) (hb : cs[i]? = some b) :
    Query.child a t i h = .ok b :=
  holds.owns.exact.sound.child_body (holds.body hB) hb

theorem field (holds : Holds P n O F h) (hB : F a = some ⟨t, fs, cs⟩) (hw : fs[i]? = some w) :
    Query.field a t i h = .ok w := by
  obtain ⟨c, hc, e⟩ := body?_eq_some.1 (holds.body hB)
  cases e
  exact ofHeap_ok.2 (holds.owns.exact.sound.field_ok.2 ⟨c, hc, rfl, hw⟩)

theorem tag (holds : Holds P n O F h) (hB : F a = some B) : Query.tag a h = .ok B.tag := by
  obtain ⟨c, hc, rfl⟩ := body?_eq_some.1 (holds.body hB)
  exact ofHeap_ok.2 (holds.owns.exact.sound.tag_ok.2 (.inr ⟨c, hc, rfl⟩))

/-! ### Writing -/

/-- What is known after a change at one address. -/
theorem body_update (holds : Holds P n O F h) {B : Body} (hB : o.map Cell.body = some B)
    (u : Becomes h a o h') {b : Address} {D : Body}
    (hb : Function.update F a (some B) b = some D) : h'.body? b = some D := by
  by_cases hne : b = a
  · subst hne
    rw [Function.update_self] at hb
    rw [u.body?_self, hB, hb]
  · rw [Function.update_of_ne hne] at hb
    rw [u.body?_of_ne hne, holds.body hb]

/-- A new record, of which nothing was known. -/
theorem allocate (holds : Holds P n O F h) {fields children : Nat} :
    Ends (Short P O) (liftM (HeapM.allocate t fields children) : Action Address) h fun a h' =>
      F a = none ∧ Holds P n (a ::ₘ O)
        (Function.update F a (some ⟨t, .replicate fields 0, .replicate children .nil⟩)) h' := by
  cases run : HeapM.allocate t fields children h with
  | error e h' =>
    refine .inr ⟨.heap e, h', ?_, ?_⟩
    · simp only [liftM, monadLift, MonadLift.monadLift, run]
    · unfold HeapM.allocate at run
      split_ifs at run
      · cases run
        exact holds.short rfl
      · cases hq : h.pool.allocate (2 + fields + children) with
        | none =>
          simp only [hq] at run
          cases run
          exact holds.short rfl
        | some found =>
          simp only [hq] at run
          cases run
  | ok a h' =>
    refine .inl ⟨a, h', lift_heap_ok.2 run, ?_⟩
    obtain ⟨dead, hne, u⟩ := holds.owns.exact.sound.allocated run
    have unknown : F a = none := by
      by_contra known
      obtain ⟨B, hB⟩ := Option.ne_none_iff_exists'.1 known
      rw [holds.isLive hB] at dead
      cases dead
    refine ⟨unknown, holds.owns.allocate.yields a h' run, holds.body_update rfl u, fun b D hb => ?_⟩
    by_cases hba : b = a
    · exact .inl (by simp [hba])
    · rw [Function.update_of_ne hba] at hb
      refine (holds.held b D hb).imp (Multiset.mem_cons_of_mem) ?_
      rintro ⟨d, E, hd, hm⟩
      refine ⟨d, E, ?_, hm⟩
      rwa [Function.update_of_ne]
      rintro rfl
      simp [unknown] at hd

theorem setField (holds : Holds P n O F h) (hB : F a = some ⟨t, fs, cs⟩) (hi : i < fs.length) :
    Gives (HeapM.setField a t i w) h fun _ h' =>
      Holds P n O (Function.update F a (some ⟨t, fs.set i w, cs⟩)) h' := by
  obtain ⟨c, hc, e⟩ := body?_eq_some.1 (holds.body hB)
  cases e
  have slot := holds.owns.exact.sound.fieldSlot_ok.2 ⟨c, hc, rfl, hi, rfl⟩
  refine Gives.ask slot (.modify ?_)
  refine ⟨⟨holds.owns.exact.put_field hc hi, holds.owns.spare⟩,
    holds.body_update rfl (holds.owns.exact.sound.put_field hc hi), holds.held.update hB ?_ ?_⟩
  · exact fun b hb => .inl hb
  · exact fun b hb hnb => absurd hb hnb

/-- A reference to a record that is owned or known, or to nil. -/
theorem reference (holds : Holds P (n + 1) O F h) (here : a = .nil ∨ h.isLive a) :
    Gives (HeapM.reference a) h fun b h' => b = a ∧ Holds P n (a ::ₘ O) F h' := by
  unfold HeapM.reference
  split
  · next hn =>
    obtain rfl := Address.isNil_iff.1 hn
    exact .pure ⟨rfl, Owns.cons_nil.2 (holds.owns.weaken (Nat.le_succ n)), holds.body,
      holds.held.anti (Multiset.le_cons_self O _)⟩
  · next hn =>
    have hl := here.resolve_left fun e => hn (Address.isNil_iff.2 e)
    have hc := cell?_eq_some.2 ⟨hl, rfl⟩
    have count := holds.owns.exact.sound.refCount_ok.2 (.inr ⟨_, hc, rfl⟩)
    refine Gives.ask count (Gives.bind (Q := fun _ h' => Holds P n (a ::ₘ O) F h') (.modify ?_)
      fun _ _ holds => .pure ⟨rfl, holds⟩)
    refine ⟨⟨holds.owns.exact.gain hc (holds.owns.count_lt hc), holds.owns.spare.cons⟩,
      fun {b B} hB => ?_, holds.held.anti (Multiset.le_cons_self O a)⟩
    have u := holds.owns.exact.sound.put_count hc ((h.cellAt a).count + 1)
    by_cases hne : b = a
    · subst hne
      obtain ⟨c, hc', rfl⟩ := body?_eq_some.1 (holds.body hB)
      rw [hc, Option.some_inj] at hc'
      rw [u.body?_self, Option.map_some, Cell.body_count, hc']
    · rw [u.body?_of_ne hne, holds.body hB]

/-- A reference is dropped, and what is known is held without it. -/
theorem free_exact (exact : Exact P (a ::ₘ O) h) (spare : Spare n O)
    (body : ∀ {b B}, F b = some B → h.body? b = some B) (held : Held F O) :
    Gives (HeapM.free a) h fun _ h' => Holds P n O F h' := by
  obtain ⟨h', run, x, still⟩ := exact.free_known body held
  exact ⟨(), h', run, ⟨x, spare⟩, still, held⟩

/-- A reference that is not the last one to anything known is dropped. -/
theorem free (holds : Holds P n (a ::ₘ O) F h)
    (still : F a = none ∨ a ∈ O ∨ ∃ d D, F d = some D ∧ a ∈ D.children) :
    Gives (HeapM.free a) h fun _ h' => Holds P n O F h' :=
  free_exact holds.owns.exact (holds.owns.spare.anti (Multiset.le_cons_self O a)) holds.body
    (holds.held.drop still)

/-- What is written when a reference moves into a slot. -/
theorem put_child {e : Cell} (exact : Exact P (c ::ₘ O) h) (hc : h.cell? a = some e)
    (hx : e.children[i]? = some x) :
    h.childSlot a e.tag i = .ok (a.index + 2 + e.fields.length + i) ∧
      Address.ofWord (h.pool.word (a.index + 2 + e.fields.length + i)) = x ∧
      Exact P (x ::ₘ O) (h.setWord (a.index + 2 + e.fields.length + i) c.toWord) ∧
      Becomes h a (some { e with children := e.children.set i c })
        (h.setWord (a.index + 2 + e.fields.length + i) c.toWord) := by
  obtain ⟨hi, -⟩ := List.getElem?_eq_some_iff.1 hx
  have slot := exact.sound.childSlot_ok.2 ⟨e, hc, rfl, hi, rfl⟩
  obtain ⟨e', he, -, -, word⟩ := exact.sound.childSlot_word slot
  obtain rfl : e' = e := by simpa [hc] using he.symm
  obtain rfl : x = .ofWord (h.pool.word (a.index + 2 + e'.fields.length + i)) := by
    simpa [word] using hx.symm
  refine ⟨slot, rfl, (exact.put_child he word).1, exact.sound.put_child he hi ?_⟩
  rcases exact.closed (a := c) (by simp) with rfl | hl
  · decide
  · have := exact.sound.serves.lt_two_pow (isLive_iff.1 hl)
    omega

/-- What is known and held when a reference `c` stands in a slot in place of another one. -/
theorem held_set (held : Held F (c ::ₘ O)) (hB : F a = some B) (hx : B.children[i]? = some x)
    (still : Function.update F a (some { B with children := B.children.set i c }) x = none ∨ x ∈ O ∨
      ∃ d D, Function.update F a (some { B with children := B.children.set i c }) d = some D ∧
        x ∈ D.children) :
    Held (Function.update F a (some { B with children := B.children.set i c })) O := by
  obtain ⟨hi, rfl⟩ := List.getElem?_eq_some_iff.1 hx
  refine held.update hB (fun b hb => ?_) fun b hb hnb => ?_
  · refine (Multiset.mem_cons.1 hb).symm.imp_right ?_
    rintro rfl
    exact List.mem_set hi b
  · obtain ⟨j, hj, rfl⟩ := List.mem_iff_getElem.1 hb
    by_cases hij : i = j
    · subst hij
      exact still
    · exact absurd (List.mem_iff_getElem.2 ⟨j, by simpa using hj, by simp [hij]⟩) hnb

/-- A reference moves into a slot of a known record, and what was there is dropped. -/
theorem setChildOwned (holds : Holds P n (c ::ₘ O) F h) (hB : F a = some ⟨t, fs, cs⟩)
    (hx : cs[i]? = some x)
    (still : Function.update F a (some ⟨t, fs, cs.set i c⟩) x = none ∨ x ∈ O ∨
      ∃ d D, Function.update F a (some ⟨t, fs, cs.set i c⟩) d = some D ∧ x ∈ D.children) :
    Gives (HeapM.setChildOwned a t i c) h fun _ h' =>
      Holds P n O (Function.update F a (some ⟨t, fs, cs.set i c⟩)) h' := by
  obtain ⟨o, ho, e⟩ := body?_eq_some.1 (holds.body hB)
  cases e
  obtain ⟨slot, word, exact, u⟩ := put_child holds.owns.exact ho hx
  refine Gives.ask slot (Gives.bind (Q := fun old h₁ => old = x ∧
    h₁ = h.setWord (a.index + 2 + o.fields.length + i) c.toWord) ⟨_, _, rfl, word, rfl⟩ ?_)
  rintro _ _ ⟨rfl, rfl⟩
  exact free_exact exact (holds.owns.spare.anti (Multiset.le_cons_self O c))
    (holds.body_update rfl u) (held_set holds.held hB hx still)

/-- A new reference is stored in a slot of a known record, and what was there is dropped. -/
theorem setChild (holds : Holds P (n + 1) O F h) (hB : F a = some ⟨t, fs, cs⟩)
    (hx : cs[i]? = some x) (here : c = .nil ∨ h.isLive c)
    (still : Function.update F a (some ⟨t, fs, cs.set i c⟩) x = none ∨ x ∈ O ∨
      ∃ d D, Function.update F a (some ⟨t, fs, cs.set i c⟩) d = some D ∧ x ∈ D.children) :
    Gives (HeapM.setChild a t i c) h fun _ h' =>
      Holds P (n + 1) O (Function.update F a (some ⟨t, fs, cs.set i c⟩)) h' := by
  refine (holds.reference here).bind fun _ h₁ ⟨_, owned⟩ => ?_
  exact (owned.setChildOwned hB hx still).mono fun _ _ owned => owned.tighten holds.owns.spare

/-- A reference moves out of a slot of a known record. -/
theorem takeChild (holds : Holds P (n + 1) O F h) (hB : F a = some ⟨t, fs, cs⟩)
    (hx : cs[i]? = some x) :
    Gives (HeapM.takeChild a t i) h fun b h' => b = x ∧ Holds P n (x ::ₘ O)
      (Function.update F a (some ⟨t, fs, cs.set i .nil⟩)) h' := by
  obtain ⟨o, ho, e⟩ := body?_eq_some.1 (holds.body hB)
  cases e
  obtain ⟨slot, word, exact, u⟩ := put_child (Owns.cons_nil.2 holds.owns).exact ho hx
  refine Gives.ask slot ⟨_, _, rfl, word, ⟨exact, holds.owns.spare.cons⟩,
    holds.body_update rfl u, held_set (O := x ::ₘ O) ?_ hB hx (.inr (.inl (by simp)))⟩
  exact holds.held.anti ((Multiset.le_cons_self O x).trans (Multiset.le_cons_self _ _))

end Holds
end Heap
end GoMachine
