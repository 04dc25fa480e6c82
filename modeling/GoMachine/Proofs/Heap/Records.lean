import GoMachine.Proofs.Heap.Collect
/-!
# The heap as an abstract store

To its clients a heap is a finite map from addresses to records. `Op` lists what a client may ask of
it, and `Does m op r m'` says what an operation does to such a map, without words, headers, blocks
or free lists: `r` is the reply and `m'` the map afterwards. What a record takes with it when its
last reference is dropped is a relation of its own, `Drops`.

* `Question.ask_eq_ok`: a question is answered by the record that stands at the address.
* `Sound.drain_drops`: references given up are dropped as `Drops` says.
* `Does.others`: an operation leaves tag, fields, children and pins of all other records alone.
-/
namespace GoMachine
namespace Heap

/-- The records of a heap. -/
abbrev Records := Address → Option Cell

/-- What is asked about a record. -/
inductive Question where
  | tag | numFields | numChildren | children | refCount | isPinned
  | expect (tag : Tag)
  | field (tag : Tag) (i : Nat)
  | child (tag : Tag) (i : Nat)
  | childAt (i : Nat)

/-- What a client may ask of a heap. -/
inductive Op where
  | read (q : Question) (a : Address)
  | allocate (tag : Tag) (fields children : Nat)
  | setField (a : Address) (tag : Tag) (i : Nat) (w : UInt64)
  | setChild (a : Address) (tag : Tag) (i : Nat) (c : Address)
  | setChildOwned (a : Address) (tag : Tag) (i : Nat) (c : Address)
  | takeChild (a : Address) (tag : Tag) (i : Nat)
  | reference (a : Address)
  | free (a : Address)
  | copy (a : Address)
  | pin (a : Address)
  | unpin (a : Address)
  | sweep (roots : List Address)

/-- What a client gets back. -/
inductive Reply where
  | done
  | tag (t : Tag)
  | number (n : Nat)
  | word (w : UInt64)
  | truth (b : Bool)
  | address (a : Address)
  | addresses (as : List Address)

/-- The reply of a heap to a question. -/
def Question.ask (q : Question) (a : Address) (h : Heap) : Except HeapError Reply :=
  match q with
  | .tag => return .tag (← h.tag a)
  | .numFields => return .number (← h.numFields a)
  | .numChildren => return .number (← h.numChildren a)
  | .children => return .addresses (← h.children a)
  | .refCount => return .word (← h.refCount a)
  | .isPinned => return .truth (← h.isPinned a)
  | .expect t => return (fun _ => .done) (← h.expect a t)
  | .field t i => return .word (← h.field a t i)
  | .child t i => return .address (← h.child a t i)
  | .childAt i => return .address (← h.childAt a i)

/-- An operation as an action. -/
def Op.run : Op → HeapM Reply
  | .read q a => HeapM.ask (q.ask a)
  | .allocate t fields children => do return .address (← HeapM.allocate t fields children)
  | .setField a t i w => do HeapM.setField a t i w; return .done
  | .setChild a t i c => do HeapM.setChild a t i c; return .done
  | .setChildOwned a t i c => do HeapM.setChildOwned a t i c; return .done
  | .takeChild a t i => do return .address (← HeapM.takeChild a t i)
  | .reference a => do return .address (← HeapM.reference a)
  | .free a => do HeapM.free a; return .done
  | .copy a => do return .address (← HeapM.copy a)
  | .pin a => do HeapM.pin a; return .done
  | .unpin a => do HeapM.unpin a; return .done
  | .sweep roots => do return .number (← HeapM.markAndSweep roots)

/-! ## The abstract store -/

/-- What stands at an address, where nil is a record without slots that is always pinned. -/
def Records.look (m : Records) (a : Address) : Option Cell :=
  if a.isNil then some ⟨.nil, [], [], 1, 1⟩ else m a

/-- What a record answers. -/
def Question.answer (c : Cell) : Question → Option Reply
  | .tag => some (.tag c.tag)
  | .numFields => some (.number c.fields.length)
  | .numChildren => some (.number c.children.length)
  | .children => some (.addresses c.children)
  | .refCount => some (.word c.count)
  | .isPinned => some (.truth (c.pins != 0))
  | .expect t => if c.tag = t then some .done else none
  | .field t i => if c.tag = t then c.fields[i]?.map .word else none
  | .child t i => if c.tag = t then c.children[i]?.map .address else none
  | .childAt i => c.children[i]?.map .address

/-- One more reference to each of some records, as often as they are named. -/
def Records.gain (m : Records) (l : List Address) : Records := fun a =>
  (m a).map fun c => { c with count := c.count + (l.count a).toUInt64 }

/-- References are dropped in turn. A record that loses its last one, and that nobody has pinned,
goes away and drops the references in its slots, the last of them first. -/
inductive Drops : Records → List Address → Records → Prop
  | done {m : Records} : Drops m [] m
  | nil {m m' : Records} {rest : List Address} : Drops m rest m' → Drops m (.nil :: rest) m'
  | lower {m m' : Records} {a : Address} {rest : List Address} {c : Cell} : m a = some c →
      c.count ≠ 0 → ¬(c.count = 1 ∧ c.pins = 0) →
      Drops (Function.update m a (some { c with count := c.count - 1 })) rest m' →
      Drops m (a :: rest) m'
  | release {m m' : Records} {a : Address} {rest : List Address} {c : Cell} : m a = some c →
      c.count = 1 → c.pins = 0 →
      Drops (Function.update m a none) (c.children.reverse ++ rest) m' → Drops m (a :: rest) m'

/-- A slot of one record holds another address. -/
def Records.Points (m : Records) (a b : Address) : Prop := ∃ c, m a = some c ∧ b ∈ c.children

/-- Slots lead to a record from one of the roots or from a pinned record. -/
def Records.Kept (m : Records) (roots : List Address) (a : Address) : Prop :=
  ∃ b, (b ∈ roots ∨ ∃ c, m b = some c ∧ c.pins ≠ 0) ∧ Relation.ReflTransGen m.Points b a

/-- What an operation replies and does to the records. -/
inductive Does : Records → Op → Reply → Records → Prop
  | read {m : Records} {q : Question} {a : Address} {c : Cell} {r : Reply} : m.look a = some c →
      q.answer c = some r → Does m (.read q a) r m
  | allocate {m : Records} {t : Tag} {fields children : Nat} {a : Address} :
      fields ≤ Header.limit → children ≤ Header.limit → a ≠ .nil → m a = none →
      Does m (.allocate t fields children) (.address a)
        (Function.update m a (some ⟨t, .replicate fields 0, .replicate children .nil, 1, 0⟩))
  | setField {m : Records} {a : Address} {i : Nat} {w : UInt64} {c : Cell} : m a = some c →
      i < c.fields.length → Does m (.setField a c.tag i w) .done
        (Function.update m a (some { c with fields := c.fields.set i w }))
  | setChildOwned {m m' : Records} {a b old : Address} {i : Nat} {c : Cell} : m a = some c →
      c.children[i]? = some old →
      Drops (Function.update m a (some { c with children := c.children.set i b })) [old] m' →
      Does m (.setChildOwned a c.tag i b) .done m'
  | setChild {m m' : Records} {a b : Address} {t : Tag} {i : Nat} {r : Reply} :
      (m.look b).isSome → Does (m.gain [b]) (.setChildOwned a t i b) r m' →
      Does m (.setChild a t i b) r m'
  | takeChild {m : Records} {a b : Address} {i : Nat} {c : Cell} : m a = some c →
      c.children[i]? = some b → Does m (.takeChild a c.tag i) (.address b)
        (Function.update m a (some { c with children := c.children.set i .nil }))
  | reference {m : Records} {a : Address} : (m.look a).isSome →
      Does m (.reference a) (.address a) (m.gain [a])
  | free {m m' : Records} {a : Address} : Drops m [a] m' → Does m (.free a) .done m'
  | copy {m : Records} {a b : Address} {c : Cell} : m.look a = some c → b ≠ .nil → m b = none →
      Does m (.copy a) (.address b)
        (Function.update (m.gain c.children) b (some ⟨c.tag, c.fields, c.children, 1, 0⟩))
  | pinNil {m : Records} : Does m (.pin .nil) .done m
  | pin {m : Records} {a : Address} {c : Cell} : m a = some c → c.pins.toNat < Header.limit →
      Does m (.pin a) .done (Function.update m a (some { c with pins := c.pins + 1 }))
  | unpinNil {m : Records} : Does m (.unpin .nil) .done m
  | unpin {m : Records} {a : Address} {c : Cell} : m a = some c → c.pins ≠ 0 →
      ¬(c.pins = 1 ∧ c.count = 0) →
      Does m (.unpin a) .done (Function.update m a (some { c with pins := c.pins - 1 }))
  | unpinLast {m m' : Records} {a : Address} {c : Cell} : m a = some c → c.pins = 1 →
      c.count = 0 → Drops (Function.update m a none) c.children.reverse m' →
      Does m (.unpin a) .done m'
  | sweep {m m' : Records} {roots gone loose : List Address} : gone.Nodup →
      (∀ a, a ∈ gone ↔ (m a).isSome ∧ ¬m.Kept roots a) →
      loose.Perm (gone.flatMap fun a => ((m a).elim [] Cell.children).filter (· ∉ gone)) →
      Drops (fun a => if a ∈ gone then none else m a) loose m' →
      Does m (.sweep roots) (.number gone.length) m'

/-- What a failed operation leaves behind: a reference that `setChild` has taken stays. -/
def Op.leftover : Op → Records → Records
  | .setChild _ _ _ c, m => m.gain [c]
  | _, m => m

/-- The record that an operation is about or has made. -/
def Op.subject : Op → Reply → Option Address
  | .allocate .., .address a | .copy _, .address a => some a
  | .setField a .., _ | .setChild a .., _ | .setChildOwned a .., _ | .takeChild a .., _
  | .pin a, _ | .unpin a, _ => some a
  | _, _ => none

/-! ### What stays the same -/

/-- A record differs from what stood at its address in the number of references at most. -/
def Records.SameAt (m m' : Records) (a : Address) : Prop :=
  ∀ c', m' a = some c' → ∃ c, m a = some c ∧ c' = { c with count := c'.count }

theorem Records.SameAt.refl {m : Records} {a : Address} : m.SameAt m a := fun c' hc => ⟨c', hc, rfl⟩

theorem Records.SameAt.trans {m m₁ m' : Records} {a : Address} (s₁ : m.SameAt m₁ a)
    (s : m₁.SameAt m' a) : m.SameAt m' a := by
  intro c' hc
  obtain ⟨c₁, hc₁, e⟩ := s c' hc
  obtain ⟨c, hc, e₁⟩ := s₁ c₁ hc₁
  exact ⟨c, hc, by rw [e, e₁]⟩

theorem Records.sameAt_update {m : Records} {a b : Address} {o : Option Cell} (hne : b ≠ a) :
    m.SameAt (Function.update m a o) b := by
  intro c' hc
  rw [Function.update_of_ne hne] at hc
  exact ⟨c', hc, rfl⟩

theorem Records.sameAt_gain {m : Records} {l : List Address} {a : Address} :
    m.SameAt (m.gain l) a := by
  intro c' hc
  obtain ⟨c, here, rfl⟩ := Option.map_eq_some_iff.1 hc
  exact ⟨c, here, rfl⟩

theorem Drops.sameAt {m m' : Records} {l : List Address} (d : Drops m l m') (a : Address) :
    m.SameAt m' a := by
  induction d with
  | done => exact .refl
  | nil _ ih => exact ih
  | @lower m m' b rest c hc h0 kept _ ih =>
    refine .trans (fun c' hc' => ?_) ih
    by_cases hne : a = b
    · subst hne
      obtain rfl : { c with count := c.count - 1 } = c' := by simpa using hc'
      exact ⟨c, hc, rfl⟩
    · exact Records.sameAt_update hne c' hc'
  | @release m m' b rest c hc last unpinned _ ih =>
    refine .trans (fun c' hc' => ?_) ih
    by_cases hne : a = b
    · simp [hne] at hc'
    · exact Records.sameAt_update hne c' hc'

/-- An operation leaves all records alone but the one that it is about. Others may lose references,
and go away with the last one. -/
theorem Does.others {m m' : Records} {op : Op} {r : Reply} (d : Does m op r m') {b : Address}
    (other : op.subject r ≠ some b) : m.SameAt m' b := by
  have ne : ∀ {a : Address}, some a ≠ some b → b ≠ a := fun h e => h (congrArg some e.symm)
  induction d with
  | read | pinNil | unpinNil => exact .refl
  | allocate | setField | takeChild | pin | unpin => exact Records.sameAt_update (ne other)
  | setChildOwned _ _ d => exact (Records.sameAt_update (ne other)).trans (d.sameAt b)
  | setChild _ _ ih => exact Records.sameAt_gain.trans (ih other)
  | reference => exact Records.sameAt_gain
  | free d => exact d.sameAt b
  | copy => exact Records.sameAt_gain.trans (Records.sameAt_update (ne other))
  | unpinLast _ _ _ d => exact (Records.sameAt_update (ne other)).trans (d.sameAt b)
  | sweep _ _ _ d =>
    refine .trans (fun c' hc => ?_) (d.sameAt b)
    split_ifs at hc
    exact ⟨c', hc, rfl⟩

/-! ### The records of a heap -/

variable {P O : Multiset Address} {h h' : Heap} {a : Address} {c : Cell}

theorem Sound.look_eq_some (s : Sound h) : Records.look h.cell? a = some c ↔
    (a = .nil ∧ c = ⟨.nil, [], [], 1, 1⟩) ∨ h.cell? a = some c := by
  unfold Records.look
  split_ifs with hn
  · obtain rfl := Address.isNil_iff.1 hn
    simp [cell?, s.not_isLive_nil, eq_comm]
  · have : a ≠ .nil := fun e => hn (Address.isNil_iff.2 e)
    simp [this]

theorem Sound.isSome_look (s : Sound h) : (Records.look h.cell? a).isSome ↔ a = .nil ∨
    h.isLive a := by
  rw [Option.isSome_iff_exists]
  simp only [s.look_eq_some, cell?_eq_some]
  grind

theorem Sound.isPinned_ok (s : Sound h) {b : Bool} : h.isPinned a = .ok b ↔
    (a = .nil ∧ b = true) ∨ ∃ c, h.cell? a = some c ∧ (c.pins != 0) = b := by
  unfold isPinned
  split_ifs with hn
  · obtain rfl := Address.isNil_iff.1 hn
    simp [cell?, s.not_isLive_nil, eq_comm]
  · have : a ≠ .nil := fun e => hn (Address.isNil_iff.2 e)
    by_cases hl : h.isLive a
    · simp [header, hl, this, cell?, cellAt, headerAt, bind, Except.bind, pure, Except.pure]
    · simp [header, hl, this, cell?, bind, Except.bind]

theorem Sound.expect_ok (s : Sound h) {t : Tag} {u : Unit} : h.expect a t = .ok u ↔
    (a = .nil ∧ t = .nil) ∨ ∃ c, h.cell? a = some c ∧ c.tag = t := by
  simp only [expect, except_bind_ok, except_pure_ok, and_true]
  constructor
  · rintro ⟨hd, e⟩
    obtain ⟨e, ht⟩ := shapeAs_ok e
    rcases shape_ok e with ⟨rfl, rfl⟩ | ⟨hl, rfl⟩
    · have e := Tag.ofNumber?_number t
      rw [← ht, show (0 : UInt16).toNat = Tag.nil.number from rfl, Tag.ofNumber?_number] at e
      exact .inl ⟨rfl, (Option.some_inj.1 e).symm⟩
    · exact .inr ⟨_, cell?_eq_some.2 ⟨hl, rfl⟩, tag_eq_of_number ht⟩
  · rintro (⟨rfl, rfl⟩ | ⟨c, hc, ht⟩)
    · exact ⟨_, rfl⟩
    · exact ⟨_, s.shapeAs hc ht⟩

theorem Sound.childAt_ok (s : Sound h) {i : Nat} {b : Address} :
    h.childAt a i = .ok b ↔ ∃ c, h.cell? a = some c ∧ c.children[i]? = some b := by
  simp only [childAt, except_bind_ok, s.tag_ok, s.child_ok]
  constructor
  · rintro ⟨t, -, c, hc, -, hb⟩
    exact ⟨c, hc, hb⟩
  · rintro ⟨c, hc, hb⟩
    exact ⟨c.tag, .inr ⟨c, hc, rfl⟩, c, hc, rfl, hb⟩

/-- A question is answered by what stands at the address, and by nothing else. -/
theorem Question.ask_eq_ok (s : Sound h) {q : Question} {r : Reply} :
    q.ask a h = .ok r ↔ ∃ c, Records.look h.cell? a = some c ∧ q.answer c = some r := by
  simp only [s.look_eq_some]
  cases q <;> simp only [ask, answer, except_bind_ok, except_pure_ok, s.tag_ok, s.numFields_ok,
    s.numChildren_ok, s.children_ok, s.refCount_ok, s.isPinned_ok, s.expect_ok, s.field_ok,
    s.child_ok, s.childAt_ok] <;> grind

/-- References given up are dropped as `Drops` says. -/
theorem Sound.drain_drops {l : List Address} (s : Sound h) (run : h.drain l = .ok () h') :
    Drops h.cell? l h'.cell? := by
  induction h, l using drain.induct with
  | case1 h =>
    rw [drain] at run
    cases run
    exact .done
  | case2 h a rest hn ih =>
    rw [drain, if_pos hn] at run
    obtain rfl := Address.isNil_iff.1 hn
    exact .nil (ih s run)
  | case3 h a rest hn hl count h0 =>
    rw [drain, if_neg hn, dif_pos hl] at run
    simp [count] at h0
    simp [h0] at run
  | case4 h a rest hn hl count h0 hd next pool last q hq ih =>
    have hc := cell?_eq_some.2 ⟨hl, rfl⟩
    have u := s.put_count hc (count - 1)
    obtain ⟨q', hq', u'⟩ := u.sound.discarded (a := a) (h := h.setWord (a.index + 1) (count - 1)) hl
    obtain rfl : q' = q := by simpa [Heap.setWord, hq, pool] using hq'.symm
    rw [drain, if_neg hn, dif_pos hl] at run
    dsimp only at run
    rw [if_neg h0, if_pos last, show (h.pool.setWord _ _).deallocate a.index =
      .ok q' from hq] at run
    refine .release hc last.1 last.2 ?_
    rw [← (u.trans u').cells]
    exact ih (u.trans u').sound run
  | case5 h a rest hn hl count h0 hd pool last e he =>
    rw [drain, if_neg hn, dif_pos hl] at run
    dsimp only at run
    rw [if_neg h0, if_pos last, show (h.pool.setWord _ _).deallocate a.index =
      .error e from he] at run
    cases run
  | case6 h a rest hn hl count h0 hd pool kept ih =>
    have hc := cell?_eq_some.2 ⟨hl, rfl⟩
    have u := s.put_count hc (count - 1)
    rw [drain, if_neg hn, dif_pos hl] at run
    dsimp only at run
    rw [if_neg h0, if_neg kept] at run
    have rest := ih u.sound run
    rw [show Heap.cell? ⟨pool, h.live⟩ = _ from u.cells] at rest
    exact .lower hc h0 kept rest
  | case7 h a rest hn hl =>
    rw [drain, if_neg hn, dif_neg hl] at run
    cases run

end Heap
end GoMachine
