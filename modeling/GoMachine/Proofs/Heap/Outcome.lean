import GoMachine.Proofs.Heap.Facts
import GoMachine.Proofs.Heap.Prune
import GoMachine.Proofs.Heap.Records
/-!
# How operations end

A client of the heap owns references and pins, and gives up or moves nothing else. `Outcome` says
how an operation that such a client asks for ends: it goes well and does what `Does` says, or it
fails for want of memory, or because the records do not allow for it. The counts are exact in each
case. A `setChild` that fails for want of a slot has taken its reference to the child already; the
count includes that reference from then on, and `Op.stuck` hands it to the client.

* `Owns.setChild_outcome`, `Owns.free_outcome`, ...: one lemma for each operation.
-/
namespace GoMachine

/-- `unpin` with another way to drop the references of a record that is released. -/
def HeapM.unpinBy (drop : List Address → HeapM Unit) (a : Address) : HeapM Unit := do
  if a.isNil then return
  let pins := (← ask (·.header a)).pins
  if pins = 0 then throw (.unbalancedUnpin a)
  setPins a (pins - 1)
  if pins = 1 ∧ (← ask (·.refCount a)) = 0 then
    let hd ← ask (·.header a)
    let next ← modifyGet fun h => ((h.slots a hd).reverse, { h with live := h.live.erase a.index })
    let pool ← ask (·.pool.deallocate a.index)
    modify ({ · with pool })
    drop next

namespace Heap

namespace Op

/-- Whether an operation gives up nothing but what a client owns. -/
def Entitled (O : Multiset Address) : Op → Prop
  | free a | setChildOwned _ _ _ a => a = .nil ∨ a ∈ O
  | sweep roots => ∀ a ∈ O, a ≠ .nil → a ∈ roots
  | _ => True

/-- What a client owns when an operation has gone well. -/
def owned (O : Multiset Address) : Op → Reply → Multiset Address
  | allocate .., .address a | copy _, .address a | takeChild .., .address a
  | reference _, .address a => a ::ₘ O
  | free a, _ | setChildOwned _ _ _ a, _ => O.erase a
  | _, _ => O

/-- What a client has pinned when an operation has gone well. -/
def pinned (P : Multiset Address) : Op → Multiset Address
  | pin a => a ::ₘ P
  | unpin a => P.erase a
  | _ => P

/-- What a client owns when an operation has failed. -/
def stuck (h : Heap) (O : Multiset Address) : Op → Multiset Address
  | setChild _ _ _ c => if h.isLive c then c ::ₘ O else O
  | _ => O

/-- Whether an operation makes a record. -/
def Allocates : Op → Prop
  | allocate .. | copy _ => True
  | _ => False

end Op

/-- How an operation of a client ends. -/
structure Outcome (P O : Multiset Address) (op : Op) (h : Heap) : Prop where
  done : ∀ r h', op.run h = .ok r h' →
    Does h.cell? op r h'.cell? ∧ Exact (op.pinned P) (op.owned O r) h'
  failed : ∀ e h', op.run h = .error e h' → h'.cell? = op.leftover h.cell? ∧
    Exact P (op.stuck h O) h' ∧
    ((∃ words free, e = .outOfMemory words free ∧ op.Allocates) ∨ ∀ r m, ¬Does h.cell? op r m)

variable {P O : Multiset Address} {h h' : Heap} {a b c old : Address} {o : Cell} {t : Tag} {i : Nat}
  {w : UInt64} {op : Op}

namespace Outcome

/-- An operation that goes well. -/
theorem of_gives (g : Gives op.run h fun r h' =>
    Does h.cell? op r h'.cell? ∧ Exact (op.pinned P) (op.owned O r) h') : Outcome P O op h := by
  obtain ⟨r, h', run, done⟩ := g
  refine ⟨fun r' h'' run' => ?_, fun e h'' run' => ?_⟩
  · rw [run] at run'
    cases run'
    exact done
  · rw [run] at run'
    cases run'

/-- An operation that fails. -/
theorem of_error {e : HeapError} (run : op.run h = .error e h')
    (left : h'.cell? = op.leftover h.cell?) (x : Exact P (op.stuck h O) h')
    (why : (∃ words free, e = .outOfMemory words free ∧ op.Allocates) ∨
    ∀ r m, ¬Does h.cell? op r m) :
    Outcome P O op h := by
  refine ⟨fun r h'' run' => ?_, fun e' h'' run' => ?_⟩
  · rw [run] at run'
    cases run'
  · rw [run] at run'
    cases run'
    exact ⟨left, x, why⟩

/-- An operation that the records do not allow for, and that changes nothing. -/
theorem refused {e : HeapError} (run : op.run h = .error e h) (x : Exact P (op.stuck h O) h)
    (same : op.leftover h.cell? = h.cell?) (barred : ∀ r m, ¬Does h.cell? op r m) :
    Outcome P O op h :=
  .of_error run same.symm x (.inr barred)

end Outcome

/-! ## Changes of single records -/

namespace Exact

theorem setField (x : Exact P O h) (hc : h.cell? a = some o) (hi : i < o.fields.length) :
    Gives (HeapM.setField a o.tag i w) h fun _ h' => Exact P O h' ∧
      h'.cell? = Function.update h.cell? a (some { o with fields := o.fields.set i w }) :=
  Gives.ask (x.sound.fieldSlot_ok.2 ⟨o, hc, rfl, hi, rfl⟩)
    (.modify ⟨x.put_field hc hi, (x.sound.put_field hc hi).cells⟩)

theorem setChildOwned (x : Exact P (c ::ₘ O) h) (hc : h.cell? a = some o)
    (hold : o.children[i]? = some old) :
    Gives (HeapM.setChildOwned a o.tag i c) h fun _ h' => Exact P O h' ∧
      Drops (Function.update h.cell? a (some { o with children := o.children.set i c })) [old]
        h'.cell? := by
  obtain ⟨slot, word, exact, u⟩ := Holds.put_child x hc hold
  refine Gives.ask slot (Gives.bind (Q := fun old' h₁ => old' = old ∧
    h₁ = h.setWord (a.index + 2 + o.fields.length + i) c.toWord) ⟨_, _, rfl, word, rfl⟩ ?_)
  rintro _ _ ⟨rfl, rfl⟩
  obtain ⟨h', run, x', -⟩ := exact.free
  rw [← u.cells]
  exact ⟨(), h', run, x', u.sound.drain_drops run⟩

theorem takeChild (x : Exact P O h) (hc : h.cell? a = some o) (hold : o.children[i]? = some old) :
    Gives (HeapM.takeChild a o.tag i) h fun b h' => b = old ∧ Exact P (old ::ₘ O) h' ∧
      h'.cell? = Function.update h.cell? a (some { o with children := o.children.set i .nil }) := by
  have widened : Exact P (.nil ::ₘ O) h := x.congr fun a ha => Multiset.count_cons_of_ne ha O
  obtain ⟨slot, word, exact, u⟩ := Holds.put_child widened hc hold
  exact Gives.ask slot ⟨_, _, rfl, word, exact, u.cells⟩

theorem congr_pins {P' : Multiset Address} (x : Exact P O h)
    (same : ∀ a, a ≠ .nil → P'.count a = P.count a) : Exact P' O h := by
  refine ⟨x.sound, x.count, fun {a c} hc => ?_, x.idle, fun {a} ha => ?_⟩
  · rw [x.pins hc, same a (x.sound.ne_nil (cell?_eq_some.1 hc).1)]
  · by_cases hn : a = .nil
    · exact .inl hn
    refine x.closed ?_
    rwa [← Multiset.count_pos, Multiset.count_add, same a hn, ← Multiset.count_add,
      Multiset.count_pos] at ha

/-- The pins of a record change. -/
theorem put_pins {P' : Multiset Address} {p : UInt16} (x : Exact P O h) (hc : h.cell? a = some o)
    (u : Becomes h a (some { o with pins := p }) h') (here : p.toNat = P'.count a)
    (others : ∀ b, b ≠ a → b ≠ .nil → P'.count b = P.count b) (idle : o.count = 0 → p ≠ 0) :
    Exact P' O h' := by
  have e := u.edges
  rw [hc, kids_some, kids_some, add_left_inj] at e
  have cases : ∀ {b c}, h'.cell? b = some c →
      (b = a ∧ c = { o with pins := p }) ∨ (b ≠ a ∧ h.cell? b = some c) := by
    intro b c hb
    by_cases hne : b = a
    · rw [hne, u.cell?_self, Option.some_inj] at hb
      exact .inl ⟨hne, hb.symm⟩
    · exact .inr ⟨hne, by rwa [u.cell?_of_ne hne] at hb⟩
  refine ⟨u.sound, fun {b c} hb => ?_, fun {b c} hb => ?_, fun {b c} hb => ?_, fun {b} hb => ?_⟩
  · rw [e]
    rcases cases hb with ⟨rfl, rfl⟩ | ⟨-, hb⟩
    · exact x.count (c := o) hc
    · exact x.count hb
  · have hn := u.sound.ne_nil (cell?_eq_some.1 hb).1
    rcases cases hb with ⟨rfl, rfl⟩ | ⟨hne, hb⟩
    · exact here
    · rw [others b hne hn]
      exact x.pins hb
  · rcases cases hb with ⟨rfl, rfl⟩ | ⟨-, hb⟩
    · exact idle
    · exact x.idle hb
  · by_cases hne : b = a
    · rw [hne, ← isSome_cell?, u.cell?_self]
      exact .inr rfl
    by_cases hn : b = .nil
    · exact .inl hn
    rw [u.isLive_of_ne hne]
    refine x.closed ?_
    rw [← Multiset.count_pos, Multiset.count_add, e, others b hne hn, ← Multiset.count_add] at hb
    exact Multiset.count_pos.1 hb

end Exact

/-- A reference is taken. -/
theorem Owns.reference_gain (own : Owns P 0 O h) (here : a = .nil ∨ h.isLive a) :
    Gives (HeapM.reference a) h fun b h' => b = a ∧ Exact P (a ::ₘ O) h' ∧
      h'.cell? = Records.gain h.cell? [a] := by
  unfold HeapM.reference
  split
  · next hn =>
    obtain rfl := Address.isNil_iff.1 hn
    refine .pure ⟨rfl, (Owns.cons_nil.2 own).exact, ?_⟩
    funext b
    cases hb : h.cell? b with
    | none => simp [Records.gain, hb]
    | some c =>
      have := own.exact.sound.ne_nil (cell?_eq_some.1 hb).1
      simp [Records.gain, hb, this.symm]
  · next hn =>
    have hc := cell?_eq_some.2 ⟨here.resolve_left fun e => hn (Address.isNil_iff.2 e), rfl⟩
    refine Gives.ask (own.exact.sound.refCount_ok.2 (.inr ⟨_, hc, rfl⟩)) (Gives.bind
      (Q := fun _ h' => Exact P (a ::ₘ O) h' ∧ h'.cell? = Records.gain h.cell? [a]) (.modify ?_)
      fun _ _ done => .pure ⟨rfl, done⟩)
    refine ⟨own.exact.gain hc (own.count_lt hc), ?_⟩
    rw [(own.exact.sound.put_count hc _).cells]
    funext b
    by_cases hne : b = a
    · subst hne
      simp [Records.gain, hc]
    · rw [Function.update_of_ne hne]
      cases hb : h.cell? b with
      | none => simp [Records.gain, hb]
      | some c => simp [Records.gain, hb, Ne.symm hne]

/-- An action that goes well in front of something else. -/
theorem run_bind {α β : Type} {act : HeapM α} {f : α → HeapM β} {r : α} (run : act h = .ok r h') :
    (act >>= f) h = f r h' := by
  simp only [bind, EStateM.bind, run]

/-- A question with an answer in front of something else. -/
theorem ask_bind {α β : Type} {q : Heap → Except HeapError α} {f : α → HeapM β} {r : α}
    (e : q h = .ok r) : (HeapM.ask q >>= f) h = f r h := by
  simp only [HeapM.ask, bind, EStateM.bind, e]

theorem Sound.setPins (s : Sound h) (hc : h.cell? a = some o) (p : UInt16) :
    ∃ h₁, HeapM.setPins a p h = .ok () h₁ ∧ Becomes h a (some { o with pins := p }) h₁ ∧
    Prunes h h₁ := by
  have hl := (cell?_eq_some.1 hc).1
  have := s.room a hl
  refine ⟨_, ?_, s.put_pins hc p, s.setWord_prunes hl le_rfl (by omega)⟩
  rw [HeapM.setPins, ask_bind (header_of_isLive hl)]
  rfl

/-- A reference to a record that is not there. -/
theorem reference_dead (dead : ¬(a = .nil ∨ h.isLive a)) :
    HeapM.reference a h = .error (.released a) h ∧ Records.gain h.cell? [a] = h.cell? := by
  obtain ⟨hne, dead⟩ := not_or.1 dead
  have hn : a.isNil = false := by
    rwa [← Bool.not_eq_true, Address.isNil_iff]
  constructor
  · simp [HeapM.reference, hn, HeapM.ask, refCount, header, dead, bind, EStateM.bind, Except.bind]
  · funext b
    cases hb : h.cell? b with
    | none => simp [Records.gain, hb]
    | some o =>
      have hne : a ≠ b := by
        rintro rfl
        exact dead (cell?_eq_some.1 hb).1
      simp [Records.gain, hb, hne]

/-- A record is made, unless it is too large or the memory is full. -/
theorem Exact.allocate (x : Exact P O h) {fields children : Nat} :
    (fields ≤ Header.limit ∧ children ≤ Header.limit ∧
      Gives (HeapM.allocate t fields children) h fun a h' => a ≠ .nil ∧ h.cell? a = none ∧
        Exact P (a ::ₘ O) h' ∧ h'.cell? = Function.update h.cell? a
          (some ⟨t, .replicate fields 0, .replicate children .nil, 1, 0⟩)) ∨
    ∃ e, HeapM.allocate t fields children h = .error e h ∧
      ((∃ words free, e = .outOfMemory words free) ∨ Header.limit < fields ∨
      Header.limit < children) := by
  by_cases large : Header.limit < fields ∨ Header.limit < children
  · exact .inr ⟨_, if_pos large, .inr large⟩
  cases run : HeapM.allocate t fields children h with
  | ok a h' =>
    obtain ⟨dead, hne, u⟩ := x.sound.allocated run
    refine .inl ⟨by omega, by omega, a, h', run, hne, cell?_eq_none.2 dead, ?_, u.cells⟩
    exact x.create dead hne u rfl rfl fun b hb => List.eq_of_mem_replicate hb
  | error e h' =>
    unfold HeapM.allocate at run
    rw [if_neg large] at run
    cases hq : h.pool.allocate (2 + fields + children) with
    | none =>
      simp only [hq] at run
      cases run
      exact .inr ⟨_, rfl, .inl ⟨_, _, rfl⟩⟩
    | some found =>
      simp only [hq] at run
      cases run

/-! ## Operations -/

section

variable (own : Owns P 0 O h)
include own

theorem Owns.read_outcome {q : Question} : Outcome P O (.read q a) h := by
  cases e : q.ask a h with
  | ok r =>
    obtain ⟨c, hc, hr⟩ := (Question.ask_eq_ok own.exact.sound).1 e
    exact .of_gives ⟨r, h, ask_ok.2 ⟨e, rfl⟩, .read hc hr, own.exact⟩
  | error e' =>
    refine .refused (e := e') (by simp [Op.run, HeapM.ask, e]) own.exact rfl ?_
    rintro r m ⟨hc, hr⟩
    rw [(Question.ask_eq_ok own.exact.sound).2 ⟨_, hc, hr⟩] at e
    cases e

theorem Owns.allocate_outcome {fields children : Nat} :
    Outcome P O (.allocate t fields children) h := by
  rcases own.exact.allocate (t := t) with ⟨hf, hk, made⟩ | ⟨e, run, why⟩
  · refine .of_gives (made.bind fun a h' ⟨hne, fresh, x, cells⟩ => .pure ⟨?_, x⟩)
    rw [cells]
    exact .allocate hf hk hne fresh
  · refine .of_error (bind_error run) rfl own.exact
      (why.imp (fun ⟨words, free, e⟩ => ⟨words, free, e, trivial⟩) ?_)
    rintro large r m ⟨hf, hk⟩
    omega

theorem Owns.setField_outcome : Outcome P O (.setField a t i w) h := by
  cases e : h.fieldSlot a t i with
  | ok slot =>
    obtain ⟨c, hc, rfl, hi, -⟩ := own.exact.sound.fieldSlot_ok.1 e
    refine .of_gives ((own.exact.setField hc hi).bind fun _ h' ⟨x, cells⟩ => .pure ⟨?_, x⟩)
    rw [cells]
    exact .setField hc hi
  | error e' =>
    refine .refused (e := e') (bind_error (bind_error ?_)) own.exact rfl ?_
    · simp [HeapM.ask, e]
    · intro r m d
      cases d with
      | setField hc hi =>
        rw [own.exact.sound.fieldSlot_ok.2 ⟨_, hc, rfl, hi, rfl⟩] at e
        cases e

omit own in
/-- What a client owns besides one of its references. -/
theorem Exact.split (x : Exact P O h) (mine : a = .nil ∨ a ∈ O) : Exact P (a ::ₘ O.erase a) h := by
  by_cases ha : a ∈ O
  · rwa [Multiset.cons_erase ha]
  · obtain rfl := mine.resolve_right ha
    rw [Multiset.erase_of_notMem ha]
    exact x.congr fun b hb => Multiset.count_cons_of_ne hb O

omit own in
/-- A child slot that cannot be written is none. -/
theorem Sound.not_does_setChildOwned {e : HeapError} (s : Sound h)
    (he : h.childSlot a t i = .error e)
    (r : Reply) (m : Records) : ¬Does h.cell? (.setChildOwned a t i c) r m := by
  intro d
  cases d with
  | setChildOwned hc hold _ =>
    obtain ⟨hi, -⟩ := List.getElem?_eq_some_iff.1 hold
    rw [s.childSlot_ok.2 ⟨_, hc, rfl, hi, rfl⟩] at he
    cases he

theorem Owns.setChildOwned_outcome (mine : c = .nil ∨ c ∈ O) :
    Outcome P O (.setChildOwned a t i c) h := by
  cases e : h.childSlot a t i with
  | ok slot =>
    obtain ⟨o, ho, rfl, -, hold⟩ := own.exact.sound.childSlot_word e
    exact .of_gives (((own.exact.split mine).setChildOwned ho hold).bind
      fun _ h' ⟨x, drops⟩ => .pure ⟨.setChildOwned ho hold drops, x⟩)
  | error e' =>
    refine .refused (e := e') (bind_error (bind_error ?_)) own.exact rfl
      (own.exact.sound.not_does_setChildOwned e)
    simp [HeapM.ask, e]

theorem Owns.setChild_outcome : Outcome P O (.setChild a t i c) h := by
  by_cases here : c = .nil ∨ h.isLive c
  · obtain ⟨b, h₁, taken, same, x, cells⟩ := own.reference_gain here
    rw [same] at taken
    cases e : h₁.childSlot a t i with
    | ok slot =>
      obtain ⟨o, ho, rfl, -, hold⟩ := x.sound.childSlot_word e
      refine .of_gives (Gives.bind ?_ fun _ h' done => .pure done)
      refine Gives.bind (Q := fun _ h' => h' = h₁) ⟨_, h₁, taken, rfl⟩ ?_
      rintro _ _ rfl
      refine (x.setChildOwned ho hold).mono fun _ h' ⟨x', drops⟩ => ⟨?_, x'⟩
      rw [cells] at ho drops
      exact .setChild (own.exact.sound.isSome_look.2 here) (.setChildOwned ho hold drops)
    | error e' =>
      refine .of_error (e := e') (bind_error ?_) cells ?_ (.inr fun r m d => ?_)
      · simp only [HeapM.setChild, HeapM.setChildOwned, bind, EStateM.bind, taken, HeapM.ask, e]
      · simp only [Op.stuck]
        split_ifs with hl
        · exact x
        · obtain rfl := here.resolve_right hl
          exact x.congr fun b hb => (Multiset.count_cons_of_ne hb O).symm
      · cases d with
        | setChild _ d =>
          rw [← cells] at d
          exact x.sound.not_does_setChildOwned e r m d
  · obtain ⟨run, cells⟩ := reference_dead here
    refine .refused (bind_error (bind_error run)) ?_ cells fun r m d => ?_
    · rw [not_or] at here
      simpa [Op.stuck, here.2] using own.exact
    · cases d with
      | setChild seen _ => exact here (own.exact.sound.isSome_look.1 seen)

theorem Owns.takeChild_outcome : Outcome P O (.takeChild a t i) h := by
  cases e : h.childSlot a t i with
  | ok slot =>
    obtain ⟨o, ho, rfl, -, hold⟩ := own.exact.sound.childSlot_word e
    refine .of_gives ((own.exact.takeChild ho hold).bind fun b h' ⟨e, x, cells⟩ => .pure ⟨?_, ?_⟩)
    · rw [cells, e]
      exact .takeChild ho hold
    · exact e ▸ x
  | error e' =>
    refine .refused (e := e') (bind_error (bind_error ?_)) own.exact rfl fun r m d => ?_
    · simp [HeapM.ask, e]
    · cases d with
      | takeChild hc hold =>
        obtain ⟨hi, -⟩ := List.getElem?_eq_some_iff.1 hold
        rw [own.exact.sound.childSlot_ok.2 ⟨_, hc, rfl, hi, rfl⟩] at e
        cases e

theorem Owns.reference_outcome : Outcome P O (.reference a) h := by
  by_cases here : a = .nil ∨ h.isLive a
  · refine .of_gives ((own.reference_gain here).bind fun b h' ⟨e, x, cells⟩ => .pure ⟨?_, ?_⟩)
    · rw [cells, e]
      exact .reference (own.exact.sound.isSome_look.2 here)
    · exact e ▸ x
  · obtain ⟨run, cells⟩ := reference_dead here
    refine .refused (bind_error run) own.exact rfl fun r m d => ?_
    cases d with
    | reference seen => exact here (own.exact.sound.isSome_look.1 seen)

theorem Owns.free_outcome (mine : a = .nil ∨ a ∈ O) : Outcome P O (.free a) h := by
  obtain ⟨h', run, x, -⟩ := (own.exact.split mine).free
  exact .of_gives (Gives.bind (Q := fun _ h'' => h'' = h') ⟨(), h', run, rfl⟩ fun _ _ e =>
    .pure ⟨.free (e ▸ own.exact.sound.drain_drops run), e ▸ x⟩)

theorem Owns.pin_outcome : Outcome P O (.pin a) h := by
  by_cases hn : a.isNil
  · obtain rfl := Address.isNil_iff.1 hn
    refine .of_gives ⟨.done, h, rfl, .pinNil, own.exact.congr_pins fun b hb => ?_⟩
    exact Multiset.count_cons_of_ne hb P
  by_cases hl : h.isLive a
  · have hc := cell?_eq_some.2 ⟨hl, rfl⟩
    have pins := own.exact.pins hc
    by_cases full : (h.headerAt a).pins.toNat = Header.limit
    · have run : HeapM.pin a h = .error (.pinOverflow a) h := by
        rw [HeapM.pin, if_neg hn, ask_bind (header_of_isLive hl), if_pos full]
        rfl
      refine .refused (bind_error run) own.exact rfl fun r m d => ?_
      cases d with
      | pinNil => exact hn rfl
      | pin hc' small =>
        rw [hc, Option.some_inj] at hc'
        rw [← hc'] at small
        exact absurd full (Nat.ne_of_lt small)
    · obtain ⟨h₁, run, u, -⟩ := own.exact.sound.setPins hc ((h.headerAt a).pins + 1)
      have run : HeapM.pin a h = .ok () h₁ := by
        rw [HeapM.pin, if_neg hn, ask_bind (header_of_isLive hl), if_neg full]
        exact run
      have small := (h.headerAt a).pins.toNat_lt
      simp only [Header.limit] at full
      have grows : ((h.headerAt a).pins + 1).toNat = (h.headerAt a).pins.toNat + 1 := by
        rw [UInt16.toNat_add]
        exact Nat.mod_eq_of_lt (by simp only [UInt16.toNat_one]; omega)
      refine .of_gives ⟨.done, h₁, bind_ok.2 ⟨(), _, run, rfl⟩, ?_,
        own.exact.put_pins hc u ?_ ?_ ?_⟩
      · rw [u.cells]
        exact .pin hc (show (h.headerAt a).pins.toNat < 65535 by omega)
      · rw [grows, Op.pinned, Multiset.count_cons_self]
        exact congrArg (· + 1) pins
      · exact fun b hb _ => Multiset.count_cons_of_ne hb P
      · intro _ h0
        rw [h0] at grows
        cases grows
  · have run : HeapM.pin a h = .error (.released a) h := by
      simp [HeapM.pin, hn, HeapM.ask, header, hl, bind, EStateM.bind]
    refine .refused (bind_error run) own.exact rfl fun r m d => ?_
    cases d with
    | pinNil => exact hn rfl
    | pin hc _ => exact hl (cell?_eq_some.1 hc).1

omit own in
/-- The last pin of a record that nobody refers to is removed, and the record goes away. What stands
in its slots is left to be dropped. -/
theorem Exact.unpinBy_last (x : Exact P O h) (hc : h.cell? a = some o) (last : o.pins = 1)
    (idle : o.count = 0) : ∃ h₁, (∀ k, HeapM.unpinBy k a h = k o.children.reverse h₁) ∧
      Becomes h a none h₁ ∧ Exact (P.erase a) (o.children.reverse + O) h₁ ∧ Prunes h h₁ := by
  obtain ⟨hl, rfl⟩ := cell?_eq_some.1 hc
  have hn : ¬a.isNil := fun e => by simp [x.sound.isNil_eq_false hl] at e
  have pinned : ¬(h.headerAt a).pins = 0 := by
    rw [show (h.headerAt a).pins = 1 from last]
    decide
  have pred : (h.headerAt a).pins - 1 = 0 := by
    rw [show (h.headerAt a).pins = 1 from last]
    rfl
  obtain ⟨h₁, run₁, u, lowered⟩ := x.sound.setPins hc 0
  have count := u.sound.refCount_ok.2 (.inr ⟨_, u.cell?_self, rfl⟩)
  obtain ⟨hl₁, kids⟩ := cell?_eq_some.1 u.cell?_self
  obtain ⟨q, hq, u'⟩ := u.sound.discarded hl₁
  have gone := u.trans u'
  have e := gone.edges
  rw [hc, kids_none, add_zero, kids_some] at e
  have unheld : (O + h.edges).count a = 0 ∧ P.count a = 1 := by
    rw [← x.count hc, ← x.pins hc, idle, last]
    exact ⟨rfl, rfl⟩
  refine ⟨_, fun k => ?_, gone, x.remove gone (fun b _ => ?_)
    (fun b hb => Multiset.count_erase_of_ne hb P) ?_, ?_⟩
  · rw [HeapM.unpinBy, if_neg hn, ask_bind (header_of_isLive hl), if_neg pinned, pred]
    refine (run_bind run₁).trans ?_
    rw [ask_bind count, if_pos ⟨last, idle⟩, ask_bind (header_of_isLive hl₁)]
    refine (run_bind (modifyGet_ok.2 rfl)).trans ?_
    rw [ask_bind (show Pool.deallocate h₁.pool a.index = .ok q from hq),
      ← congrArg Cell.children kids]
    rfl
  · rw [← e, Multiset.coe_reverse]
    simp only [Multiset.count_add]
    omega
  · rw [← e] at unheld
    simp only [Multiset.count_add, Multiset.count_erase_self, Multiset.coe_reverse] at *
    omega
  · exact lowered.trans (u.sound.discarded_prunes hl₁ hq)

omit own in
theorem Exact.unpin_last (x : Exact P O h) (hl : h.isLive a) (last : (h.cellAt a).pins = 1)
    (idle : (h.cellAt a).count = 0) : Gives (HeapM.unpin a) h fun _ h' =>
      Exact (P.erase a) O h' ∧
      Drops (Function.update h.cell? a none) (h.cellAt a).children.reverse h'.cell? := by
  obtain ⟨h₁, run₁, gone, x₁, -⟩ := x.unpinBy_last (cell?_eq_some.2 ⟨hl, rfl⟩) last idle
  obtain ⟨h', run, x', -⟩ := x₁.drain
  rw [← gone.cells]
  exact ⟨(), h', (run₁ fun l h => h.drain l).trans run, x', gone.sound.drain_drops run⟩

theorem Owns.unpin_outcome : Outcome P O (.unpin a) h := by
  by_cases hn : a.isNil
  · obtain rfl := Address.isNil_iff.1 hn
    refine .of_gives ⟨.done, h, rfl, .unpinNil, own.exact.congr_pins fun b hb => ?_⟩
    exact Multiset.count_erase_of_ne hb P
  by_cases hl : h.isLive a
  · have hc := cell?_eq_some.2 ⟨hl, rfl⟩
    by_cases h0 : (h.cellAt a).pins = 0
    · have run : HeapM.unpin a h = .error (.unbalancedUnpin a) h := by
        rw [HeapM.unpin, if_neg hn, ask_bind (header_of_isLive hl),
          if_pos (show (h.headerAt a).pins = 0 from h0)]
        rfl
      refine .refused (bind_error run) own.exact rfl fun r m d => ?_
      cases d with
      | unpinNil => exact hn rfl
      | unpin hc' pinned _ =>
        rw [hc, Option.some_inj] at hc'
        exact pinned (hc' ▸ h0)
      | unpinLast hc' one _ _ =>
        rw [hc, Option.some_inj] at hc'
        rw [hc', one] at h0
        cases h0
    by_cases last : (h.cellAt a).pins = 1 ∧ (h.cellAt a).count = 0
    · exact .of_gives ((own.exact.unpin_last hl last.1 last.2).bind fun _ h' ⟨x, drops⟩ =>
        .pure ⟨.unpinLast hc last.1 last.2 drops, x⟩)
    · obtain ⟨h₁, run₁, u, -⟩ := own.exact.sound.setPins hc ((h.headerAt a).pins - 1)
      have count := u.sound.refCount_ok.2 (.inr ⟨_, u.cell?_self, rfl⟩)
      have run : HeapM.unpin a h = .ok () h₁ := by
        rw [HeapM.unpin, if_neg hn, ask_bind (header_of_isLive hl),
          if_neg (show ¬(h.headerAt a).pins = 0 from h0)]
        refine bind_ok.2 ⟨(), h₁, run₁, ?_⟩
        rw [ask_bind count]
        exact congrFun (if_neg last) h₁
      have pins : (h.headerAt a).pins.toNat = P.count a := own.exact.pins hc
      have pos : 1 ≤ (h.headerAt a).pins := by
        change ¬(h.headerAt a).pins = 0 at h0
        grind
      have pred : ((h.headerAt a).pins - 1).toNat = (h.headerAt a).pins.toNat - 1 :=
        UInt16.toNat_sub_of_le _ _ pos
      refine .of_gives ⟨.done, h₁, bind_ok.2 ⟨(), _, run, rfl⟩, ?_,
        own.exact.put_pins hc u ?_ ?_ ?_⟩
      · rw [u.cells]
        exact .unpin hc h0 last
      · rw [pred, Op.pinned, Multiset.count_erase_self, pins]
      · exact fun b hb _ => Multiset.count_erase_of_ne hb P
      · intro idle h1
        refine last ⟨?_, idle⟩
        change (h.headerAt a).pins = 1
        grind
  · have run : HeapM.unpin a h = .error (.released a) h := by
      simp [HeapM.unpin, hn, HeapM.ask, header, hl, bind, EStateM.bind]
    refine .refused (bind_error run) own.exact rfl fun r m d => ?_
    cases d with
    | unpinNil => exact hn rfl
    | unpin hc _ _ | unpinLast hc _ _ _ => exact hl (cell?_eq_some.1 hc).1

end

end Heap
end GoMachine
