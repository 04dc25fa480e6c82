import GoMachine.Proofs.Heap.Outcome
/-!
# The heaps that there are

A heap arises from an empty one by operations, whatever a client asks for: operations may fail, and
references may be given up that nobody owns. Each heap that arises is `Tidy`: it is sound, and no
two halves of a block of its pool are both free.

* `Op.upholds_tidy`: no operation leaves an untidy heap behind, whether it ends well or fails.
-/
namespace GoMachine
namespace Heap

/-- A sound heap over a pool without two free halves of a block. -/
structure Tidy (h : Heap) : Prop where
  sound : h.Sound
  joined : h.pool.Joined

variable {α : Type} {h h' : Heap} {a b : Address} {t : Tag} {i j : Nat} {w : UInt64}

namespace Tidy

theorem of_becomes (d : Tidy h) {o : Option Cell} (u : Becomes h a o h') (k : Prunes h h') :
    Tidy h' :=
  ⟨u.sound, k.joined d.joined⟩

/-- A word behind the header of a record is overwritten. -/
theorem setWord (d : Tidy h) (hl : h.isLive a) (h1 : a.index < j)
    (h2 : j < a.index + 2 + (h.headerAt a).fields.toNat + (h.headerAt a).children.toNat) :
    Tidy (h.setWord j w) := by
  have := d.sound.room a hl
  exact d.of_becomes (d.sound.becomes_setWord_slot hl h1 h2).2
    (d.sound.setWord_prunes hl (by omega) (by omega))

theorem setField (d : Tidy h) (e : h.fieldSlot a t i = .ok j) : Tidy (h.setWord j w) := by
  obtain ⟨c, hc, -, hi, rfl⟩ := d.sound.fieldSlot_ok.1 e
  obtain ⟨hl, rfl⟩ := cell?_eq_some.1 hc
  rw [length_fields] at hi
  exact d.setWord hl (by omega) (by omega)

theorem setSlot (d : Tidy h) (e : h.childSlot a t i = .ok j) : Tidy (h.setWord j w) := by
  obtain ⟨c, hc, -, hi, rfl⟩ := d.sound.childSlot_ok.1 e
  obtain ⟨hl, rfl⟩ := cell?_eq_some.1 hc
  rw [length_children] at hi
  rw [length_fields]
  exact d.setWord hl (by omega) (by omega)

theorem setCount (d : Tidy h) (hl : h.isLive a) : Tidy (h.setWord (a.index + 1) w) :=
  d.setWord hl (by omega) (by omega)

theorem discarded (d : Tidy h) (hl : h.isLive a) : ∃ q, h.pool.deallocate a.index = .ok q ∧
    Tidy ⟨q, h.live.erase a.index⟩ := by
  obtain ⟨q, hq, u⟩ := d.sound.discarded hl
  exact ⟨q, hq, d.of_becomes u (d.sound.discarded_prunes hl hq)⟩

/-- References are dropped, whether they are owned or not. -/
theorem drain {l : List Address} (d : Tidy h) :
    ∃ h', (h.drain l = .ok () h' ∨ ∃ e, h.drain l = .error e h') ∧ Tidy h' := by
  induction h, l using Heap.drain.induct with
  | case1 h => exact ⟨h, .inl (by rw [Heap.drain]), d⟩
  | case2 h a rest hn ih =>
    rw [Heap.drain, if_pos hn]
    exact ih d
  | case3 h a rest hn hl count h0 =>
    rw [Heap.drain, if_neg hn, dif_pos hl]
    exact ⟨h, .inr ⟨.doubleFree a, if_pos h0⟩, d⟩
  | case4 h a rest hn hl count h0 hd next pool last q hq ih =>
    obtain ⟨q', hq', d'⟩ := (d.setCount (w := count - 1) hl).discarded (a := a) hl
    obtain rfl : q' = q := by simpa [Heap.setWord, hq, pool] using hq'.symm
    rw [Heap.drain, if_neg hn, dif_pos hl]
    dsimp only
    rw [if_neg h0, if_pos last, show (h.pool.setWord _ _).deallocate a.index = .ok q' from hq]
    exact ih d'
  | case5 h a rest hn hl count h0 hd pool last e he =>
    obtain ⟨q, hq, -⟩ := (d.setCount (w := count - 1) hl).discarded (a := a) hl
    rw [Heap.setWord, he] at hq
    cases hq
  | case6 h a rest hn hl count h0 hd pool kept ih =>
    rw [Heap.drain, if_neg hn, dif_pos hl]
    dsimp only
    rw [if_neg h0, if_neg kept]
    exact ih (d.setCount hl)
  | case7 h a rest hn hl =>
    exact ⟨h, .inr ⟨.released a, by rw [Heap.drain, if_neg hn, dif_neg hl]⟩, d⟩

end Tidy

/-! ## Operations -/

theorem upholds_drain {l : Heap → List Address} :
    Upholds Tidy (fun h => h.drain (l h) : HeapM Unit) := by
  intro h d
  obtain ⟨h', run | ⟨e, run⟩, d'⟩ := d.drain (l := l h)
  · exact .inl ⟨(), h', run, d'⟩
  · exact .inr ⟨e, h', run, d'⟩

/-- A question in front of something that may rely on the answer. -/
theorem upholds_ask {β : Type} {q : Heap → Except HeapError α} {f : α → HeapM β}
    (hf : ∀ r h, Tidy h → q h = .ok r → Ends (fun _ h' => Tidy h') (f r) h fun _ h' => Tidy h') :
    Upholds Tidy (HeapM.ask q >>= f) := by
  intro h d
  cases e : q h with
  | ok r =>
    have asked : Gives (HeapM.ask q) h fun r' h' => r' = r ∧ h' = h :=
      ⟨r, h, ask_ok.2 ⟨e, rfl⟩, rfl, rfl⟩
    exact asked.before fun _ _ ⟨same, same'⟩ => same ▸ same' ▸ hf r h d e
  | error e' => exact .inr ⟨e', h, bind_error (by simp [HeapM.ask, e]), d⟩

theorem asks_tidy {q : Heap → Except HeapError α} : Upholds Tidy (HeapM.ask q) := by
  have := upholds_ask (q := q) (f := pure) fun _ _ d _ => .pure d
  simpa using this

end Heap

namespace HeapM

open Heap

variable {α : Type} {h h' : Heap} {a b : Address} {t : Tag} {i : Nat} {w : UInt64}

theorem setField_tidy : Upholds Tidy (setField a t i w) :=
  upholds_ask fun _ _ d e => (Gives.modify (d.setField e)).ends

theorem reference_tidy : Upholds Tidy (reference a) := by
  unfold reference
  split
  · exact .pure
  · next hn =>
    refine upholds_ask fun count h d e => ?_
    rcases d.sound.refCount_ok.1 e with ⟨rfl, -⟩ | ⟨c, hc, -⟩
    · exact absurd rfl hn
    · exact (Gives.modify (Q := fun _ h' => Tidy h') (d.setCount (cell?_eq_some.1 hc).1)).before
        fun _ _ d => .pure d

theorem free_tidy : Upholds Tidy (free a) := upholds_drain

theorem setChildOwned_tidy : Upholds Tidy (setChildOwned a t i b) :=
  upholds_ask fun _ _ d e => Gives.before (Q := fun _ h' => Tidy h') ⟨_, _, rfl, d.setSlot e⟩
    fun _ _ d => free_tidy _ d

theorem setChild_tidy : Upholds Tidy (setChild a t i b) := Upholds.bind reference_tidy fun _ =>
    setChildOwned_tidy

theorem takeChild_tidy : Upholds Tidy (takeChild a t i) :=
  upholds_ask fun _ _ d e => .inl ⟨_, _, rfl, d.setSlot e⟩

theorem allocate_tidy {fields children : Nat} : Upholds Tidy (allocate t fields children) := by
  intro h d
  cases run : allocate t fields children h with
  | ok a h' =>
    obtain ⟨-, -, u⟩ := d.sound.allocated run
    refine .inl ⟨a, h', run, u.sound, ?_⟩
    unfold allocate at run
    split_ifs at run
    rcases hq : h.pool.allocate (2 + fields + children) with _ | ⟨k, q⟩ <;> simp only [hq] at run
    · cases run
    simp only [EStateM.Result.ok.injEq] at run
    obtain ⟨-, rfl⟩ := run
    obtain ⟨-, serves, -, room, -⟩ := d.sound.serves.allocate hq
    have hk : k ∈ insert k {k | k ∈ h.live} := .inl rfl
    have joined := d.joined.allocate d.sound.serves hq
    have bounds := serves.bounds hk
    -- the header, the count, and then the slots
    have cap (w : UInt64) := serves.blockCapacity_setWord hk le_rfl (by omega) w hk
    have cap' (w w' : UInt64) := (serves.setWord hk le_rfl (by omega) w).blockCapacity_setWord hk
      (Nat.le_succ k) (by rw [cap]; omega) w' hk
    have joined (w : UInt64) := joined.setWord serves hk le_rfl (by omega) w
    have joined (w w' : UInt64) := (joined w).setWord (serves.setWord hk le_rfl (by omega) w) hk
      (Nat.le_succ k) (by rw [cap]; omega) w'
    refine (joined _ _).clear (.setWord (.setWord serves hk le_rfl (by omega) _) hk (Nat.le_succ k)
      (by rw [cap]; omega) _) hk (by omega) (fields + children) ?_
    rw [cap', cap]
    omega
  | error e h' =>
    refine .inr ⟨e, h', run, ?_⟩
    unfold allocate at run
    split_ifs at run
    · cases run
      exact d
    · rcases hq : h.pool.allocate (2 + fields + children) with _ | ⟨k, q⟩ <;> simp only [hq] at run
      · cases run
        exact d
      · cases run

theorem copy_tidy : Upholds Tidy (copy a) := by
  unfold copy
  refine Upholds.bind asks_tidy fun t => ?_
  refine Upholds.bind asks_tidy fun fields => ?_
  refine Upholds.bind asks_tidy fun children => ?_
  refine Upholds.bind allocate_tidy fun b => ?_
  refine .bind (.forIn fun i _ => ?_) fun _ => .bind (.forIn fun x _ => ?_) fun _ => .pure
  · exact Upholds.bind asks_tidy fun w => Upholds.bind setField_tidy fun _ => .pure
  · exact Upholds.bind setChild_tidy fun _ => .pure

theorem setPins_tidy {pins : UInt16} : Upholds Tidy (setPins a pins) := by
  refine upholds_ask fun hd h d e => (Gives.modify ?_).ends
  unfold Heap.header at e
  split_ifs at e with hl
  cases e
  have := d.sound.room a hl
  exact d.of_becomes (d.sound.put_pins (cell?_eq_some.2 ⟨hl, rfl⟩) pins)
    (d.sound.setWord_prunes hl le_rfl (by omega))

theorem pin_tidy : Upholds Tidy (pin a) :=
  .ite .pure (Upholds.bind asks_tidy fun _ =>
    .ite (.bind .throw fun _ => setPins_tidy) setPins_tidy)

/-- The end of `unpin`: the record goes away, and the references in its slots are dropped. -/
theorem release_tidy : Upholds Tidy (do
    let hd ← ask (·.header a)
    let next ← modifyGet fun h => ((h.slots a hd).reverse, { h with live := h.live.erase a.index })
    let pool ← ask (·.pool.deallocate a.index)
    modify ({ · with pool })
    fun h => h.drain next : HeapM Unit) := by
  refine upholds_ask fun hd h d e => ?_
  unfold Heap.header at e
  split_ifs at e with hl
  obtain ⟨q, hq, d'⟩ := d.discarded hl
  refine Gives.before (Q := fun _ h' => h' = ⟨h.pool, h.live.erase a.index⟩) ⟨_, _, rfl, rfl⟩ ?_
  rintro next _ rfl
  refine Gives.before (Q := fun p h' => p = q ∧ h' = ⟨h.pool, h.live.erase a.index⟩)
    ⟨q, _, ask_ok.2 ⟨hq, rfl⟩, rfl, rfl⟩ ?_
  rintro _ _ ⟨rfl, rfl⟩
  exact (Gives.modify (Q := fun _ h' => Tidy h') d').before fun _ _ d =>
    upholds_drain (l := fun _ => next) _ d

theorem unpin_tidy : Upholds Tidy (unpin a) :=
  .ite .pure (Upholds.bind asks_tidy fun _ => .ite
    (.bind .throw fun _ => Upholds.bind setPins_tidy fun _ => Upholds.bind asks_tidy fun _ =>
    .ite release_tidy .pure)
    (Upholds.bind setPins_tidy fun _ => Upholds.bind asks_tidy fun _ => .ite release_tidy .pure))

theorem markAndSweep_tidy {roots : List Address} : Upholds Tidy (markAndSweep roots) := by
  refine fun h d => Ends.get ?_
  obtain ⟨sub, -, -⟩ := unreached_closed (h := h) h.live (h.pinned ++ roots)
  obtain ⟨h₁, run, sound, -, prunes⟩ :=
    d.sound.discards (nodup_toList (h.unreached h.live (h.pinned ++ roots)))
    fun i hi => isLive_iff.2 (sub i (Std.TreeSet.mem_toList.1 hi))
  refine Gives.before (Q := fun _ h' => h' = h₁) ⟨_, _, run, rfl⟩ ?_
  rintro _ _ rfl
  exact (upholds_drain.bind fun _ => .pure) _ ⟨sound, prunes.joined d.joined⟩

end HeapM

namespace Heap

/-- No operation leaves an untidy heap behind, whether it ends well or fails. -/
theorem Op.upholds_tidy (op : Op) : Upholds Tidy op.run := by
  cases op with
  | read => exact asks_tidy
  | allocate => exact Upholds.bind HeapM.allocate_tidy fun _ => .pure
  | setField => exact Upholds.bind HeapM.setField_tidy fun _ => .pure
  | setChild => exact Upholds.bind HeapM.setChild_tidy fun _ => .pure
  | setChildOwned => exact Upholds.bind HeapM.setChildOwned_tidy fun _ => .pure
  | takeChild => exact Upholds.bind HeapM.takeChild_tidy fun _ => .pure
  | reference => exact Upholds.bind HeapM.reference_tidy fun _ => .pure
  | free => exact Upholds.bind HeapM.free_tidy fun _ => .pure
  | copy => exact Upholds.bind HeapM.copy_tidy fun _ => .pure
  | pin => exact Upholds.bind HeapM.pin_tidy fun _ => .pure
  | unpin => exact Upholds.bind HeapM.unpin_tidy fun _ => .pure
  | sweep => exact Upholds.bind HeapM.markAndSweep_tidy fun _ => .pure

/-- The heaps that operations lead to, whatever they are. -/
inductive Arises : Heap → Prop
  | new {words : Nat} {h : Heap} : Heap.new words = .ok h → Arises h
  | done {h h' : Heap} {op : Op} {r : Reply} : Arises h → op.run h = .ok r h' → Arises h'
  | failed {h h' : Heap} {op : Op} {e : HeapError} : Arises h → op.run h = .error e h' → Arises h'

theorem Arises.tidy {h : Heap} (arises : Arises h) : Tidy h := by
  induction arises with
  | new made =>
    refine ⟨(Exact.new made).sound, ?_⟩
    obtain ⟨p, hp, e⟩ := except_bind_ok.1 made
    obtain rfl := except_pure_ok.1 e
    exact .new hp
  | @done h h' op r _ run ih =>
    rcases op.upholds_tidy h ih with ⟨r', h'', run', d⟩ | ⟨e, h'', run', -⟩
    · rw [run] at run'
      cases run'
      exact d
    · rw [run] at run'
      cases run'
  | @failed h h' op e _ run ih =>
    rcases op.upholds_tidy h ih with ⟨r, h'', run', -⟩ | ⟨e', h'', run', d⟩
    · rw [run] at run'
      cases run'
    · rw [run] at run'
      cases run'
      exact d

end Heap
end GoMachine
