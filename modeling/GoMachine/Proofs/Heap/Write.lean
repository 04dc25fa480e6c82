import GoMachine.Proofs.Heap.Cell
/-!
# Writing to records

Each primitive write to a sound heap replaces what stands at one address. `Becomes h a o h'` says
so: `h'` is sound, has `o` at `a`, and is `h` everywhere else.

* `Sound.put_field`, `Sound.put_child`, `Sound.put_count`, `Sound.put_pins`: one word of a record.
* `Sound.allocated`, `Sound.discarded`: a record comes and goes.
-/
namespace GoMachine

theorem Address.ofWord_toWord {a : Address} (ha : a.index < 2 ^ 32) : ofWord a.toWord = a := by
  obtain ⟨i⟩ := a
  simp only [ofWord, toWord, Nat.toUInt64, UInt64.toNat_toUInt32, UInt64.toNat_ofNat', mk.injEq]
  simp only at ha
  omega

theorem Address.index_ne {a b : Address} (h : a ≠ b) : a.index ≠ b.index := by
  cases a
  cases b
  simpa using h

theorem Address.ofWord_zero : ofWord 0 = nil := rfl

namespace Heap

/-- One heap is another with something else at an address. -/
structure Becomes (h : Heap) (a : Address) (o : Option Cell) (h' : Heap) : Prop where
  sound : h'.Sound
  cells : h'.cell? = Function.update h.cell? a o

variable {h h' : Heap} {a b : Address} {c : Cell} {t : Tag} {i j : Nat} {w : UInt64}

namespace Becomes

variable {o : Option Cell}

@[simp]
theorem cell?_self (u : Becomes h a o h') : h'.cell? a = o := by
  rw [u.cells, Function.update_self]

theorem cell?_of_ne (u : Becomes h a o h') (hb : b ≠ a) : h'.cell? b = h.cell? b := by
  rw [u.cells, Function.update_of_ne hb]

theorem isLive_of_ne (u : Becomes h a o h') (hb : b ≠ a) : h'.isLive b = h.isLive b := by
  rw [← isSome_cell?, ← isSome_cell?, u.cell?_of_ne hb]

theorem trans {h₁ : Heap} {o₁ : Option Cell} (u₁ : Becomes h a o₁ h₁) (u : Becomes h₁ a o h') :
    Becomes h a o h' := by
  refine ⟨u.sound, ?_⟩
  rw [u.cells, u₁.cells, Function.update_idem]

end Becomes

theorem cellAt_congr (same : ∀ j, a.index ≤ j →
    j < a.index + 2 + (h.headerAt a).fields.toNat + (h.headerAt a).children.toNat →
    h'.pool.word j = h.pool.word j) : h'.cellAt a = h.cellAt a := by
  have hd : h'.headerAt a = h.headerAt a := by
    rw [headerAt, same _ le_rfl (by omega), headerAt]
  rw [cellAt, cellAt, slots, slots, hd, same (a.index + 1) (by omega) (by omega)]
  congr 1
  · refine List.map_congr_left fun i hi => ?_
    have := List.mem_range.1 hi
    exact same _ (by omega) (by omega)
  · refine List.map_congr_left fun i hi => ?_
    have := List.mem_range.1 hi
    rw [same _ (by omega) (by omega)]

theorem cellAt_eq {fields : List UInt64} {children : List Address}
    (hd : h'.headerAt a = h.headerAt a)
    (hf : (List.range (h.headerAt a).fields.toNat).map (fun i => h'.pool.word (a.index + 2 + i)) =
      fields)
    (hs : h'.slots a (h.headerAt a) = children) (hw : h'.pool.word (a.index + 1) = w) :
    h'.cellAt a = { h.cellAt a with fields, children, count := w } := by
  refine Cell.ext (by simp only [cellAt, hd]) ?_ ?_ ?_ (by simp only [cellAt, hd])
  · simpa only [cellAt, hd] using hf
  · simpa only [cellAt, hd] using hs
  · simpa only [cellAt] using hw

/-- What the words of a new record say. -/
theorem cellAt_new {fields children : Nat} (hf : fields ≤ 65535) (hc : children ≤ 65535)
    (header : h.pool.word a.index =
      (Header.mk t.number.toUInt16 fields.toUInt16 children.toUInt16 0).toWord)
    (count : h.pool.word (a.index + 1) = 1)
    (zeros : ∀ i < fields + children, h.pool.word (a.index + 2 + i) = 0) :
    (h.headerAt a).fields.toNat = fields ∧ (h.headerAt a).children.toNat = children ∧
      Tag.ofNumber? (h.headerAt a).rawTag.toNat = some t ∧
      h.cellAt a = ⟨t, .replicate fields 0, .replicate children .nil, 1, 0⟩ := by
  have hd : h.headerAt a = ⟨t.number.toUInt16, fields.toUInt16, children.toUInt16, 0⟩ := by
    rw [headerAt, header, Header.ofWord_toWord]
  have fieldsEq : (h.headerAt a).fields.toNat = fields := by
    rw [hd]
    exact UInt16.toNat_ofNat_of_lt' (Nat.lt_succ_of_le hf)
  have childrenEq : (h.headerAt a).children.toNat = children := by
    rw [hd]
    exact UInt16.toNat_ofNat_of_lt' (Nat.lt_succ_of_le hc)
  have tagEq : (h.headerAt a).rawTag.toNat = t.number := by
    rw [hd]
    exact UInt16.toNat_ofNat_of_lt' (t.number_lt.trans (by decide))
  refine ⟨fieldsEq, childrenEq, by rw [tagEq, Tag.ofNumber?_number], ?_⟩
  refine Cell.ext (tag_eq_of_number tagEq) ?_ ?_ count (by simp only [cellAt, hd])
  · rw [List.eq_replicate_iff]
    simp only [cellAt, fieldsEq, List.length_map, List.length_range, List.mem_map, List.mem_range,
      true_and, forall_exists_index, and_imp, forall_apply_eq_imp_iff₂]
    exact fun i hi => zeros i (by omega)
  · rw [List.eq_replicate_iff]
    simp only [cellAt, slots, fieldsEq, childrenEq, List.length_map, List.length_range,
      List.mem_map, List.mem_range, true_and, forall_exists_index, and_imp,
      forall_apply_eq_imp_iff₂]
    intro i hi
    rw [Nat.add_assoc, zeros _ (by omega), Address.ofWord_zero]

namespace Sound

/-- A heap that has the words of another in all records but the one at an address. -/
theorem becomes (s : Sound h) (serves : h'.pool.Serves {i | i ∈ h'.live})
    (log : h'.pool.maxLog = h.pool.maxLog) (live : ∀ b, b ≠ a → h'.isLive b = h.isLive b)
    (words : ∀ b, h.isLive b → b ≠ a → ∀ j, b.index ≤ j + 1 →
      j < b.index + h.pool.blockCapacity b.index → h'.pool.word j = h.pool.word j)
    (here : h'.isLive a → (∃ t, Tag.ofNumber? (h'.headerAt a).rawTag.toNat = some t) ∧
      2 + (h'.headerAt a).fields.toNat + (h'.headerAt a).children.toNat ≤
        h'.pool.blockCapacity a.index) : Becomes h a (h'.cell? a) h' := by
  have header : ∀ b, h.isLive b → b ≠ a → h'.headerAt b = h.headerAt b := by
    intro b hb hne
    have := s.room b hb
    rw [headerAt, words b hb hne _ (by omega) (by omega), headerAt]
  have capacity : ∀ b, h.isLive b → b ≠ a →
      h'.pool.blockCapacity b.index = h.pool.blockCapacity b.index := by
    intro b hb hne
    have := s.serves.bounds (isLive_iff.1 hb)
    rw [Pool.blockCapacity, words b hb hne _ (by omega) (by omega), Pool.blockWords, log]
    rfl
  refine ⟨⟨serves, fun b hb => ?_, fun b hb => ?_⟩, ?_⟩
  · by_cases hne : b = a
    · exact hne ▸ (here (hne ▸ hb)).1
    · rw [live b hne] at hb
      rw [header b hb hne]
      exact s.tagged b hb
  · by_cases hne : b = a
    · exact hne ▸ (here (hne ▸ hb)).2
    · rw [live b hne] at hb
      rw [header b hb hne, capacity b hb hne]
      exact s.room b hb
  · funext b
    by_cases hne : b = a
    · rw [hne, Function.update_self]
    · rw [Function.update_of_ne hne, cell?, cell?, live b hne]
      by_cases hb : h.isLive b
      · rw [if_pos hb, if_pos hb, cellAt_congr fun j h1 h2 => ?_]
        have := s.room b hb
        exact words b hb hne j (by omega) (by omega)
      · rw [if_neg hb, if_neg hb]

/-- A write into a record that leaves it a record replaces what stands there. -/
theorem becomes_setWord (s : Sound h) (hl : h.isLive a) (h1 : a.index ≤ j)
    (h2 : j < a.index + h.pool.blockCapacity a.index)
    (tagged : ∃ t, Tag.ofNumber? ((h.setWord j w).headerAt a).rawTag.toNat = some t)
    (fields : ((h.setWord j w).headerAt a).fields = (h.headerAt a).fields)
    (children : ((h.setWord j w).headerAt a).children = (h.headerAt a).children) :
    Becomes h a (some ((h.setWord j w).cellAt a)) (h.setWord j w) := by
  have u : Becomes h a ((h.setWord j w).cell? a) (h.setWord j w) := by
    refine s.becomes (s.serves.setWord (isLive_iff.1 hl) h1 h2 w) rfl (fun _ _ => rfl) ?_ ?_
    · intro b hb hne k k1 k2
      have := s.serves.apart (isLive_iff.1 hl) (isLive_iff.1 hb) (Address.index_ne hne.symm)
      exact Pool.word_setWord_of_ne (by omega)
    · intro _
      rw [fields, children, setWord,
        s.serves.blockCapacity_setWord (isLive_iff.1 hl) h1 h2 w (isLive_iff.1 hl)]
      exact ⟨tagged, s.room a hl⟩
  rwa [cell?_eq_some.2 ⟨show (h.setWord j w).isLive a from hl, rfl⟩] at u

/-- A write behind the header of a record. -/
theorem becomes_setWord_slot (s : Sound h) (hl : h.isLive a) (h1 : a.index < j)
    (h2 : j < a.index + 2 + (h.headerAt a).fields.toNat + (h.headerAt a).children.toNat) :
    (h.setWord j w).headerAt a = h.headerAt a ∧
      Becomes h a (some ((h.setWord j w).cellAt a)) (h.setWord j w) := by
  have hd : (h.setWord j w).headerAt a = h.headerAt a := by
    rw [headerAt, setWord, Pool.word_setWord_of_ne (by omega), headerAt]
  have := s.room a hl
  exact ⟨hd, s.becomes_setWord hl (by omega) (by omega) (by rw [hd]; exact s.tagged a hl)
    (by rw [hd]) (by rw [hd])⟩

theorem put_field (s : Sound h) (hc : h.cell? a = some c) (hi : i < c.fields.length) :
    Becomes h a (some { c with fields := c.fields.set i w }) (h.setWord (a.index + 2 + i) w) := by
  obtain ⟨hl, rfl⟩ := cell?_eq_some.1 hc
  rw [length_fields] at hi
  obtain ⟨hd, u⟩ := s.becomes_setWord_slot (w := w) (j := a.index + 2 + i) hl (by omega) (by omega)
  have fields : (List.range (h.headerAt a).fields.toNat).map (fun k =>
      (h.setWord (a.index + 2 + i) w).pool.word (a.index + 2 + k)) =
      (h.cellAt a).fields.set i w := by
    refine List.ext_getElem (by simp [cellAt]) fun k _ _ => ?_
    simp only [List.getElem_set, List.getElem_map, List.getElem_range, setWord, Pool.word_setWord,
      cellAt]
    simp
  have slots : (h.setWord (a.index + 2 + i) w).slots a (h.headerAt a) = (h.cellAt a).children := by
    refine List.map_congr_left fun k _ => ?_
    simp only [setWord]
    rw [Pool.word_setWord_of_ne (by omega)]
  have count : (h.setWord (a.index + 2 + i) w).pool.word (a.index + 1) = (h.cellAt a).count :=
    Pool.word_setWord_of_ne (by omega)
  rwa [cellAt_eq hd fields slots count] at u

/-- A word is stored in a child slot, where it stands for an address. -/
theorem put_slot (s : Sound h) (hc : h.cell? a = some c) (hi : i < c.children.length) :
    Becomes h a (some { c with children := c.children.set i (.ofWord w) })
      (h.setWord (a.index + 2 + c.fields.length + i) w) := by
  obtain ⟨hl, rfl⟩ := cell?_eq_some.1 hc
  rw [length_children] at hi
  rw [length_fields]
  let j := a.index + 2 + (h.headerAt a).fields.toNat + i
  obtain ⟨hd, u⟩ := s.becomes_setWord_slot (w := w) (j := j) hl (by omega) (by omega)
  have fields : (List.range (h.headerAt a).fields.toNat).map (fun k =>
      (h.setWord j w).pool.word (a.index + 2 + k)) = (h.cellAt a).fields := by
    refine List.map_congr_left fun k hk => ?_
    have := List.mem_range.1 hk
    exact Pool.word_setWord_of_ne (by omega)
  have slots : (h.setWord j w).slots a (h.headerAt a) =
      (h.cellAt a).children.set i (.ofWord w) := by
    refine List.ext_getElem (by simp [cellAt, slots]) fun k _ _ => ?_
    simp only [List.getElem_set, cellAt, Heap.slots, List.getElem_map, List.getElem_range]
    split_ifs with hik
    · rw [← hik]
      simp only [setWord, j, Pool.word_setWord_self]
    · simp only [setWord]
      rw [Pool.word_setWord_of_ne (by omega)]
  have count : (h.setWord j w).pool.word (a.index + 1) = (h.cellAt a).count :=
    Pool.word_setWord_of_ne (by omega)
  rwa [cellAt_eq hd fields slots count] at u

theorem put_child (s : Sound h) (hc : h.cell? a = some c) (hi : i < c.children.length)
    (hb : b.index < 2 ^ 32) :
    Becomes h a (some { c with children := c.children.set i b })
      (h.setWord (a.index + 2 + c.fields.length + i) b.toWord) := by
  have u := s.put_slot (w := b.toWord) hc hi
  rwa [Address.ofWord_toWord hb] at u

theorem put_count (s : Sound h) (hc : h.cell? a = some c) (w : UInt64) :
    Becomes h a (some { c with count := w }) (h.setWord (a.index + 1) w) := by
  obtain ⟨hl, rfl⟩ := cell?_eq_some.1 hc
  obtain ⟨hd, u⟩ := s.becomes_setWord_slot (w := w) (j := a.index + 1) hl (by omega) (by omega)
  have fields : (List.range (h.headerAt a).fields.toNat).map (fun k =>
      (h.setWord (a.index + 1) w).pool.word (a.index + 2 + k)) = (h.cellAt a).fields :=
    List.map_congr_left fun k _ => Pool.word_setWord_of_ne (by omega)
  have slots : (h.setWord (a.index + 1) w).slots a (h.headerAt a) = (h.cellAt a).children := by
    refine List.map_congr_left fun k _ => ?_
    simp only [setWord]
    rw [Pool.word_setWord_of_ne (by omega)]
  have count : (h.setWord (a.index + 1) w).pool.word (a.index + 1) = w := Pool.word_setWord_self
  rwa [cellAt_eq hd fields slots count] at u

theorem put_pins (s : Sound h) (hc : h.cell? a = some c) (pins : UInt16) :
    Becomes h a (some { c with pins })
      (h.setWord a.index { h.headerAt a with pins }.toWord) := by
  obtain ⟨hl, rfl⟩ := cell?_eq_some.1 hc
  have hd : (h.setWord a.index { h.headerAt a with pins }.toWord).headerAt a =
      { h.headerAt a with pins } := by
    rw [headerAt, setWord, Pool.word_setWord_self, Header.ofWord_toWord]
  have := s.room a hl
  have u := s.becomes_setWord (w := { h.headerAt a with pins }.toWord) hl le_rfl (by omega)
    (by rw [hd]; exact s.tagged a hl) (by rw [hd]) (by rw [hd])
  have e : (h.setWord a.index { h.headerAt a with pins }.toWord).cellAt a =
      { h.cellAt a with pins } := by
    refine Cell.ext (by simp only [cellAt, hd]) ?_ ?_ ?_ (by simp only [cellAt, hd])
    · simp only [cellAt, hd]
      refine List.map_congr_left fun k _ => ?_
      rw [setWord, Pool.word_setWord_of_ne (by omega)]
    · simp only [cellAt, slots, hd]
      refine List.map_congr_left fun k _ => ?_
      rw [setWord, Pool.word_setWord_of_ne (by omega)]
    · simp only [cellAt]
      rw [setWord, Pool.word_setWord_of_ne (by omega)]
  rwa [e] at u

/-- A record is taken off the heap. -/
theorem discarded (s : Sound h) (hl : h.isLive a) :
    ∃ q, h.pool.deallocate a.index = .ok q ∧ Becomes h a none ⟨q, h.live.erase a.index⟩ := by
  obtain ⟨q, hq, serves, log, same⟩ := s.serves.deallocate (isLive_iff.1 hl)
  have gone : (⟨q, h.live.erase a.index⟩ : Heap).isLive a = false := by simp [isLive]
  have u : Becomes h a ((⟨q, h.live.erase a.index⟩ : Heap).cell? a) ⟨q, h.live.erase a.index⟩ := by
    refine s.becomes ?_ log (fun b hne => ?_) ?_ (fun hl => ?_)
    · convert serves using 1
      ext i
      simp only [Set.mem_ofPred_eq, Std.TreeSet.mem_erase, Set.mem_sdiff, Set.mem_singleton_iff]
      grind
    · have := Address.index_ne hne
      simp only [isLive, Std.TreeSet.contains_erase]
      grind
    · exact fun b hb hne => same b.index (isLive_iff.1 hb) (Address.index_ne hne)
    · rw [gone] at hl
      cases hl
  rw [cell?_eq_none.2 gone] at u
  exact ⟨q, hq, u⟩

/-- A new record has zeroed slots, one reference and no pins. -/
theorem allocated (s : Sound h) {fields children : Nat}
    (e : HeapM.allocate t fields children h = .ok a h') : h.isLive a = false ∧ a ≠ .nil ∧
      Becomes h a (some ⟨t, .replicate fields 0, .replicate children .nil, 1, 0⟩) h' := by
  unfold HeapM.allocate at e
  split_ifs at e with big
  simp only [Header.limit, not_or, not_lt] at big
  rcases hq : h.pool.allocate (2 + fields + children) with _ | ⟨i, q⟩ <;> simp only [hq] at e
  · cases e
  simp only [EStateM.Result.ok.injEq] at e
  obtain ⟨rfl, e⟩ := e
  obtain ⟨fresh, serves, log, room, same⟩ := s.serves.allocate hq
  have hi : i ∈ insert i {i | i ∈ h.live} := .inl rfl
  have bounds := serves.bounds hi
  let hd : Header := ⟨t.number.toUInt16, fields.toUInt16, children.toUInt16, 0⟩
  have hdr := serves.blockCapacity_setWord hi le_rfl (by omega) hd.toWord hi
  have served := serves
  have serves := serves.setWord hi le_rfl (by omega) hd.toWord
  have cnt := serves.blockCapacity_setWord hi (Nat.le_succ i) (by omega) 1 hi
  have serves := serves.setWord hi (Nat.le_succ i) (by omega) 1
  obtain ⟨p, e', serves, cap, log', words⟩ :=
    serves.clear hi (show i ≤ i + 2 by omega) (fields + children) (by omega)
  have new : Heap.mk p (h.live.insert i) = h' := by rw [← e, ← e']
  subst new
  have hl : (Heap.mk p (h.live.insert i)).isLive ⟨i⟩ := by simp [isLive]
  have dead : h.isLive ⟨i⟩ = false := by
    rw [← Bool.not_eq_true, isLive_iff]
    exact fresh
  have header : p.word i = hd.toWord := by
    rw [words, if_neg (by omega), Pool.word_setWord_of_ne (by omega), Pool.word_setWord_self]
  have count : p.word (i + 1) = 1 := by
    rw [words, if_neg (by omega), Pool.word_setWord_self]
  have zeros : ∀ j < fields + children, p.word (i + 2 + j) = 0 := fun j hj => by
    rw [words, if_pos (by omega)]
  obtain ⟨hf, hc, ht, cell⟩ :=
    cellAt_new (h := ⟨p, h.live.insert i⟩) (a := ⟨i⟩) (t := t) big.1 big.2 header count zeros
  refine ⟨dead, fun e => ?_, ?_⟩
  · have : i = 0 := congrArg Address.index e
    omega
  · rw [← cell, ← cell?_eq_some.2 ⟨hl, rfl⟩]
    refine s.becomes ?_ (log'.trans log) (fun b hne => ?_) (fun b hb hne j h1 h2 => ?_)
      (fun _ => ?_)
    · convert serves using 1
      ext j
      simp only [Set.mem_ofPred_eq, Std.TreeSet.mem_insert, Set.mem_insert_iff]
      grind
    · have := Address.index_ne hne
      simp only [isLive, Std.TreeSet.contains_insert]
      grind
    · have hb := isLive_iff.1 hb
      have far := served.apart hi (.inr hb) (Address.index_ne hne.symm)
      have same := same _ hb
      have : q.blockCapacity b.index = h.pool.blockCapacity b.index := by
        have := s.serves.bounds hb
        rw [Pool.blockCapacity, same _ (by omega) (by omega), Pool.blockWords, log]
        rfl
      rw [words, if_neg (by omega), Pool.word_setWord_of_ne (by omega),
        Pool.word_setWord_of_ne (by omega), same j h1 h2]
    · rw [hf, hc, cap, cnt, hdr]
      exact ⟨⟨t, ht⟩, room⟩

end Sound
end Heap
end GoMachine
