import GoMachine.Proofs.Heap.Edges
/-!
# Exact counts

A client of the heap owns references and pins, each of them once or several times. `Exact P O h`
says that the heap counts them right: the count of a record is the number of references that the
client owns plus the number of child slots that hold the address, and a record without references
is pinned. What is owned or stands in a slot is nil or a record.

* `Exact.put_field`, `Exact.put_child`, `Exact.gain`, `Exact.lose`, `Exact.release`: single writes.
* `Exact.drain`: references given up, with all that is released on the way.
-/
namespace GoMachine
namespace Heap

/-- The counts of a heap are right for a client that owns the pins `P` and the references `O`. -/
structure Exact (P O : Multiset Address) (h : Heap) : Prop where
  sound : h.Sound
  count : ∀ {a c}, h.cell? a = some c → c.count.toNat = (O + h.edges).count a
  pins : ∀ {a c}, h.cell? a = some c → c.pins.toNat = P.count a
  idle : ∀ {a c}, h.cell? a = some c → c.count = 0 → c.pins ≠ 0
  closed : ∀ {a}, a ∈ O + h.edges + P → a = .nil ∨ h.isLive a

/-- A heap with fewer records, which are the same but for the references to them. -/
def Shrinks (h h' : Heap) : Prop :=
  ∀ a c', h'.cell? a = some c' → ∃ c, h.cell? a = some c ∧ c' = { c with count := c'.count }

/-- Records that the client owns or that others of them refer to stay. -/
def Spares (O : Multiset Address) (h h' : Heap) : Prop :=
  ∀ X : Set Address, (∀ a ∈ X, h.isLive a ∧
    (a ∈ O ∨ ∃ b ∈ X, ∃ c, h.cell? b = some c ∧ a ∈ c.children)) → ∀ a ∈ X, h'.isLive a

namespace Shrinks

variable {h h₁ h' : Heap} {a : Address} {c : Cell} {w : UInt64}

theorem refl : Shrinks h h := fun _ _ hc => ⟨_, hc, rfl⟩

theorem trans (k₁ : Shrinks h h₁) (k : Shrinks h₁ h') : Shrinks h h' := by
  intro a c' hc
  obtain ⟨c₁, hc₁, e⟩ := k a c' hc
  obtain ⟨c, hc, e₁⟩ := k₁ a c₁ hc₁
  exact ⟨c, hc, by rw [e, e₁]⟩

theorem put_count (hc : h.cell? a = some c) (u : Becomes h a (some { c with count := w }) h') :
    Shrinks h h' := by
  intro b c' hb
  by_cases hne : b = a
  · rw [hne, u.cell?_self, Option.some_inj] at hb
    exact ⟨c, hne ▸ hc, by rw [← hb]⟩
  · rw [u.cell?_of_ne hne] at hb
    exact ⟨c', hb, rfl⟩

theorem release (u : Becomes h a none h') : Shrinks h h' := by
  intro b c' hb
  by_cases hne : b = a
  · rw [hne, u.cell?_self] at hb
    cases hb
  · rw [u.cell?_of_ne hne] at hb
    exact ⟨c', hb, rfl⟩

theorem edges_le (k : Shrinks h h') : h'.edges ≤ h.edges := by
  have fewer : h'.records ⊆ h.records := by
    intro a ha
    obtain ⟨c, hc, -⟩ := k a _ (cell?_eq_some.2 ⟨mem_records.1 ha, rfl⟩)
    exact mem_records.2 (cell?_eq_some.1 hc).1
  rw [edges_eq fewer, edges_eq (subset_refl h.records)]
  refine Finset.sum_le_sum fun a _ => ?_
  cases hc : h'.cell? a with
  | none => exact Multiset.zero_le _
  | some c' =>
    obtain ⟨c, hc, e⟩ := k a c' hc
    rw [hc, e]
    exact le_rfl

end Shrinks

namespace Exact

/-- A new heap has no records. -/
theorem new {words : Nat} {h : Heap} (e : Heap.new words = .ok h) : Exact 0 0 h := by
  obtain ⟨p, hp, e⟩ := except_bind_ok.1 e
  obtain rfl := except_pure_ok.1 e
  have dead : ∀ a, Heap.isLive { pool := p } a = false := fun a => by simp [Heap.isLive]
  have noCell : ∀ {a c}, Heap.cell? { pool := p } a ≠ some c := by simp [cell?, dead]
  refine ⟨⟨by simpa using Pool.Serves.new hp, by simp [dead], by simp [dead]⟩, fun hc => ?_,
    fun hc => ?_, fun hc => ?_, fun {a} ha => ?_⟩
  · exact absurd hc noCell
  · exact absurd hc noCell
  · exact absurd hc noCell
  · rw [zero_add, add_zero] at ha
    obtain ⟨b, c, hb, -⟩ := mem_edges.1 ha
    exact absurd hb noCell

variable {P O O' : Multiset Address} {h h₁ h' : Heap} {a b : Address} {c c' : Cell} {i : Nat}
    {w : UInt64}

theorem isLive_of_mem (x : Exact P O h) (ha : a ∈ O) (hne : a ≠ .nil) : h.isLive a :=
  (x.closed (by simp [ha])).resolve_left hne

theorem count_pos (x : Exact P O h) (ha : a ∈ O) (hc : h.cell? a = some c) : c.count ≠ 0 := by
  have := x.count hc
  have : 0 < O.count a := Multiset.count_pos.2 ha
  rw [Multiset.count_add] at *
  rintro e
  simp [e] at *
  omega

/-- What a client owns that is nil does not matter. -/
theorem congr (x : Exact P O h) (same : ∀ a, a ≠ .nil → O'.count a = O.count a) : Exact P O' h := by
  refine ⟨x.sound, fun {a c} hc => ?_, x.pins, x.idle, fun {a} ha => ?_⟩
  · have := x.sound.ne_nil (cell?_eq_some.1 hc).1
    rw [x.count hc, Multiset.count_add, Multiset.count_add, same a this]
  · by_cases hne : a = .nil
    · exact .inl hne
    · have : a ∈ O' ↔ a ∈ O := by rw [← Multiset.count_pos, same a hne, Multiset.count_pos]
      exact x.closed (by simpa only [Multiset.mem_add, this] using ha)

/-- A record is replaced by another. -/
theorem replace (x : Exact P O h) (hc : h.cell? a = some c) (u : Becomes h a (some c') h')
    (others : ∀ b, b ≠ a → (O' + h'.edges).count b = (O + h.edges).count b)
    (count : c'.count.toNat = (O' + h'.edges).count a) (pins : c'.pins = c.pins)
    (idle : c'.count = 0 → c'.pins ≠ 0) : Exact P O' h' := by
  have live : ∀ b, h.isLive b → h'.isLive b := by
    intro b hb
    by_cases hne : b = a
    · rw [← isSome_cell?, hne, u.cell?_self]
      rfl
    · rwa [u.isLive_of_ne hne]
  refine ⟨u.sound, fun {b c} hb => ?_, fun {b c} hb => ?_, fun {b c} hb => ?_, fun {b} hb => ?_⟩
  · by_cases hne : b = a
    · rw [hne, u.cell?_self, Option.some_inj] at hb
      rw [← hb, hne, count]
    · rw [u.cell?_of_ne hne] at hb
      rw [x.count hb, others b hne]
  · by_cases hne : b = a
    · rw [hne, u.cell?_self, Option.some_inj] at hb
      rw [← hb, hne, pins, x.pins hc]
    · rw [u.cell?_of_ne hne] at hb
      exact x.pins hb
  · by_cases hne : b = a
    · rw [hne, u.cell?_self, Option.some_inj] at hb
      exact hb ▸ idle
    · rw [u.cell?_of_ne hne] at hb
      exact x.idle hb
  · by_cases hne : b = a
    · rw [hne, ← isSome_cell?, u.cell?_self]
      exact .inr rfl
    · refine (x.closed ?_).imp_right (live b)
      have := others b hne
      rw [Multiset.mem_add, ← Multiset.count_pos] at hb ⊢
      rwa [← this]

/-- A new record, to which the client has the one reference. -/
theorem create (x : Exact P O h) (dead : h.isLive a = false) (hne : a ≠ .nil)
    (u : Becomes h a (some c) h') (count : c.count = 1) (pins : c.pins = 0)
    (empty : ∀ b ∈ c.children, b = .nil) : Exact P (a ::ₘ O) h' := by
  have unheld : a ∉ O + h.edges + P := by
    intro ha
    rcases x.closed ha with rfl | hl
    · exact hne rfl
    · rw [dead] at hl
      cases hl
  have e : h'.edges = h.edges + c.children := by
    simpa [cell?_eq_none.2 dead] using u.edges
  have nils : ∀ b, b ≠ .nil → (c.children : Multiset Address).count b = 0 := fun b hb =>
    Multiset.count_eq_zero_of_notMem fun hc => hb (empty b (Multiset.mem_coe.1 hc))
  have total : ∀ b, b ≠ .nil → (a ::ₘ O + h'.edges).count b =
      (O + h.edges).count b + if b = a then 1 else 0 := by
    intro b hb
    rw [e, Multiset.cons_add, Multiset.count_cons, ← add_assoc, Multiset.count_add, nils b hb,
      add_zero]
  have here : ∀ {b c'}, h'.cell? b = some c' → b = a ∧ c' = c ∨ b ≠ a ∧ h.cell? b = some c' := by
    intro b c' hb
    by_cases hne : b = a
    · rw [hne, u.cell?_self, Option.some_inj] at hb
      exact .inl ⟨hne, hb.symm⟩
    · exact .inr ⟨hne, by rwa [u.cell?_of_ne hne] at hb⟩
  simp only [Multiset.mem_add, not_or] at unheld
  refine ⟨u.sound, fun {b c'} hb => ?_, fun {b c'} hb => ?_, fun {b c'} hb => ?_, fun {b} hb => ?_⟩
  · rw [total b (u.sound.ne_nil (cell?_eq_some.1 hb).1)]
    rcases here hb with ⟨rfl, rfl⟩ | ⟨hne, hb⟩
    · rw [count, Multiset.count_eq_zero_of_notMem (by simp [unheld]), if_pos rfl]
      rfl
    · rw [if_neg hne, x.count hb, add_zero]
  · rcases here hb with ⟨rfl, rfl⟩ | ⟨-, hb⟩
    · rw [pins, Multiset.count_eq_zero_of_notMem unheld.2]
      rfl
    · exact x.pins hb
  · rcases here hb with ⟨rfl, rfl⟩ | ⟨-, hb⟩
    · rw [count]
      exact fun h0 => absurd h0 (by decide)
    · exact x.idle hb
  · by_cases hn : b = .nil
    · exact .inl hn
    by_cases hne : b = a
    · rw [hne, ← isSome_cell?, u.cell?_self]
      exact .inr rfl
    · refine (x.closed ?_).imp_right fun hl => by rwa [u.isLive_of_ne hne]
      have := total b hn
      rw [if_neg hne, add_zero] at this
      rw [Multiset.mem_add, ← Multiset.count_pos] at hb ⊢
      rwa [← this]

theorem put_field (x : Exact P O h) (hc : h.cell? a = some c) (hi : i < c.fields.length) :
    Exact P O (h.setWord (a.index + 2 + i) w) := by
  have u := x.sound.put_field (w := w) hc hi
  have e := u.edges
  rw [hc, kids_some, kids_some, add_left_inj] at e
  refine x.replace hc u (fun b _ => by rw [e]) ?_ rfl fun h0 => x.idle (c := c) hc h0
  rw [e, ← x.count hc]

/-- One more reference to a record. -/
theorem gain (x : Exact P O h) (hc : h.cell? a = some c) (small : c.count.toNat + 1 < 2 ^ 64) :
    Exact P (a ::ₘ O) (h.setWord (a.index + 1) (c.count + 1)) := by
  have u := x.sound.put_count hc (c.count + 1)
  have e := u.edges
  rw [hc, kids_some, kids_some, add_left_inj] at e
  have grows : (c.count + 1).toNat = c.count.toNat + 1 := by
    rw [UInt64.toNat_add]
    exact Nat.mod_eq_of_lt small
  refine x.replace hc u (fun b hb => by rw [e, Multiset.cons_add, Multiset.count_cons_of_ne hb]) ?_
    rfl
    fun h0 => ?_
  · rw [e, Multiset.cons_add, Multiset.count_cons_self, ← x.count hc, grows]
  · have := congrArg UInt64.toNat h0
    rw [grows] at this
    cases this

/-- One reference less to a record that is not released. -/
theorem lose (x : Exact P (a ::ₘ O) h) (hc : h.cell? a = some c)
    (kept : ¬(c.count = 1 ∧ c.pins = 0)) :
    Exact P O (h.setWord (a.index + 1) (c.count - 1)) := by
  have u := x.sound.put_count hc (c.count - 1)
  have e := u.edges
  rw [hc, kids_some, kids_some, add_left_inj] at e
  have pos : 1 ≤ c.count := by
    have := x.count_pos (Multiset.mem_cons_self a O) hc
    grind
  have pred : (c.count - 1).toNat = c.count.toNat - 1 := UInt64.toNat_sub_of_le _ _ pos
  refine x.replace hc u (fun b hb => by rw [e, Multiset.cons_add, Multiset.count_cons_of_ne hb]) ?_
    rfl
    fun h0 => ?_
  · rw [e, pred, x.count hc, Multiset.cons_add, Multiset.count_cons_self, Nat.add_sub_cancel]
  · exact fun hp => kept ⟨by grind, hp⟩

/-- A reference moves into a child slot, and the one that was there moves out. What is owned or in
slots is the same in all. -/
theorem put_child (x : Exact P (b ::ₘ O) h) (hc : h.cell? a = some c) {old : Address}
    (hold : c.children[i]? = some old) :
    Exact P (old ::ₘ O) (h.setWord (a.index + 2 + c.fields.length + i) b.toWord) ∧
      old ::ₘ O + (h.setWord (a.index + 2 + c.fields.length + i) b.toWord).edges =
        b ::ₘ O + h.edges := by
  obtain ⟨hi, rfl⟩ := List.getElem?_eq_some_iff.1 hold
  have small : b.index < 2 ^ 32 := by
    rcases x.closed (a := b) (by simp) with rfl | hb
    · decide
    · have := x.sound.serves.lt_two_pow (isLive_iff.1 hb)
      omega
  have u := x.sound.put_child hc hi small
  have total : c.children[i] ::ₘ O + (h.setWord
    (a.index + 2 + c.fields.length + i) b.toWord).edges =
      b ::ₘ O + h.edges := by
    have e := u.edges
    have moved := Multiset.coe_eq_coe.2 (List.set_perm_cons_eraseIdx hi b)
    have kept := Multiset.coe_eq_coe.2 (List.getElem_cons_eraseIdx_perm hi)
    rw [hc, kids_some, kids_some, moved, ← kept] at e
    simp only [← Multiset.cons_coe, ← Multiset.singleton_add] at e ⊢
    generalize (h.setWord _ _).edges = E at e
    refine add_right_cancel (b := (c.children.eraseIdx i : Multiset Address)) ?_
    calc _ = O + (E + ({c.children[i]} + (c.children.eraseIdx i : Multiset Address))) := by abel
      _ = O + (h.edges + ({b} + (c.children.eraseIdx i : Multiset Address))) := by rw [e]
      _ = _ := by abel
  refine ⟨x.replace hc u (fun b _ => by rw [total]) ?_ rfl fun h0 => x.idle (c := c) hc h0, total⟩
  rw [total, ← x.count hc]

/-- A record goes away that nobody has anything to do with any more. -/
theorem remove {P' : Multiset Address} (x : Exact P O h) (u : Becomes h a none h')
    (total : ∀ b, b ≠ a → (O' + h'.edges).count b = (O + h.edges).count b)
    (pins : ∀ b, b ≠ a → P'.count b = P.count b) (unheld : (O' + h'.edges + P').count a = 0) :
    Exact P' O' h' := by
  have other : ∀ {b c}, h'.cell? b = some c → b ≠ a ∧ h.cell? b = some c := by
    intro b c hb
    have hne : b ≠ a := by
      rintro rfl
      rw [u.cell?_self] at hb
      cases hb
    exact ⟨hne, by rwa [u.cell?_of_ne hne] at hb⟩
  refine ⟨u.sound, fun {b c} hb => ?_, fun {b c} hb => ?_, fun {b c} hb => x.idle (other hb).2,
    fun {b} hb => ?_⟩
  · obtain ⟨hne, hb⟩ := other hb
    rw [x.count hb, total b hne]
  · obtain ⟨hne, hb⟩ := other hb
    rw [x.pins hb, pins b hne]
  · have hne : b ≠ a := by
      rintro rfl
      exact absurd (Multiset.count_pos.2 hb) (by omega)
    refine (x.closed ?_).imp_right fun hl => by rwa [u.isLive_of_ne hne]
    rwa [← Multiset.count_pos, Multiset.count_add, ← total b hne, ← pins b hne,
      ← Multiset.count_add, Multiset.count_pos]

/-- The last reference to a record is given up: the references in its slots come loose. -/
theorem release (x : Exact P (a ::ₘ O) h) (hc : h.cell? a = some c) (last : c.count = 1)
    (unpinned : c.pins = 0) (u : Becomes h a none h') : Exact P (c.children + O) h' := by
  have e : h'.edges + c.children = h.edges := by simpa [hc] using u.edges
  refine x.remove u (fun b hb => ?_) (fun _ _ => rfl) ?_
  · rw [← e, Multiset.cons_add, Multiset.count_cons_of_ne hb]
    simp only [Multiset.count_add]
    omega
  · have h1 := x.count hc
    have h2 := x.pins hc
    rw [last, ← e, Multiset.cons_add, Multiset.count_cons_self] at h1
    rw [unpinned] at h2
    simp only [Multiset.count_add, UInt64.toNat_one, UInt16.toNat_zero] at *
    omega

/-- The last reference to a record is given up: none is held by anything that stays. -/
theorem release_spares (x : Exact P (a ::ₘ O) h) (hc : h.cell? a = some c) (last : c.count = 1)
    (u : Becomes h a none h₁) (k : Spares O' h₁ h') (le : O' ≤ O) : Spares O' h h' := by
  have count := x.count hc
  rw [last, Multiset.cons_add, Multiset.count_cons_self, Multiset.count_add] at count
  have free : O.count a = 0 ∧ h.edges.count a = 0 := by
    simp only [UInt64.toNat_one] at count
    omega
  intro X kept b hb
  have ne : ∀ b ∈ X, b ≠ a := by
    rintro b hb rfl
    rcases (kept b hb).2 with ho | ⟨d, -, e, hd, he⟩
    · exact absurd (Multiset.count_pos.2 (Multiset.mem_of_le le ho)) (by omega)
    · exact absurd (Multiset.count_pos.2 (mem_edges.2 ⟨d, e, hd, he⟩)) (by omega)
  refine k X (fun b hb => ?_) b hb
  rw [u.isLive_of_ne (ne b hb)]
  refine ⟨(kept b hb).1, (kept b hb).2.imp_right ?_⟩
  rintro ⟨d, hd, e, he, hbe⟩
  exact ⟨d, hd, e, by rwa [u.cell?_of_ne (ne d hd)], hbe⟩

theorem count_spares (hc : h.cell? a = some c) (u : Becomes h a (some { c with count := w }) h₁)
    (k : Spares O h₁ h') : Spares O h h' := by
  intro X kept b hb
  refine k X (fun b hb => ⟨?_, (kept b hb).2.imp_right ?_⟩) b hb
  · by_cases hne : b = a
    · rw [hne, ← isSome_cell?, u.cell?_self]
      rfl
    · rw [u.isLive_of_ne hne]
      exact (kept b hb).1
  · rintro ⟨d, hd, e, he, hbe⟩
    by_cases hne : d = a
    · subst hne
      rw [hc, Option.some_inj] at he
      exact ⟨d, hd, _, u.cell?_self, by rwa [he]⟩
    · exact ⟨d, hd, e, by rwa [u.cell?_of_ne hne], hbe⟩

/-- References that are given up are all dropped. -/
theorem drain {l : List Address} (x : Exact P (l + O) h) :
    ∃ h', h.drain l = .ok () h' ∧ Exact P O h' ∧ Shrinks h h' ∧ Spares O h h' := by
  induction h, l using Heap.drain.induct with
  | case1 h =>
    exact ⟨h, by rw [Heap.drain], by simpa using x, .refl, fun X kept a ha => (kept a ha).1⟩
  | case2 h a rest hn ih =>
    obtain rfl := Address.isNil_iff.1 hn
    obtain ⟨h', e, x', k⟩ := ih (x.congr fun b hb => by simp [List.count_cons_of_ne hb.symm])
    exact ⟨h', by rw [Heap.drain, if_pos hn, e], x', k⟩
  | case3 h a rest hn hl count h0 =>
    exact absurd h0 (x.count_pos (by simp) (cell?_eq_some.2 ⟨hl, rfl⟩))
  | case4 h a rest hn hl count h0 hd next pool last q hq ih =>
    have hc := cell?_eq_some.2 ⟨hl, rfl⟩
    have u := x.sound.put_count hc (count - 1)
    obtain ⟨q', hq', u'⟩ := u.sound.discarded (a := a) (h := h.setWord (a.index + 1) (count - 1)) hl
    obtain rfl : q' = q := by simpa [Heap.setWord, hq, pool] using hq'.symm
    have x : Exact P (a ::ₘ (rest + O)) h := by simpa [← Multiset.cons_coe] using x
    have loose : ((next : Multiset Address) + O) = (h.cellAt a).children + (rest + O) := by
      simp only [next, hd, cellAt, headerAt, ← Multiset.coe_add, Multiset.coe_reverse]
      abel
    obtain ⟨h', e, x', k, spared⟩ := ih (loose ▸ x.release hc last.1 last.2 (u.trans u'))
    refine ⟨h', ?_, x', ((Shrinks.put_count hc u).trans (.release u')).trans k,
      x.release_spares hc last.1 (u.trans u') spared (Multiset.le_add_left _ _)⟩
    rw [Heap.drain, if_neg hn, dif_pos hl]
    dsimp only
    rw [if_neg h0, if_pos last, show (h.pool.setWord _ _).deallocate a.index = .ok q' from hq]
    exact e
  | case5 h a rest hn hl count h0 hd pool last e he =>
    have u := x.sound.put_count (cell?_eq_some.2 ⟨hl, rfl⟩) (count - 1)
    obtain ⟨q, hq, -⟩ := u.sound.discarded (a := a) (h := h.setWord (a.index + 1) (count - 1)) hl
    rw [Heap.setWord, he] at hq
    cases hq
  | case6 h a rest hn hl count h0 hd pool kept ih =>
    have hc := cell?_eq_some.2 ⟨hl, rfl⟩
    have x : Exact P (a ::ₘ (rest + O)) h := by simpa [← Multiset.cons_coe] using x
    have u := x.sound.put_count hc (count - 1)
    obtain ⟨h', e, x', k, spared⟩ := ih (x.lose hc kept)
    refine ⟨h', ?_, x', (Shrinks.put_count hc u).trans k, count_spares hc u spared⟩
    rw [Heap.drain, if_neg hn, dif_pos hl]
    dsimp only
    rw [if_neg h0, if_neg kept]
    exact e
  | case7 h a rest hn hl =>
    exact absurd (x.isLive_of_mem (by simp) fun e => hn (Address.isNil_iff.2 e)) hl

/-- A reference that is given up is dropped. -/
theorem free (x : Exact P (a ::ₘ O) h) :
    ∃ h', HeapM.free a h = .ok () h' ∧ Exact P O h' ∧ Shrinks h h' ∧ Spares O h h' :=
  drain (l := [a]) (by simpa using x)

end Exact
end Heap
end GoMachine
