import GoMachine.Proofs.Heap.Arises
import GoMachine.Proofs.Heap.Client
/-!
# Collections from what is owned

A collection whose roots are all owned releases exactly the records that nothing leads to from a
root or a pinned record. What the released records held is dropped, and that never releases a record
which is kept: a root is owned, and every other kept record is pinned or stands in a slot of a kept
record.

The records and the garbage may be gone through in any order. The same records are released, and as
the blocks in use determine the free blocks, the pool is the same but for the order of its free
lists.

* `Exact.drain_keeps`: references are dropped to records to which there are others.
* `Exact.sweepAlong`: one collection, in some order.
* `markAndSweep_exact`: what a collection does, in whatever order.
-/
namespace GoMachine

/-- `markAndSweep` with the records, and then the garbage, gone through in some order. -/
def HeapM.sweepAlong (records : List Address) (order : Std.TreeSet Nat → List Nat)
    (roots : List Address) : HeapM Nat := do
  let h ← get
  let garbage := h.unreached h.live (records.filter (fun a => (h.headerAt a).pins != 0) ++ roots)
  let pending := (order garbage).flatMap fun i =>
    (h.slots ⟨i⟩ (h.headerAt ⟨i⟩)).filter fun a => !garbage.contains a.index
  for i in order garbage do
    set (← ask (·.discard i))
  fun h => h.drain pending.reverse
  return garbage.size

namespace Heap

variable {P O : Multiset Address} {h h' h'' : Heap} {a b : Address} {roots records : List Address}
  {order : Std.TreeSet Nat → List Nat}

/-- An order in which to go through the records of a heap, and one for each set of garbage. -/
structure Along (h : Heap) (records : List Address) (order : Std.TreeSet Nat → List Nat) :
    Prop where
  records : records.Perm h.liveObjects
  garbage : ∀ s, (order s).Perm s.toList

theorem markAndSweep_eq :
    HeapM.markAndSweep roots h = HeapM.sweepAlong h.liveObjects (·.toList) roots h := by
  have asked (f : Heap → HeapM Nat) : (get >>= f) h = f h h := rfl
  rw [HeapM.markAndSweep, HeapM.sweepAlong, asked, asked]
  simp only [pinned, outgoing, headerAt]

theorem along_self : Along h h.liveObjects (·.toList) := ⟨.refl _, fun _ => .refl _⟩

/-- What is pending when marking begins: the pinned records and the roots. -/
theorem Along.mem_pending (along : Along h records order) :
    a ∈ records.filter (fun a => (h.headerAt a).pins != 0) ++ roots ↔
      a ∈ roots ∨ ∃ c, h.cell? a = some c ∧ c.pins ≠ 0 := by
  rw [List.mem_append, List.mem_filter, along.records.mem_iff, ← mem_pinned, pinned,
    List.mem_filter, or_comm]
  rfl

theorem Along.mem_unreached (along : Along h records order) (roots : List Address) :
    a.index ∈ h.unreached h.live (records.filter (fun a => (h.headerAt a).pins != 0) ++ roots) ↔
      h.isLive a ∧ ¬Records.Kept h.cell? roots a := by
  rw [Heap.mem_unreached]
  simp only [along.mem_pending]
  rfl

/-! ## Dropping references -/

/-- References are dropped to records that are pinned or to which there are other references. No
record goes away. -/
theorem Exact.drain_keeps {l : List Address} (x : Exact P (l + O) h)
    (held : ∀ a ∈ l, a ≠ .nil → a ∈ O + h.edges + P) : ∃ h', h.drain l = .ok () h' ∧
      h'.live = h.live ∧ Exact P O h' ∧ Shrinks h h' ∧ Prunes h h' := by
  induction l generalizing h with
  | nil => exact ⟨h, by rw [Heap.drain], rfl, by simpa using x, .refl, .refl⟩
  | cons a rest ih =>
    have x : Exact P (a ::ₘ (rest + O)) h := by simpa [← Multiset.cons_coe] using x
    rw [Heap.drain]
    split_ifs with hn hl
    · obtain rfl := Address.isNil_iff.1 hn
      exact ih (x.congr fun b hb => (Multiset.count_cons_of_ne hb _).symm)
        fun b hb => held b (List.mem_cons_of_mem _ hb)
    · have hc := cell?_eq_some.2 ⟨hl, rfl⟩
      have u := x.sound.put_count hc ((h.cellAt a).count - 1)
      have e := u.edges
      rw [hc, kids_some, kids_some, add_left_inj] at e
      have kept : ¬((h.cellAt a).count = 1 ∧ (h.cellAt a).pins = 0) := by
        rintro ⟨last, unpinned⟩
        have count := x.count hc
        have pins := x.pins hc
        have other := Multiset.count_pos.2 (held a (by simp) (x.sound.ne_nil hl))
        rw [last, Multiset.cons_add, Multiset.count_cons_self] at count
        rw [unpinned] at pins
        simp only [Multiset.count_add, UInt64.toNat_one, UInt16.toNat_zero] at *
        omega
      obtain ⟨h', run, live, x', k, prunes⟩ := ih (x.lose hc kept) fun b hb hne => by
        rw [e]
        exact held b (List.mem_cons_of_mem _ hb) hne
      exact ⟨h', (if_neg (x.count_pos (by simp) hc)).trans ((if_neg kept).trans run), live, x',
        (Shrinks.put_count hc u).trans k, (x.sound.setCount_prunes hl).trans prunes⟩
    · exact absurd (x.isLive_of_mem (by simp) fun e => hn (Address.isNil_iff.2 e)) hl

/-- The slots of a heap are those of the records that are gone and those of the ones that are left.
-/
theorem Shrinks.edges (k : Shrinks h h') :
    h.edges = ∑ b ∈ h.records \ h'.records,
    ((h.cellAt b).children : Multiset Address) + h'.edges := by
  have fewer : h'.records ⊆ h.records := by
    intro a ha
    obtain ⟨c, hc, -⟩ := k a _ (cell?_eq_some.2 ⟨mem_records.1 ha, rfl⟩)
    exact mem_records.2 (cell?_eq_some.1 hc).1
  rw [Heap.edges, Heap.edges, ← Finset.sum_sdiff fewer]
  congr 1
  refine Finset.sum_congr rfl fun a ha => ?_
  obtain ⟨c, hc, e⟩ := k a _ (cell?_eq_some.2 ⟨mem_records.1 ha, rfl⟩)
  obtain ⟨-, rfl⟩ := cell?_eq_some.1 hc
  rw [e]

/-! ## One collection -/

/-- What a collection makes of a heap: `n` records are released. -/
structure Swept (roots : List Address) (h : Heap) (n : Nat) (h' : Heap) : Prop where
  /-- What is left is what slots lead to from a root or a pinned record. -/
  live : ∀ a, h'.isLive a ↔ h.isLive a ∧ Records.Kept h.cell? roots a
  released : n = (h.records \ h'.records).card
  /-- What is left is as it was, but for the references that released records held to it. -/
  survivors : ∀ a c', h'.cell? a = some c' → ∃ c, h.cell? a = some c ∧
  c' = { c with count := c'.count } ∧
    c.count.toNat = c'.count.toNat + ∑ b ∈ h.records \ h'.records, (h.cellAt b).children.count a
  /-- Another collection releases nothing. -/
  again : ∀ records order, Along h' records order →
  HeapM.sweepAlong records order roots h' = .ok 0 h'

/-- What is kept stays kept. -/
theorem kept_again (live : ∀ a, h'.isLive a ↔ h.isLive a ∧ Records.Kept h.cell? roots a)
    (k : Shrinks h h')
    (hl : h'.isLive a) : Records.Kept h'.cell? roots a := by
  obtain ⟨-, b, hb, leads⟩ := (live a).1 hl
  have same {d : Address} {c : Cell} (hd : Records.Kept h.cell? roots d) (hc : h.cell? d = some c) :
      ∃ c', h'.cell? d = some c' ∧ c'.children = c.children ∧ c'.pins = c.pins := by
    have hd := cell?_eq_some.2 ⟨(live d).2 ⟨(cell?_eq_some.1 hc).1, hd⟩, rfl⟩
    obtain ⟨c₁, hc₁, e⟩ := k d _ hd
    obtain rfl : c₁ = c := by simpa [hc] using hc₁.symm
    exact ⟨_, hd, by rw [e], by rw [e]⟩
  refine ⟨b, hb.imp_right ?_, ?_⟩
  · rintro ⟨c, hc, pinned⟩
    obtain ⟨c', hc', -, pins⟩ := same ⟨b, .inr ⟨c, hc, pinned⟩, .refl⟩ hc
    exact ⟨c', hc', pins ▸ pinned⟩
  · clear hl
    induction leads with
    | refl => exact .refl
    | tail leads points ih =>
      obtain ⟨c, hc, ha⟩ := points
      obtain ⟨c', hc', children, -⟩ := same ⟨b, hb, leads⟩ hc
      exact ih.tail ⟨c', hc', children ▸ ha⟩

/-- A collection releases nothing if all records are kept. -/
theorem sweepAlong_of_kept (along : Along h records order)
    (all : ∀ a, h.isLive a → Records.Kept h.cell? roots a) :
    HeapM.sweepAlong records order roots h = .ok 0 h := by
  have unreached (a : Address) := along.mem_unreached (a := a) roots
  unfold HeapM.sweepAlong
  refine bind_ok.2 ⟨h, h, get_ok.2 ⟨rfl, rfl⟩, ?_⟩
  generalize h.unreached h.live
    (records.filter (fun a => (h.headerAt a).pins != 0) ++ roots) = garbage at *
  have size : garbage.size = 0 := by
    have : garbage.isEmpty := Std.TreeSet.isEmpty_iff_forall_not_mem.2 fun i hi => by
      obtain ⟨hl, lost⟩ := (unreached ⟨i⟩).1 hi
      exact lost (all _ hl)
    simpa [Std.TreeSet.isEmpty_eq_size_eq_zero] using this
  have emptied : order garbage = [] := by
    rw [← List.length_eq_zero_iff, (along.garbage garbage).length_eq, Std.TreeSet.length_toList,
      size]
  rw [emptied, size]
  exact bind_ok.2 ⟨⟨⟩, h, rfl,
    bind_ok.2 ⟨(), h, by rw [List.flatMap_nil, List.reverse_nil, drain], rfl⟩⟩

/-- A collection from roots that are owned, in some order. -/
theorem Exact.sweepAlong (x : Exact P O h) (held : ∀ r ∈ roots, r = .nil ∨ r ∈ O)
    (along : Along h records order) : ∃ n h', HeapM.sweepAlong records order roots h = .ok n h' ∧
      Swept roots h n h' ∧ h'.Sound ∧ Prunes h h' := by
  have unreached (a : Address) := along.mem_unreached (a := a) roots
  obtain ⟨sub, out, closed⟩ := unreached_closed (h := h) h.live
    (records.filter (fun a => (h.headerAt a).pins != 0) ++ roots)
  generalize hg : h.unreached h.live (records.filter (fun a => (h.headerAt a).pins != 0) ++ roots) =
    garbage at *
  have perm := along.garbage garbage
  obtain ⟨h₁, run, sound, cells, prunes⟩ :=
    x.sound.discards (perm.nodup_iff.2 (nodup_toList garbage))
    fun i hi => isLive_iff.2 (sub i (Std.TreeSet.mem_toList.1 (perm.mem_iff.1 hi)))
  simp only [perm.mem_iff, Std.TreeSet.mem_toList] at cells
  -- what the garbage held is the same in every order
  let loose := (order garbage).flatMap fun i =>
    (h.slots ⟨i⟩ (h.headerAt ⟨i⟩)).filter fun a => !garbage.contains a.index
  have outgoing : (loose.reverse : Multiset Address) = h.outgoing garbage :=
    Multiset.coe_eq_coe.2 ((List.reverse_perm _).trans (perm.flatMap_right _))
  have x₁ := x.swept sound sub cells closed fun a ha => out a <|
    along.mem_pending.2 (.inr (mem_pinned.1 ha))
  rw [← outgoing] at x₁
  have live₁ (a : Address) : h₁.isLive a ↔ h.isLive a ∧ Records.Kept h.cell? roots a := by
    rw [← isSome_cell?, cells, ← isSome_cell?]
    have := unreached a
    rw [← isSome_cell?] at this
    split_ifs <;> grind
  obtain ⟨h', drained, live, x', k', prunes'⟩ := x₁.drain_keeps fun a ha hne => by
    obtain ⟨i, hi, slot, hg⟩ :=
      mem_outgoing.1 (Multiset.mem_coe.1 (outgoing ▸ Multiset.mem_coe.2 ha))
    have here : h.isLive ⟨i⟩ := isLive_iff.2 (sub i hi)
    have hl : h.isLive a := (x.closed (a := a) (by
      simp [mem_edges.2 ⟨⟨i⟩, _, cell?_eq_some.2 ⟨here, rfl⟩, slot⟩])).resolve_left hne
    obtain ⟨b, hb, leads⟩ : Records.Kept h.cell? roots a := by
      by_contra lost
      exact hg ((unreached a).2 ⟨hl, lost⟩)
    -- the last step of the way to the record is from a record that is kept
    cases leads with
    | refl =>
      rcases hb with hb | ⟨c, hc, pinned⟩
      · have := (held a hb).resolve_left hne
        simp [this, hg]
      · have : a ∈ P := Multiset.count_pos.1 (by
          have := x.pins hc
          have : c.pins.toNat ≠ 0 := fun e => pinned (UInt16.toNat_inj.1 e)
          omega)
        simp [this]
    | @tail d _ leads points =>
      obtain ⟨c, hc, hk⟩ := points
      have hd : h₁.isLive d := (live₁ d).2 ⟨(cell?_eq_some.1 hc).1, b, hb, leads⟩
      have there : h₁.cell? d = some c := by
        rw [← isSome_cell?, cells] at hd
        rw [cells]
        split_ifs at hd ⊢
        · simp at hd
        · exact hc
      simp [mem_edges.2 ⟨d, c, there, hk⟩]
  have isLive (a : Address) : h'.isLive a ↔ h.isLive a ∧ Records.Kept h.cell? roots a := by
    rw [← live₁, isLive_iff, isLive_iff, live]
  have k : Shrinks h h' := .trans (fun a c hc => by
    rw [cells] at hc
    split_ifs at hc
    exact ⟨c, hc, rfl⟩) k'
  refine ⟨garbage.size, h', ?_, ⟨isLive, ?_, fun a c' hc => ?_, fun records' order' along' =>
    sweepAlong_of_kept along' fun a hl => kept_again isLive k hl⟩, x'.sound, prunes.trans prunes'⟩
  · unfold HeapM.sweepAlong
    refine bind_ok.2 ⟨h, h, get_ok.2 ⟨rfl, rfl⟩, ?_⟩
    rw [hg]
    exact bind_ok.2 ⟨⟨⟩, h₁, run, bind_ok.2 ⟨(), h', drained, pure_ok.2 ⟨rfl, rfl⟩⟩⟩
  · have distinct : (garbage.toList.map Address.mk).Nodup :=
      (nodup_toList garbage).map fun i j e => congrArg Address.index e
    have same : (garbage.toList.map Address.mk).toFinset = h.records \ h'.records := by
      ext a
      obtain ⟨i⟩ := a
      have := unreached ⟨i⟩
      simp only [List.mem_toFinset, List.mem_map, Std.TreeSet.mem_toList, Address.mk.injEq,
        exists_eq_right,
        Finset.mem_sdiff, mem_records, isLive]
      grind
    rw [← same, List.toFinset_card_of_nodup distinct, List.length_map, Std.TreeSet.length_toList]
  · obtain ⟨c, hc₀, e⟩ := k a c' hc
    refine ⟨c, hc₀, e, ?_⟩
    have hg : a.index ∉ garbage := fun hg =>
      ((unreached a).1 hg).2 ((isLive a).1 (cell?_eq_some.1 hc).1).2
    rw [x.count hc₀, x'.count hc, k.edges]
    simp only [Multiset.count_add, Multiset.count_sum', Multiset.coe_count,
      Multiset.count_filter_of_pos (p := fun a : Address => a.index ∉ garbage) hg]
    omega

/-! ## Any order -/

/-- A collection goes well and does what it should, and it does the same to the records and to the
free blocks in whatever order it goes through the records and the garbage. -/
def SweepsExactly (roots : List Address) (h : Heap) : Prop :=
  ∃ n h', HeapM.markAndSweep roots h = .ok n h' ∧ Swept roots h n h' ∧
    ∀ records order, Along h records order → ∃ h'',
    HeapM.sweepAlong records order roots h = .ok n h'' ∧
      Swept roots h n h'' ∧ h''.cell? = h'.cell? ∧ h''.pool.Alike h'.pool

/-- Collections from roots that are owned are exact, in every heap that operations lead to and whose
counts are exact. -/
theorem markAndSweep_exact (arises : Arises h) (x : Exact P O h) (held : ∀ r ∈ roots, r = .nil ∨
    r ∈ O) :
    SweepsExactly roots h := by
  obtain ⟨n, h', run, swept, sound, prunes⟩ := x.sweepAlong held along_self
  refine ⟨n, h', markAndSweep_eq.trans run, swept, fun records order along => ?_⟩
  obtain ⟨m, h'', run', swept', sound', prunes'⟩ := x.sweepAlong held along
  have isLive (a : Address) : h''.isLive a = h'.isLive a := by
    rw [Bool.eq_iff_iff, swept.live, swept'.live]
  have records : h''.records = h'.records := by
    ext a
    rw [mem_records, mem_records, isLive]
  obtain rfl : m = n := by rw [swept.released, swept'.released, records]
  refine ⟨h'', run', swept', ?_, ?_⟩
  · funext a
    have same := isLive a
    rw [← isSome_cell?, ← isSome_cell?] at same
    cases hc : h'.cell? a with
    | none => simpa [hc] using same
    | some c =>
      obtain ⟨c', hc'⟩ := Option.isSome_iff_exists.1 (same.trans (by simp [hc]))
      obtain ⟨c₀, hc₀, e, count⟩ := swept.survivors a c hc
      obtain ⟨c₁, hc₁, e', count'⟩ := swept'.survivors a c' hc'
      obtain rfl : c₁ = c₀ := by simpa [hc₀] using hc₁.symm
      have : c'.count = c.count := UInt64.toNat_inj.1 (by
        rw [records] at count'
        omega)
      rw [hc', e', e, this]
  · exact prunes.alike prunes' sound sound' isLive arises.tidy.joined

theorem Client.Reached.arises {k : Client} (reached : k.Reached) : Arises k.heap := by
  induction reached with
  | new made => exact .new made
  | step _ step _ ih =>
    cases step with
    | done run => exact .done ih run
    | failed run => exact .failed ih run

/-- The calls of a client that lets go of a record which refers to itself, and sweeps. -/
def cycleRun : Bool :=
  match Heap.new 64 with
  | .error _ => false
  | .ok h₀ => match (Op.allocate .linkedList 0 2).run h₀ with
    | .ok (.address a) h₁ => match (Op.setChild a .linkedList 0 a).run h₁ with
      | .ok .done h₂ => match (Op.free a).run h₂ with
        | .ok .done h₃ => match (Op.allocate .int32 1 0).run h₃ with
          | .ok (.address r) h => match HeapM.markAndSweep [r] h with
            | .ok n _ => n = 1 ∧ h.liveCount = 2
            | _ => false
          | _ => false
        | _ => false
      | _ => false
    | _ => false

open Client in
/-- A client that has given up a record which refers to itself, and owns another one. -/
theorem swept_cycle : ∃ (k : Client) (r : Address), k.Reached ∧ k.owned = {r} ∧
    k.heap.liveCount = 2 ∧
    (∃ h', HeapM.markAndSweep [r] k.heap = .ok 1 h') ∧ SweepsExactly [r] k.heap := by
  have ran : cycleRun = true := by decide +kernel
  unfold cycleRun at ran
  split at ran
  · cases ran
  next h₀ made =>
  split at ran
  case h_2 => cases ran
  next a h₁ ran₁ =>
  split at ran
  case h_2 => cases ran
  next h₂ ran₂ =>
  split at ran
  case h_2 => cases ran
  next h₃ ran₃ =>
  split at ran
  case h_2 => cases ran
  next r h ran₄ =>
  split at ran
  case h_2 => cases ran
  next n h' swept =>
  obtain ⟨rfl, live⟩ := of_decide_eq_true ran
  let k₀ : Client := ⟨h₀, 0, 0, count_le_limit (by decide)⟩
  let k₁ : Client := ⟨h₁, {a}, 0, count_le_limit (by simp)⟩
  let k₂ : Client := ⟨h₂, {a}, 0, count_le_limit (by simp)⟩
  let k₃ : Client := ⟨h₃, 0, 0, count_le_limit (by decide)⟩
  let k : Client := ⟨h, {r}, 0, count_le_limit (by simp)⟩
  have reached : k₀.Reached := .new made rfl rfl
  have reached : k₁.Reached := .step reached (.done ran₁ rfl rfl) trivial
  have reached : k₂.Reached := .step reached (.done ran₂ rfl rfl) trivial
  have reached : k₃.Reached := .step reached (.done ran₃ (by simp [k₂, k₃, Op.owned]) rfl)
    (by simp [Op.Entitled, k₂])
  have reached : k.Reached := .step reached (.done ran₄ rfl rfl) trivial
  exact ⟨k, r, reached, rfl, live, ⟨h', swept⟩,
    markAndSweep_exact (O := k.owned) reached.arises reached.exact (by simp [k])⟩

end Heap
end GoMachine
