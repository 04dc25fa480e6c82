import Mathlib.Data.Fintype.Order
import Mathlib.Order.WellFounded
import GoMachine.Heap.Sweep
import GoMachine.Proofs.Heap.Owns
import GoMachine.Proofs.Heap.Prune
/-!
# Collection

`unreached` leaves exactly the records that no chain of child slots leads to from what is pending,
so a collection whose roots cover what the client owns releases what the client cannot reach and
keeps the counts exact.

* `Exact.markAndSweep`: a collection ends well and keeps the counts exact.
* `Exact.behind_cycle`: a record that the client cannot reach is on or behind a cycle of references.
* `Exact.unreached_eq_zero`: a heap without cycles has no garbage.
-/
namespace GoMachine
namespace Heap

variable {h h' : Heap} {a b : Address} {c : Cell}

/-- A child slot of one record holds another address. -/
def Points (h : Heap) (a b : Address) : Prop := ∃ c, h.cell? a = some c ∧ b ∈ c.children

/-- Child slots lead from one address to another. -/
def Leads (h : Heap) : Address → Address → Prop := Relation.ReflTransGen h.Points

theorem points_iff : h.Points a b ↔ h.isLive a ∧ b ∈ h.slots a (.ofWord (h.pool.word a.index)) := by
  simp only [Points, cell?_eq_some]
  constructor
  · rintro ⟨_, ⟨hl, rfl⟩, hb⟩
    exact ⟨hl, hb⟩
  · rintro ⟨hl, hb⟩
    exact ⟨_, ⟨hl, rfl⟩, hb⟩

/-! ## Marking -/

theorem mem_pinned : a ∈ h.pinned ↔ ∃ c, h.cell? a = some c ∧ c.pins ≠ 0 := by
  rw [pinned, List.mem_filter]
  constructor
  · rintro ⟨here, held⟩
    have hl : h.isLive a := mem_records.1 (by simpa [Heap.records] using here)
    exact ⟨_, cell?_eq_some.2 ⟨hl, rfl⟩, bne_iff_ne.1 held⟩
  · rintro ⟨c, hc, held⟩
    obtain ⟨hl, rfl⟩ := cell?_eq_some.1 hc
    exact ⟨by simpa [Heap.records] using mem_records.2 hl, bne_iff_ne.2 held⟩

/-- What is not reached is a set of records that nothing pending leads into. -/
theorem unreached_closed (records : Std.TreeSet Nat) (pending : List Address) :
    (∀ i ∈ h.unreached records pending, i ∈ records) ∧
    (∀ a ∈ pending, a.index ∉ h.unreached records pending) ∧
    ∀ i ∈ records, i ∉ h.unreached records pending →
      ∀ b ∈ h.slots ⟨i⟩ (.ofWord (h.pool.word i)), b.index ∉ h.unreached records pending := by
  induction records, pending using unreached.induct h with
  | case1 records =>
    rw [unreached]
    exact ⟨fun _ hi => hi, by simp, fun i hi hg => absurd hi hg⟩
  | case2 records a rest ha hd ih =>
    obtain ⟨sub, out, closed⟩ := ih
    rw [unreached, dif_pos ha]
    refine ⟨fun i hi => Std.TreeSet.mem_of_mem_erase (sub i hi), fun b hb => ?_, fun i hi hg b hb =>
      ?_⟩
    · rcases List.mem_cons.1 hb with rfl | hb
      · exact fun hg => by simpa using sub _ hg
      · exact out b (by simp [hb])
    · by_cases hia : i = a.index
      · subst hia
        exact out b (by simp [hd, hb])
      · exact closed i (Std.TreeSet.mem_erase.2 ⟨by grind, hi⟩) hg b hb
  | case3 records a rest ha ih =>
    obtain ⟨sub, out, closed⟩ := ih
    rw [unreached, dif_neg ha]
    refine ⟨sub, fun b hb => ?_, closed⟩
    rcases List.mem_cons.1 hb with rfl | hb
    · exact fun hg => ha (Std.TreeSet.contains_iff_mem.2 (sub _ hg))
    · exact out b hb

/-- What is reached is led to from something pending. -/
theorem leads_of_reached (records : Std.TreeSet Nat) (pending : List Address)
    (live : ∀ i ∈ records, i ∈ h.live) :
    ∀ a : Address, a.index ∈ records → a.index ∉ h.unreached records pending →
      ∃ b ∈ pending, h.Leads b a := by
  induction records, pending using unreached.induct h with
  | case1 records =>
    intro a ha hg
    rw [unreached] at hg
    exact absurd ha hg
  | case2 records r rest hr hd ih =>
    intro a ha hg
    rw [unreached, dif_pos hr] at hg
    by_cases har : a = r
    · exact ⟨r, by simp, har ▸ .refl⟩
    · have : a.index ∈ records.erase r.index :=
        Std.TreeSet.mem_erase.2 ⟨by have := Address.index_ne har; grind, ha⟩
      obtain ⟨b, hb, l⟩ := ih (fun i hi => live i (Std.TreeSet.mem_of_mem_erase hi)) a this hg
      rcases List.mem_append.1 hb with hb | hb
      · have hl : h.isLive r := isLive_iff.2 (live _ (Std.TreeSet.contains_iff_mem.1 hr))
        exact ⟨r, by simp, .head (points_iff.2 ⟨hl, List.mem_reverse.1 hb⟩) l⟩
      · exact ⟨b, by simp [hb], l⟩
  | case3 records r rest hr ih =>
    intro a ha hg
    rw [unreached, dif_neg hr] at hg
    obtain ⟨b, hb, l⟩ := ih live a ha hg
    exact ⟨b, by simp [hb], l⟩

/-- What is not reached is what nothing pending leads to. -/
theorem mem_unreached {pending : List Address} : a.index ∈ h.unreached h.live pending ↔
    h.isLive a ∧ ¬∃ b ∈ pending, h.Leads b a := by
  obtain ⟨sub, out, closed⟩ := unreached_closed (h := h) h.live pending
  constructor
  · refine fun hg => ⟨isLive_iff.2 (sub _ hg), ?_⟩
    rintro ⟨b, hb, leads⟩
    revert hg
    change ¬_
    induction leads with
    | refl => exact out b hb
    | tail _ points ih =>
      obtain ⟨hl, ha⟩ := points_iff.1 points
      exact closed _ (isLive_iff.1 hl) ih _ ha
  · rintro ⟨hl, unled⟩
    by_contra hg
    exact unled (leads_of_reached h.live pending (fun _ hi => hi) a (isLive_iff.1 hl) hg)

/-! ## Sweeping -/

theorem nodup_toList (records : Std.TreeSet Nat) : records.toList.Nodup :=
  Std.TreeSet.distinct_toList.imp fun h e => h (by simp [e])

/-- Records are taken off the heap one after another. -/
theorem Sound.discards (s : Sound h) {l : List Nat} (distinct : l.Nodup)
    (live : ∀ i ∈ l, h.isLive ⟨i⟩) :
    ∃ h', (forIn l PUnit.unit fun i _ => do
        set (← HeapM.ask (·.discard i))
        pure (ForInStep.yield PUnit.unit) : HeapM PUnit) h = .ok ⟨⟩ h' ∧ h'.Sound ∧
      (∀ a : Address, h'.cell? a = if a.index ∈ l then none else h.cell? a) ∧ Prunes h h' := by
  induction l generalizing h with
  | nil => exact ⟨h, rfl, s, by simp, .refl⟩
  | cons i l ih =>
    obtain ⟨q, hq, u⟩ := s.discarded (live i (by simp))
    have kept : ∀ j ∈ l, Heap.isLive ⟨q, h.live.erase i⟩ ⟨j⟩ := by
      intro j hj
      have hne : (⟨j⟩ : Address) ≠ ⟨i⟩ := by
        rintro ⟨rfl⟩
        exact (List.nodup_cons.1 distinct).1 hj
      rw [u.isLive_of_ne hne]
      exact live j (by simp [hj])
    obtain ⟨h', run, s', cells, prunes⟩ := ih u.sound distinct.of_cons kept
    refine ⟨h', ?_, s', fun a => ?_, (s.discarded_prunes (live i (by simp)) hq).trans prunes⟩
    · rw [List.forIn_cons]
      simp only [bind_ok, pure_ok, set_ok, ask_ok]
      have hd : h.discard i = .ok ⟨q, h.live.erase i⟩ := by
        rw [discard, hq]
        rfl
      exact ⟨_, _, ⟨_, _, ⟨hd, rfl⟩, ⟨⟩, _, rfl, rfl, rfl⟩, run⟩
    · rw [cells a]
      by_cases ha : a.index = i
      · have : a = ⟨i⟩ := by
          cases a
          exact congrArg Address.mk ha
        subst this
        rw [u.cell?_self]
        simp
      · rw [u.cell?_of_ne fun e => ha (congrArg Address.index e)]
        simp [ha]

theorem mem_outgoing {garbage : Std.TreeSet Nat} : b ∈ h.outgoing garbage ↔
    ∃ i ∈ garbage, b ∈ h.slots ⟨i⟩ (.ofWord (h.pool.word i)) ∧ b.index ∉ garbage := by
  simp [outgoing, ← Std.TreeSet.contains_iff_mem]

/-- The slots of records that survive and of those that do not make up all slots; the latter hold
what is let go and, for the rest, garbage. -/
theorem edges_swept {garbage : Std.TreeSet Nat} (sub : ∀ i ∈ garbage, i ∈ h.live)
    (cells : ∀ a : Address, h'.cell? a = if a.index ∈ garbage then none else h.cell? a)
    (hb : b.index ∉ garbage) :
    h.edges.count b = (h.outgoing garbage).count b + h'.edges.count b := by
  let swept (a : Address) : Nat := if a.index ∈ garbage then (h.cellAt a).children.count b else 0
  have survivors : h'.records ⊆ h.records := by
    intro a ha
    rw [mem_records, ← isSome_cell?, cells] at ha
    rw [mem_records, ← isSome_cell?]
    split_ifs at ha <;> simp_all
  have part : ∀ a ∈ h.records, (kids (h.cell? a)).count b =
    swept a + (kids (h'.cell? a)).count b := by
    intro a ha
    rw [cells, cell?_eq_some.2 ⟨mem_records.1 ha, rfl⟩]
    simp only [swept]
    split_ifs <;> simp
  have loose : (h.outgoing garbage).count b = ∑ a ∈ h.records, swept a := by
    let dead := garbage.toList.map Address.mk
    have distinct : dead.Nodup := (nodup_toList garbage).map fun i j e => congrArg Address.index e
    have mem : ∀ a : Address, a ∈ dead.toFinset ↔ a.index ∈ garbage := by
      rintro ⟨i⟩
      simp [dead]
    have here : dead.toFinset ⊆ h.records := by
      intro a ha
      rw [mem_records, isLive_iff]
      exact sub _ ((mem a).1 ha)
    calc (h.outgoing garbage).count b
      _ = (dead.map swept).sum := by
        rw [outgoing, List.count_flatMap, List.map_map]
        refine congrArg List.sum (List.map_congr_left fun i hi => ?_)
        have hi : i ∈ garbage := Std.TreeSet.mem_toList.1 hi
        simp only [Function.comp, swept, if_pos hi]
        rw [List.count_filter (by grind)]
        rfl
      _ = ∑ a ∈ dead.toFinset, swept a := (List.sum_toFinset _ distinct).symm
      _ = ∑ a ∈ h.records, swept a := Finset.sum_subset here fun a _ ha =>
        if_neg fun hg => ha ((mem a).2 hg)
  rw [edges_eq (subset_refl h.records), edges_eq survivors, Multiset.count_sum',
    Multiset.count_sum',
    loose, ← Finset.sum_add_distrib]
  exact Finset.sum_congr rfl part

/-- Records that nothing kept leads into are taken off the heap. What they held is loose, and what
the client owned of them it owns no more. -/
theorem Exact.swept {P O : Multiset Address} (x : Exact P O h) (sound : h'.Sound)
    {garbage : Std.TreeSet Nat} (sub : ∀ i ∈ garbage, i ∈ h.live)
    (cells : ∀ a : Address, h'.cell? a = if a.index ∈ garbage then none else h.cell? a)
    (closed : ∀ i ∈ h.live, i ∉ garbage →
      ∀ b ∈ h.slots ⟨i⟩ (.ofWord (h.pool.word i)), b.index ∉ garbage)
    (pinned : ∀ a ∈ h.pinned, a.index ∉ garbage) :
    Exact P (h.outgoing garbage + O.filter (·.index ∉ garbage)) h' := by
  have survivor : ∀ {a c}, h'.cell? a = some c → a.index ∉ garbage ∧ h.cell? a = some c := by
    intro a c hc
    rw [cells] at hc
    split_ifs at hc with hg
    exact ⟨hg, hc⟩
  have pinned : ∀ a ∈ P, a.index ∉ garbage := by
    intro a ha hg
    have hl : h.isLive a := isLive_iff.2 (sub _ hg)
    refine pinned a (List.mem_filter.2 ⟨?_, ?_⟩) hg
    · simpa [Heap.records] using mem_records.2 hl
    · have := x.pins (cell?_eq_some.2 ⟨hl, rfl⟩)
      have := Multiset.count_pos.2 ha
      rw [bne_iff_ne]
      intro e
      simp only [cellAt, headerAt, e, UInt16.toNat_zero] at *
      omega
  refine ⟨sound, fun {a c} hc => ?_, fun hc => x.pins (survivor hc).2,
    fun hc => x.idle (survivor hc).2, fun {a} ha => ?_⟩
  · obtain ⟨hg, hc⟩ := survivor hc
    rw [x.count hc]
    simp only [Multiset.count_add, edges_swept sub cells hg, Multiset.coe_count,
      Multiset.count_filter_of_pos (p := fun a : Address => a.index ∉ garbage) hg]
    omega
  · have kept : a.index ∉ garbage ∧ a ∈ O + h.edges + P := by
      simp only [Multiset.mem_add, Multiset.mem_coe, Multiset.mem_filter] at ha ⊢
      rcases ha with ((ha | ⟨ha, hg⟩) | ha) | ha
      · obtain ⟨i, hi, ha, hg⟩ := mem_outgoing.1 ha
        have hl : h.isLive ⟨i⟩ := isLive_iff.2 (sub i hi)
        exact ⟨hg, .inl (.inr (mem_edges.2 ⟨⟨i⟩, _, cell?_eq_some.2 ⟨hl, rfl⟩, ha⟩))⟩
      · exact ⟨hg, .inl (.inl ha)⟩
      · obtain ⟨b, c, hb, ha⟩ := mem_edges.1 ha
        obtain ⟨hg, hb⟩ := survivor hb
        obtain ⟨hl, rfl⟩ := cell?_eq_some.1 hb
        exact ⟨closed _ (isLive_iff.1 hl) hg a ha, .inl (.inr (mem_edges.2 ⟨b, _, hb, ha⟩))⟩
      · exact ⟨pinned a ha, .inr ha⟩
    refine (x.closed kept.2).imp_right fun hl => ?_
    rw [← isSome_cell?, cells, if_neg kept.1, isSome_cell?]
    exact hl

/-- A collection releases the records that nothing leads to from a root or a pinned record, whatever
the client owned of them. -/
theorem Exact.collects {P O : Multiset Address} (x : Exact P O h) {R : List Address} :
    ∃ h', HeapM.markAndSweep R h =
        .ok (h.unreached h.live (h.pinned ++ R)).size h' ∧
      Exact P (O.filter (·.index ∉ h.unreached h.live (h.pinned ++ R))) h' ∧ Shrinks h h' ∧
      ∃ h₁ : Heap, h₁.Sound ∧
        (∀ a : Address, h₁.cell? a =
          if a.index ∈ h.unreached h.live (h.pinned ++ R) then none else h.cell? a) ∧
        Shrinks h₁ h' ∧
        h₁.drain (h.outgoing (h.unreached h.live (h.pinned ++ R))).reverse = .ok () h' := by
  have run : ∀ h₁ h', (forIn (h.unreached h.live (h.pinned ++ R)).toList PUnit.unit fun i _ => do
        set (← HeapM.ask (·.discard i))
        pure (ForInStep.yield PUnit.unit) : HeapM PUnit) h = .ok ⟨⟩ h₁ →
      h₁.drain (h.outgoing (h.unreached h.live (h.pinned ++ R))).reverse = .ok () h' →
      HeapM.markAndSweep R h = .ok (h.unreached h.live (h.pinned ++ R)).size h' := by
    intro h₁ h' swept drained
    unfold HeapM.markAndSweep
    refine bind_ok.2 ⟨h, h, get_ok.2 ⟨rfl, rfl⟩, bind_ok.2 ⟨⟨⟩, h₁, swept, bind_ok.2 ⟨(), h', ?_⟩⟩⟩
    exact ⟨drained, pure_ok.2 ⟨rfl, rfl⟩⟩
  obtain ⟨sub, out, closed⟩ := unreached_closed (h := h) h.live (h.pinned ++ R)
  generalize h.unreached h.live (h.pinned ++ R) = garbage at *
  obtain ⟨h₁, run₁, s₁, cells, -⟩ := x.sound.discards (nodup_toList garbage)
    fun i hi => isLive_iff.2 (sub i (Std.TreeSet.mem_toList.1 hi))
  simp only [Std.TreeSet.mem_toList] at cells
  have x₁ := x.swept s₁ sub cells closed fun a ha => out a (List.mem_append_left _ ha)
  rw [← Multiset.coe_reverse] at x₁
  obtain ⟨h', drained, x', k, -⟩ := x₁.drain
  refine ⟨h', run h₁ h' run₁ drained, x', .trans (fun a c hc => ?_) k, h₁, s₁, cells, k, drained⟩
  rw [cells] at hc
  split_ifs at hc
  exact ⟨c, hc, rfl⟩

theorem not_mem_unreached {R : List Address} (ha : a ∈ R) :
    a.index ∉ h.unreached h.live (h.pinned ++ R) :=
  (unreached_closed h.live _).2.1 a (List.mem_append_right _ ha)

/-- A collection without roots takes everything that nobody has pinned off the heap. -/
theorem Exact.collects_all {O : Multiset Address} (x : Exact 0 O h) :
    ∃ k h', HeapM.markAndSweep [] h = .ok k h' ∧ (∀ a, h'.isLive a = false) ∧
    h'.freeWords = h'.capacity := by
  obtain ⟨h', run, x', -, h₁, -, cells, shrinks, -⟩ := x.collects (R := [])
  have unpinned : h.pinned = [] := by
    refine List.eq_nil_iff_forall_not_mem.2 fun a ha => ?_
    obtain ⟨c, hc, pinned⟩ := mem_pinned.1 ha
    exact pinned (UInt16.toNat_inj.1 (x.pins hc))
  have gone : ∀ a, h₁.cell? a = none := by
    intro a
    rw [cells, unpinned]
    split_ifs with kept
    · rfl
    · rw [cell?_eq_none, Bool.eq_false_iff]
      exact fun live => kept (mem_unreached.2 ⟨live, by simp⟩)
  have dead : ∀ a, h'.isLive a = false := by
    intro a
    rw [← cell?_eq_none, Option.eq_none_iff_forall_ne_some]
    intro c hc
    obtain ⟨c', hc', -⟩ := shrinks a c hc
    simp [gone] at hc'
  refine ⟨_, h', run, dead, ?_⟩
  have emptied : {i | i ∈ h'.live} = ∅ := Set.eq_empty_iff_forall_notMem.2 fun i hi => by
    have live : h'.isLive ⟨i⟩ := isLive_iff.2 hi
    simp [dead] at live
  exact (emptied ▸ x'.sound.serves).freeWords_eq_capacity

/-- A collection whose roots cover what the client owns keeps the counts exact. It releases the
records that nothing leads to from a root or a pinned record. -/
theorem Exact.markAndSweep {P O : Multiset Address} (x : Exact P O h) {roots : List Address}
    (cover : ∀ a ∈ O, a ∈ roots) :
    ∃ h', HeapM.markAndSweep roots h =
        .ok (h.unreached h.live (h.pinned ++ roots)).size h' ∧
      Exact P O h' ∧ Shrinks h h' ∧ ∃ h₁ : Heap, h₁.Sound ∧
        (∀ a : Address, h₁.cell? a =
          if a.index ∈ h.unreached h.live (h.pinned ++ roots) then none else h.cell? a) ∧
        h₁.drain (h.outgoing (h.unreached h.live (h.pinned ++ roots))).reverse = .ok () h' := by
  obtain ⟨h', run, x', k, h₁, s₁, cells, -, drained⟩ := x.collects (R := roots)
  rw [Multiset.filter_eq_self.2 fun a ha => not_mem_unreached (cover a ha)] at x'
  exact ⟨h', run, x', k, h₁, s₁, cells, drained⟩

/-! ## Garbage -/

/-- A record that the client cannot reach is on a cycle of references or behind one: each record
that leads to it has a reference, and that is in a slot of another such record. -/
theorem Exact.behind_cycle {P O : Multiset Address} (x : Exact P O h) (hl : h.isLive a)
    (lost : ∀ b ∈ O + P, ¬h.Leads b a) : ∃ b, Relation.TransGen h.Points b b ∧ h.Leads b a := by
  by_contra acyclic
  simp only [not_exists, not_and] at acyclic
  let before := {b : h.records // h.Leads b a}
  let below (b c : before) : Prop := Relation.TransGen h.Points b.1 c.1
  have : IsTrans before below := ⟨fun _ _ _ => .trans⟩
  have : Std.Irrefl below := ⟨fun b cycle => acyclic _ cycle b.2⟩
  obtain ⟨⟨⟨b, hb⟩, leads⟩, -, first⟩ := (Finite.wellFounded_of_trans_of_irrefl below).has_min
    Set.univ ⟨⟨⟨a, mem_records.2 hl⟩, .refl⟩, trivial⟩
  have hb := mem_records.1 hb
  have held : b ∈ h.edges := by
    have count := x.count (cell?_eq_some.2 ⟨hb, rfl⟩)
    have idle := x.idle (cell?_eq_some.2 ⟨hb, rfl⟩)
    have pins := x.pins (cell?_eq_some.2 ⟨hb, rfl⟩)
    have owned : O.count b = 0 := Multiset.count_eq_zero_of_notMem fun ho =>
      lost b (by simp [ho]) leads
    have unpinned : P.count b = 0 := Multiset.count_eq_zero_of_notMem fun hp =>
      lost b (by simp [hp]) leads
    refine Multiset.count_pos.1 (Nat.pos_of_ne_zero fun h0 => idle ?_ ?_)
    · rw [Multiset.count_add, owned, h0] at count
      exact UInt64.toNat_inj.1 count
    · exact UInt16.toNat_inj.1 (pins.trans unpinned)
  obtain ⟨d, c, hd, hbc⟩ := mem_edges.1 held
  have points : h.Points d b := ⟨c, hd, hbc⟩
  exact first ⟨⟨d, mem_records.2 (cell?_eq_some.1 hd).1⟩, .head points leads⟩ trivial
    (.single points)

/-- A heap without cycles of references has no garbage. -/
theorem Exact.unreached_eq_zero {O : Multiset Address} (x : Exact 0 O h)
    (acyclic : ∀ a, ¬Relation.TransGen h.Points a a) {roots : List Address}
    (cover : ∀ a ∈ O, a ∈ roots) : (h.unreached h.live (h.pinned ++ roots)).size = 0 := by
  have : (h.unreached h.live (h.pinned ++ roots)).isEmpty := by
    refine Std.TreeSet.isEmpty_iff_forall_not_mem.2 fun i hi => ?_
    obtain ⟨hl, unled⟩ := mem_unreached.1 (show (⟨i⟩ : Address).index ∈ _ from hi)
    obtain ⟨b, cycle, -⟩ := x.behind_cycle hl fun b hb leads => unled
      ⟨b, by simp [cover b (by simpa using hb)], leads⟩
    exact acyclic b cycle
  simpa [Std.TreeSet.isEmpty_eq_size_eq_zero] using this

end Heap
end GoMachine
