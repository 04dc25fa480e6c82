import GoMachine.Proofs.Heap.Sweep
/-!
# Cascades

Dropping the last reference to a record that nobody has pinned releases it, and drops what stands in
its slots. The records that are released in this way are the least set that contains each unpinned
record all of whose references are dropped or stand in slots of the set. So the order in which
pending references are dropped does not matter.

A turn drops one of the pending references, whichever. `drain` is one way to go through them.

* `Exact.dropOne`: one turn. `Dropped` tells what it can do.
* `Records.Falls.dropped`: no turn leaves a set that is closed under what is pending.
* `Exact.drains`: all turns, in any order.
* `cascades_least`: what `free` and `unpin` release.
-/
namespace GoMachine
namespace Heap

/-! ## Turns -/

/-- Drops one reference, and tells which references come loose with it. -/
def dropOne (h : Heap) (a : Address) : EStateM.Result HeapError Heap (List Address) :=
  if a.isNil then .ok [] h
  else if h.isLive a then
    let count := h.pool.word (a.index + 1)
    if count = 0 then .error (.doubleFree a) h
    else
      let hd := Header.ofWord (h.pool.word a.index)
      let pool := h.pool.setWord (a.index + 1) (count - 1)
      if count = 1 ∧ hd.pins = 0 then
        match pool.deallocate a.index with
        | .ok pool => .ok (h.slots a hd).reverse ⟨pool, h.live.erase a.index⟩
        | .error e => .error e ⟨pool, h.live.erase a.index⟩
      else .ok [] { h with pool }
  else .error (.released a) h

/-- One of the pending references is dropped. -/
inductive Turn : Heap × Multiset Address → Heap × Multiset Address → Prop
  | drop {h h₁ : Heap} {a : Address} {next : List Address} {rest : Multiset Address} :
    h.dropOne a = .ok next h₁ → Turn (h, a ::ₘ rest) (h₁, next + rest)

/-- Pending references are dropped one after another, in any order, until there are none or it
fails. -/
inductive Drains : Heap → Multiset Address → EStateM.Result HeapError Heap Unit → Prop
  | done {h : Heap} : Drains h 0 (.ok () h)
  | drop {h h₁ : Heap} {a : Address} {next : List Address} {rest : Multiset Address}
    {r : EStateM.Result HeapError Heap Unit} : h.dropOne a = .ok next h₁ →
    Drains h₁ (next + rest) r →
    Drains h (a ::ₘ rest) r
  | failed {h h₁ : Heap} {a : Address} {rest : Multiset Address} {e : HeapError} :
    h.dropOne a = .error e h₁ → Drains h (a ::ₘ rest) (.error e h₁)

/-- A way to go through pending references. -/
def Drainer (k : List Address → HeapM Unit) : Prop := ∀ (l : List Address) h, Drains h l (k l h)

variable {P O : Multiset Address} {h h₁ h' : Heap} {a b x : Address} {c : Cell}
    {S T : Finset Address}
  {loose rest : Multiset Address} {next : List Address}

theorem drain_cons {l : List Address} : h.drain (a :: l) = match h.dropOne a with
    | .ok next h₁ => h₁.drain (next ++ l)
    | .error e h₁ => .error e h₁ := by
  rw [drain, dropOne]
  split_ifs with hn hl
  · rfl
  · dsimp only
    split_ifs with h0 last
    · rfl
    · cases (h.pool.setWord (a.index + 1) (h.pool.word (a.index + 1) - 1)).deallocate a.index <;>
        rfl
    · rfl
  · rfl

/-- A reference is dropped, or a record goes away with it. -/
theorem dropOne_live (run : h.dropOne a = .ok next h₁) : (next = [] ∧ h₁.live = h.live) ∨
    (h.isLive a ∧ next = (h.slots a (h.headerAt a)).reverse ∧ h₁.live = h.live.erase a.index) := by
  unfold dropOne at run
  split_ifs at run with hn hl
  · cases run
    exact .inl ⟨rfl, rfl⟩
  · dsimp only at run
    split_ifs at run with h0 last
    · split at run
      · cases run
        exact .inr ⟨hl, rfl, rfl⟩
      · cases run
    · cases run
      exact .inl ⟨rfl, rfl⟩

theorem dropsLeft_perm {live : Std.TreeSet Nat} {l l' : List Address} (p : l.Perm l') :
    dropsLeft live l = dropsLeft live l' := by
  simp [dropsLeft, p.length_eq]

/-- However the pending references are gone through, that comes to an end. -/
theorem turn_wellFounded : WellFounded fun s s' => Turn s' s := by
  refine Subrelation.wf ?_ (measure fun s : Heap × Multiset Address =>
    dropsLeft s.1.live s.2.toList).wf
  rintro _ _ (@⟨h, h₁, a, next, rest, run⟩)
  have before : dropsLeft h.live (a ::ₘ rest).toList = dropsLeft h.live (a :: rest.toList) :=
    dropsLeft_perm (Multiset.coe_eq_coe.1 (by simp [← Multiset.cons_coe]))
  have after : dropsLeft h₁.live (next + rest).toList = dropsLeft h₁.live (next ++ rest.toList) :=
    dropsLeft_perm (Multiset.coe_eq_coe.1 (by simp [← Multiset.coe_add]))
  change dropsLeft h₁.live _ < dropsLeft h.live _
  rw [before, after]
  rcases dropOne_live run with ⟨rfl, live⟩ | ⟨hl, rfl, live⟩
  · rw [live]
    exact dropsLeft_tail
  · rw [live]
    exact dropsLeft_erase hl

/-- `drain` always drops the reference that came last. -/
theorem drainer_drain : Drainer fun l h => h.drain l := by
  intro l h
  obtain ⟨s, hs⟩ : ∃ s : Heap × Multiset Address, s = (h, ↑l) := ⟨_, rfl⟩
  induction s using turn_wellFounded.induction generalizing h l with
  | _ s ih =>
    subst hs
    cases l with
    | nil =>
      dsimp only
      rw [drain]
      exact .done
    | cons a l =>
      dsimp only
      rw [drain_cons, ← Multiset.cons_coe]
      cases run : h.dropOne a with
      | ok next h₁ =>
        have turn : Turn (h, a ::ₘ ↑l) (h₁, next + ↑l) := .drop run
        exact .drop run (ih (h₁, next + l) turn (next ++ l) h₁ (by simp))
      | error e h₁ => exact .failed run

/-! ## One turn -/

/-- What dropping a reference does to a heap whose counts are right. -/
inductive Dropped (h : Heap) : Address → List Address → Heap → Prop
  | nil : Dropped h .nil [] h
  | lower {a : Address} {c : Cell} {h₁ : Heap} : h.cell? a = some c → c.count ≠ 0 →
    ¬(c.count = 1 ∧ c.pins = 0) → Becomes h a (some { c with count := c.count - 1 }) h₁ →
    Dropped h a [] h₁
  | release {a : Address} {c : Cell} {h₁ : Heap} : h.cell? a = some c → c.count = 1 → c.pins = 0 →
    Becomes h a none h₁ → Dropped h a c.children.reverse h₁

theorem Dropped.shrinks (d : Dropped h a next h₁) : Shrinks h h₁ := by
  cases d with
  | nil => exact .refl
  | lower hc _ _ u => exact .put_count hc u
  | release _ _ _ u => exact .release u

/-- A reference that is owned can be dropped. -/
theorem Exact.dropOne (x : Exact P (a ::ₘ O) h) : ∃ next h₁, h.dropOne a = .ok next h₁ ∧
    Dropped h a next h₁ ∧ Exact P (next + O) h₁ ∧ Prunes h h₁ := by
  unfold Heap.dropOne
  split_ifs with hn hl
  · obtain rfl := Address.isNil_iff.1 hn
    exact ⟨_, _, rfl, .nil, x.congr fun b hb => by simp [Multiset.count_cons_of_ne hb], .refl⟩
  · have hc := cell?_eq_some.2 ⟨hl, rfl⟩
    have u := x.sound.put_count hc ((h.cellAt a).count - 1)
    have lowered := x.sound.setCount_prunes (w := (h.cellAt a).count - 1) hl
    have h0 : h.pool.word (a.index + 1) ≠ 0 := x.count_pos (by simp) hc
    dsimp only
    rw [if_neg h0]
    split_ifs with last
    · have hl' : (h.setWord (a.index + 1) ((h.cellAt a).count - 1)).isLive a := hl
      obtain ⟨q, hq, u'⟩ := u.sound.discarded hl'
      have hq' : (h.pool.setWord (a.index + 1)
        (h.pool.word (a.index + 1) - 1)).deallocate a.index = .ok q := hq
      rw [hq']
      refine ⟨_, _, rfl, .release hc last.1 last.2 (u.trans u'), ?_,
        lowered.trans (u.sound.discarded_prunes hl' hq)⟩
      rw [Multiset.coe_reverse]
      exact x.release hc last.1 last.2 (u.trans u')
    · refine ⟨_, _, rfl, .lower hc h0 last u, ?_, lowered⟩
      rw [Multiset.coe_nil, zero_add]
      exact x.lose hc last
  · exact absurd (x.isLive_of_mem (by simp) fun e => hn (Address.isNil_iff.2 e)) hl

/-! ## What is closed under dropping -/

namespace Records

/-- How many slots of a set of records hold an address. -/
def refs (m : Records) (S : Finset Address) (a : Address) : Nat := ∑ b ∈ S, (kids (m b)).count a

/-- A set of unpinned records with each one to which all references are loose or in slots of the
set. -/
structure Falls (m : Records) (loose : Multiset Address) (S : Finset Address) : Prop where
  unpinned : ∀ a ∈ S, ∃ c, m a = some c ∧ c.pins = 0
  closed : ∀ a c, m a = some c → c.pins = 0 → c.count.toNat = loose.count a + m.refs S a → a ∈ S

variable {m : Records} {loose' : Multiset Address}

/-- Only what stands in slots matters. -/
theorem refs_update {o : Option Cell} (same : kids o = kids (m a)) :
    Records.refs (Function.update m a o) S x = m.refs S x := by
  refine Finset.sum_congr rfl fun b _ => ?_
  by_cases hne : b = a
  · rw [hne, Function.update_self, same]
  · rw [Function.update_of_ne hne]

theorem refs_insert (ha : a ∉ S) (hc : m a = some c) :
    m.refs (insert a S) x = c.children.count x + Records.refs (Function.update m a none) S x := by
  rw [refs, Finset.sum_insert ha, hc, kids_some, Multiset.coe_count, refs]
  congr 1
  refine Finset.sum_congr rfl fun b hb => ?_
  rw [Function.update_of_ne]
  rintro rfl
  exact ha hb

namespace Falls

theorem congr (f : m.Falls loose S) (same : ∀ a c, m a = some c → loose'.count a = loose.count a) :
    m.Falls loose' S :=
  ⟨f.unpinned, fun a c hc unpinned total => f.closed a c hc unpinned (by rw [total, same a c hc])⟩

/-- A record has a reference less, and one less is loose. -/
theorem lower (f : m.Falls (a ::ₘ rest) S) (hc : m a = some c) (h0 : c.count ≠ 0) :
    Falls (Function.update m a (some { c with count := c.count - 1 })) rest S := by
  refine ⟨fun b hb => ?_, fun b d hd unpinned total => ?_⟩
  · obtain ⟨d, hd, unpinned⟩ := f.unpinned b hb
    by_cases hne : b = a
    · subst hne
      obtain rfl : c = d := by simpa [hc] using hd
      exact ⟨_, Function.update_self .., unpinned⟩
    · exact ⟨d, by rw [Function.update_of_ne hne, hd], unpinned⟩
  · rw [refs_update (by rw [hc]; rfl)] at total
    by_cases hne : b = a
    · subst hne
      obtain rfl : { c with count := c.count - 1 } = d := by simpa using hd
      refine f.closed b c hc unpinned ?_
      have pred : (c.count - 1).toNat = c.count.toNat - 1 := UInt64.toNat_sub_of_le _ _ (by grind)
      have : c.count.toNat ≠ 0 := fun e => h0 (UInt64.toNat_inj.1 e)
      rw [Multiset.count_cons_self]
      change (c.count - 1).toNat = _ at total
      omega
    · refine f.closed b d (by rwa [Function.update_of_ne hne] at hd) unpinned ?_
      rwa [Multiset.count_cons_of_ne hne]

/-- A record of the set goes away, and what stands in its slots is loose. -/
theorem erase (f : m.Falls loose S) (ha : a ∈ S) (hc : m a = some c) :
    Falls (Function.update m a none) (c.children + loose) (S.erase a) := by
  have refs : ∀ b, m.refs S b = c.children.count b + Records.refs (Function.update m a none)
    (S.erase a) b :=
    fun b => by rw [← refs_insert (Finset.notMem_erase a S) hc, Finset.insert_erase ha]
  refine ⟨fun b hb => ?_, fun b d hd unpinned total => ?_⟩
  · rw [Function.update_of_ne (Finset.ne_of_mem_erase hb)]
    exact f.unpinned b (Finset.mem_of_mem_erase hb)
  · have hne : b ≠ a := by
      rintro rfl
      simp at hd
    refine Finset.mem_erase.2 ⟨hne, f.closed b d (by rwa [Function.update_of_ne hne] at hd) unpinned
      ?_⟩
    rw [total, refs, Multiset.count_add, Multiset.coe_count]
    omega

/-- An unpinned record comes to the set, and what stands in its slots is loose no more. -/
theorem insert (f : Falls (Function.update m a none) (c.children + loose) S) (hc : m a = some c)
    (unpinned : c.pins = 0) : m.Falls loose (insert a S) := by
  have ha : a ∉ S := fun ha => by
    obtain ⟨d, hd, -⟩ := f.unpinned a ha
    simp at hd
  refine ⟨fun b hb => ?_, fun b d hd unpinned total => ?_⟩
  · rcases Finset.mem_insert.1 hb with rfl | here
    · exact ⟨c, hc, unpinned⟩
    · obtain ⟨d, hd, unpinned⟩ := f.unpinned b here
      have hne : b ≠ a := by
        rintro rfl
        exact ha here
      exact ⟨d, by rwa [Function.update_of_ne hne] at hd, unpinned⟩
  · by_cases hne : b = a
    · exact Finset.mem_insert.2 (.inl hne)
    refine Finset.mem_insert_of_mem (f.closed b d (by rwa [Function.update_of_ne hne]) unpinned ?_)
    rw [total, refs_insert ha hc, Multiset.count_add, Multiset.coe_count]
    omega

end Falls
end Records

theorem falls_subset (f : Records.Falls h.cell? loose S) : S ⊆ h.records := fun a ha => by
  obtain ⟨c, hc, -⟩ := f.unpinned a ha
  exact mem_records.2 (cell?_eq_some.1 hc).1

theorem refs_le (sub : S ⊆ h.records) : Records.refs h.cell? S a ≤ h.edges.count a := by
  rw [edges_eq (subset_refl h.records), Multiset.count_sum', Records.refs]
  exact Finset.sum_le_sum_of_subset_of_nonneg sub fun _ _ _ => Nat.zero_le _

/-- In one turn nothing leaves a closed set, and what is left of the set is closed. -/
theorem Dropped.falls (x : Exact P (a ::ₘ (rest + O)) h) (d : Dropped h a next h₁)
    (f : Records.Falls h.cell? (a ::ₘ rest) S) : ∃ T, T ⊆ S ∧
    Records.Falls h₁.cell? (next + rest) T ∧
      h.records \ h₁.records ⊆ S := by
  cases d with
  | nil =>
    refine ⟨S, le_rfl, f.congr fun b c hc => ?_, by simp⟩
    rw [Multiset.count_cons_of_ne (x.sound.ne_nil (cell?_eq_some.1 hc).1), Multiset.coe_nil,
      zero_add]
  | lower hc h0 _ u =>
    refine ⟨S, le_rfl, by simpa [u.cells] using f.lower hc h0,
      fun b hb => absurd ?_ (Finset.mem_sdiff.1 hb).2⟩
    have live := mem_records.1 (Finset.mem_sdiff.1 hb).1
    by_cases hne : b = a
    · rw [mem_records, hne, ← isSome_cell?, u.cell?_self]
      rfl
    · rwa [mem_records, u.isLive_of_ne hne]
  | @release _ c _ hc last unpinned u =>
    -- the one reference to the record is the one that is dropped
    have ha : a ∈ S := by
      have count := x.count hc
      have refs := refs_le (a := a) (falls_subset f)
      rw [last, Multiset.cons_add, Multiset.count_cons_self] at count
      refine f.closed a c hc unpinned ?_
      rw [last, Multiset.count_cons_self]
      simp only [Multiset.count_add, UInt64.toNat_one] at *
      omega
    refine ⟨S.erase a, Finset.erase_subset _ _, ?_, fun b hb => ?_⟩
    · rw [u.cells, Multiset.coe_reverse]
      refine (f.erase ha hc).congr fun b d hd => ?_
      have hne : b ≠ a := by
        rintro rfl
        simp at hd
      simp only [Multiset.count_add, Multiset.count_cons_of_ne hne]
    · obtain ⟨live, dead⟩ := Finset.mem_sdiff.1 hb
      by_cases hne : b = a
      · exact hne ▸ ha
      · rw [mem_records] at live dead
        exact absurd (by rwa [u.isLive_of_ne hne]) dead

/-! ## All turns -/

/-- What a cascade makes of a heap. The released records are the least set that is closed under what
is loose, going by what is noted in `m`. -/
structure Fell (m : Records) (loose : Multiset Address) (h h' : Heap) : Prop where
  fewer : h'.records ⊆ h.records
  least : IsLeast {S | m.Falls loose S} (h.records \ h'.records)
  /-- What is left is as it was, but for the references that are dropped. -/
  survivors : ∀ a c', h'.cell? a = some c' → ∃ c, m a = some c ∧ c' = { c with count := c'.count } ∧
    c.count.toNat = c'.count.toNat + loose.count a + m.refs (h.records \ h'.records) a
  words : h'.freeWords = h.freeWords + ∑ a ∈ h.records \ h'.records,
  (h.pool.blockCapacity a.index + 1)

/-- What two cascades leave is the same. -/
theorem Fell.cells_eq {m : Records} {h'' : Heap} (f : Fell m loose h h') (f' : Fell m loose h h'') :
    h''.cell? = h'.cell? := by
  have gone := f'.least.unique f.least
  have records : h''.records = h'.records := by
    rw [← Finset.sdiff_sdiff_eq_self f'.fewer, gone, Finset.sdiff_sdiff_eq_self f.fewer]
  funext a
  have same : (h''.cell? a).isSome = (h'.cell? a).isSome := by
    rw [isSome_cell?, isSome_cell?, Bool.eq_iff_iff, ← mem_records, ← mem_records, records]
  cases hc : h'.cell? a with
  | none => simpa [hc] using same
  | some c =>
    obtain ⟨c', hc'⟩ := Option.isSome_iff_exists.1 (same.trans (by simp [hc]))
    obtain ⟨d, hd, e, count⟩ := f.survivors a c hc
    obtain ⟨d', hd', e', count'⟩ := f'.survivors a c' hc'
    obtain rfl : d' = d := by simpa [hd] using hd'.symm
    have : c'.count = c.count := UInt64.toNat_inj.1 (by
      rw [gone] at count'
      omega)
    rw [hc', e', e, this]

/-- What is pending in a heap whose counts are right is dropped, in any order, and nothing leaves a
closed set. -/
theorem Exact.drained {r : EStateM.Result HeapError Heap Unit} (x : Exact P (loose + O) h)
    (d : Drains h loose r) : ∃ h', r = .ok () h' ∧ Exact P O h' ∧ Shrinks h h' ∧ Prunes h h' ∧
      ∀ S, Records.Falls h.cell? loose S → h.records \ h'.records ⊆ S := by
  induction d with
  | done => exact ⟨_, rfl, by simpa using x, .refl, .refl, by simp⟩
  | @drop h h₁ a next rest r run _ ih =>
    rw [Multiset.cons_add] at x
    obtain ⟨_, _, run', turn, x₁, prunes⟩ := x.dropOne
    rw [run] at run'
    cases run'
    obtain ⟨h', e, x', shrinks, prunes', inside⟩ := ih (by rwa [add_assoc])
    refine ⟨h', e, x', turn.shrinks.trans shrinks, prunes.trans prunes', fun S f => ?_⟩
    obtain ⟨T, sub, f', gone⟩ := turn.falls x f
    intro b hb
    obtain ⟨before, after⟩ := Finset.mem_sdiff.1 hb
    by_cases hb : b ∈ h₁.records
    · exact sub (inside T f' (Finset.mem_sdiff.2 ⟨hb, after⟩))
    · exact gone (Finset.mem_sdiff.2 ⟨before, hb⟩)
  | @failed h h₁ a rest e run =>
    rw [Multiset.cons_add] at x
    obtain ⟨_, _, run', -⟩ := x.dropOne
    rw [run] at run'
    cases run'

/-- Pending references fell a closed set, in whatever order they are dropped. -/
theorem Exact.drains {r : EStateM.Result HeapError Heap Unit} (x : Exact P (loose + O) h)
    (d : Drains h loose r) : ∃ h', r = .ok () h' ∧ h'.Sound ∧ Prunes h h' ∧
    Fell h.cell? loose h h' := by
  obtain ⟨h', e, x', shrinks, prunes, inside⟩ := x.drained d
  have fewer : h'.records ⊆ h.records := by
    intro a ha
    obtain ⟨c, hc, -⟩ := shrinks a _ (cell?_eq_some.2 ⟨mem_records.1 ha, rfl⟩)
    exact mem_records.2 (cell?_eq_some.1 hc).1
  have refs : ∀ a, Records.refs h.cell? (h.records \ h'.records) a + h'.edges.count
    a = h.edges.count a := by
    intro a
    rw [shrinks.edges, Multiset.count_add, Multiset.count_sum', Records.refs]
    congr 1
    refine Finset.sum_congr rfl fun b hb => ?_
    rw [cell?_eq_some.2 ⟨mem_records.1 (Finset.mem_sdiff.1 hb).1, rfl⟩, kids_some]
  have survivors : ∀ a c', h'.cell? a = some c' → ∃ c, h.cell? a = some c ∧
      c' = { c with count := c'.count } ∧ c.count.toNat =
        c'.count.toNat + loose.count a + Records.refs h.cell? (h.records \ h'.records) a := by
    intro a c' hc'
    obtain ⟨c, hc, e⟩ := shrinks a c' hc'
    have := refs a
    refine ⟨c, hc, e, ?_⟩
    rw [x.count hc, x'.count hc']
    simp only [Multiset.count_add]
    omega
  refine ⟨h', e, x'.sound, prunes, fewer, ⟨⟨fun a ha => ?_, fun a c hc unpinned total => ?_⟩,
    inside⟩,
    survivors, prunes.freeWords x.sound x'.sound⟩
  · obtain ⟨live, dead⟩ := Finset.mem_sdiff.1 ha
    have hc := cell?_eq_some.2 ⟨mem_records.1 live, rfl⟩
    refine ⟨_, hc, UInt16.toNat_inj.1
      ((x.pins hc).trans (Multiset.count_eq_zero_of_notMem fun ha => ?_))⟩
    have := (x'.closed (Multiset.mem_add.2 (.inr ha))).resolve_left
      (x.sound.ne_nil (mem_records.1 live))
    exact dead (mem_records.2 this)
  · by_contra kept
    have live : h'.isLive a := by
      rw [Finset.mem_sdiff, not_and, not_not, mem_records, mem_records] at kept
      exact kept (cell?_eq_some.1 hc).1
    obtain ⟨d, hd, e, count⟩ := survivors a _ (cell?_eq_some.2 ⟨live, rfl⟩)
    obtain rfl : d = c := by simpa [hc] using hd.symm
    refine x'.idle (cell?_eq_some.2 ⟨live, rfl⟩) (UInt64.toNat_inj.1 ?_) ?_
    · simp only [UInt64.toNat_zero]
      omega
    · rw [e]
      exact unpinned

/-! ## Releasing -/

/-- An action goes well, and what it makes of the heap is a cascade. With another way to drop
pending references it does the same to the records and to the free blocks. -/
structure Cascades (m : Records) (loose : Multiset Address) (act : (List Address → HeapM Unit) →
    HeapM Unit)
    (h h' : Heap) : Prop where
  fell : Fell m loose h h'
  anyOrder : ∀ k, Drainer k → ∃ h'', act k h = .ok () h'' ∧ Fell m loose h h'' ∧
  h''.cell? = h'.cell? ∧
    (h.pool.Joined → h''.pool.Alike h'.pool)

/-- Whatever the order, the outcome is a cascade from the same heap. -/
theorem Cascades.of_runs {m : Records} (act : (List Address → HeapM Unit) → HeapM Unit)
    (runs : ∀ k, Drainer k → ∃ h', act k h = .ok () h' ∧ h'.Sound ∧ Prunes h h' ∧
    Fell m loose h h') :
    ∃ h', act (fun l h => h.drain l) h = .ok () h' ∧ Cascades m loose act h h' := by
  obtain ⟨h', run, sound, prunes, fell⟩ := runs _ drainer_drain
  refine ⟨h', run, fell, fun k hk => ?_⟩
  obtain ⟨h'', run', sound', prunes', fell'⟩ := runs k hk
  have cells := fell.cells_eq fell'
  refine ⟨h'', run', fell', cells, fun joined =>
    prunes.alike prunes' sound sound' (fun a => ?_) joined⟩
  rw [← isSome_cell?, ← isSome_cell?, cells]

/-- A record without references is in each set that is closed when it is unpinned. -/
theorem Exact.mem_of_idle (x : Exact P O h) (hc : h.cell? a = some c) (idle : c.count = 0)
    (f : Records.Falls (Function.update h.cell? a (some { c with pins := 0 })) 0 S) : a ∈ S := by
  have sub : S ⊆ h.records := fun b hb => by
    obtain ⟨d, hd, -⟩ := f.unpinned b hb
    by_cases hne : b = a
    · exact hne ▸ mem_records.2 (cell?_eq_some.1 hc).1
    · rw [Function.update_of_ne hne] at hd
      exact mem_records.2 (cell?_eq_some.1 hd).1
  have count := x.count hc
  have refs := refs_le (a := a) sub
  rw [idle, UInt64.toNat_zero, Multiset.count_add] at count
  refine f.closed a _ (Function.update_self ..) rfl ?_
  rw [Records.refs_update (by rw [hc]; rfl)]
  simp only [idle, UInt64.toNat_zero, Multiset.count_zero]
  omega

/-- The last pin of a record without references is removed: the record falls with what falls after
it. -/
theorem Exact.unpin_falls {k : List Address → HeapM Unit} (x : Exact P O h)
    (hc : h.cell? a = some c)
    (last : c.pins = 1) (idle : c.count = 0) (hk : Drainer k) : ∃ h',
    HeapM.unpinBy k a h = .ok () h' ∧
      h'.Sound ∧ Prunes h h' ∧
      Fell (Function.update h.cell? a (some { c with pins := 0 })) 0 h h' := by
  obtain ⟨h₁, run, u, x₁, prunes₁⟩ := x.unpinBy_last hc last idle
  obtain ⟨h', run', sound, prunes, fell⟩ := x₁.drains (hk _ h₁)
  rw [Multiset.coe_reverse] at fell
  have here : Function.update h.cell? a (some { c with pins := 0 }) a = some { c with pins := 0 } :=
    Function.update_self ..
  have cells : h₁.cell? = Function.update
    (Function.update h.cell? a (some { c with pins := 0 })) a none := by
    rw [u.cells, Function.update_idem]
  rw [cells] at fell
  have dead : a ∉ h₁.records := fun ha => by
    rw [mem_records, ← isSome_cell?, u.cell?_self] at ha
    cases ha
  have records : h.records = insert a h₁.records := by
    ext b
    by_cases hne : b = a
    · simp [hne, (cell?_eq_some.1 hc).1]
    · simp [hne, u.isLive_of_ne hne]
  have gone : h.records \ h'.records = insert a (h₁.records \ h'.records) := by
    rw [records, Finset.insert_sdiff_of_notMem _ fun ha => dead (fell.fewer ha)]
  have outside : a ∉ h₁.records \ h'.records := fun ha => dead (Finset.mem_sdiff.1 ha).1
  have closed := @Records.Falls.insert _ _ _ 0 _ (by simpa using fell.least.1) here rfl
  refine ⟨h', (run k).trans run', sound, prunes₁.trans prunes, ?_, ⟨gone ▸ closed, fun S f => ?_⟩,
    ?_,
    (prunes₁.trans prunes).freeWords x.sound sound⟩
  · rw [records]
    exact fell.fewer.trans (Finset.subset_insert _ _)
  · have ha := x.mem_of_idle hc idle f
    rw [gone]
    refine Finset.insert_subset ha ((fell.least.2 ?_).trans (Finset.erase_subset a S))
    simpa using f.erase ha here
  · intro b c' hb
    obtain ⟨d, hd, e, count⟩ := fell.survivors b c' hb
    have hne : b ≠ a := by
      rintro rfl
      simp at hd
    rw [Function.update_of_ne hne] at hd
    refine ⟨d, hd, e, ?_⟩
    rw [gone, Records.refs_insert outside here, count, Multiset.coe_count]
    simp only [Multiset.count_zero]
    omega

/-- What is released in a heap whose counts are right is the least fixed point: when an owned
reference is given up, and when the last pin of a record without references is removed. -/
theorem cascades_least (x : Exact P O h) :
    (∀ a ∈ O, ∃ h', HeapM.free a h = .ok () h' ∧ Cascades h.cell? {a} (fun k => k [a]) h h') ∧
    (∀ a c, h.cell? a = some c → c.pins = 1 → c.count = 0 → ∃ h', HeapM.unpin a h = .ok () h' ∧
      h'.isLive a = false ∧
      Cascades (Function.update h.cell? a (some { c with pins := 0 })) 0 (HeapM.unpinBy · a) h h') ∧
    WellFounded fun s s' : Heap × Multiset Address => Turn s' s := by
  refine ⟨fun a ha => ?_, fun a c hc last idle => ?_, turn_wellFounded⟩
  · obtain ⟨O', rfl⟩ := Multiset.exists_cons_of_mem ha
    rw [← Multiset.singleton_add] at x
    exact Cascades.of_runs (fun k => k [a]) fun k hk => x.drains (hk [a] h)
  · obtain ⟨h', run, cascades⟩ := Cascades.of_runs (HeapM.unpinBy · a) fun k hk =>
      x.unpin_falls hc last idle hk
    refine ⟨h', run, ?_, cascades⟩
    rw [Bool.eq_false_iff, ne_eq, ← mem_records]
    exact (Finset.mem_sdiff.1 (x.mem_of_idle hc idle cascades.fell.least.1)).2

/-- A client gives up a list that holds a number which the client also owns. -/
theorem cascades_from_list : ∃ (k : Client) (a b : Address), k.Reached ∧ k.owned = {b, a} ∧
    a ≠ .nil ∧
    k.heap.children b = .ok [a, .nil] ∧ ∃ h', HeapM.free b k.heap = .ok () h' ∧
      Cascades k.heap.cell? {b} (fun drop => drop [b]) k.heap h' := by
  obtain ⟨k, a, b, reached, owned, there, linked⟩ := Client.linked_client
  have free := (cascades_least reached.exact).1 b (by simp [owned])
  exact ⟨k, a, b, reached, owned, there, linked, free⟩

end Heap
end GoMachine
