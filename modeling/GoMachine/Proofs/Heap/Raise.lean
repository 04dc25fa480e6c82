import Mathlib.Algebra.Order.Field.Basic
import Mathlib.Algebra.Order.Field.Rat
import GoMachine.Proofs.Heap.Arises
import GoMachine.Proofs.Heap.Cascade
import GoMachine.Proofs.Heap.Facts
/-!
# What is built on a heap

A value is built of new records on top of those that are there. `Raised P B h₀ ρ n O h` says that
`h` is the heap `h₀`, of a client that owns `B`, with new records on top: the old ones are as they
were but for the references to them, and the new ones have ranks by which no new record refers to
one of its own rank or of a higher one. The builder owns `O` besides. When it has dropped all of
that, the new records are gone, since those left would be on a cycle: what remains is `h₀`, and its
free blocks are free again.

Ranks are rational, so that there is room for a record between any two.

* `Raised.free`, `Raised.allocate`, `Raised.setChildOwned`: the primitives.
* `Raised.same`: a builder that owns nothing has left nothing behind.
* `Restores`: a computation that drops all it has built when it fails.
-/
namespace GoMachine

/-- A fault of someone who does not stick to the rules of the heap. -/
def Fault.isProtocol : Fault → Bool
  | .heap (.outOfMemory _ _) | .heap (.recordTooLarge _ _) => false
  | .heap _ => true
  | _ => false

namespace Heap

variable {P B O : Multiset Address} {h₀ h h' : Heap} {ρ ρ' : Address → ℚ} {n m : Nat}
    {a b : Address}
  {c : Cell} {q r : ℚ} {t : Tag} {i : Nat} {w : UInt64}

/-! ## Blocks that stay -/

/-- All records are still there, each in its block. -/
structure Grown (h₀ h : Heap) : Prop where
  log : h.pool.maxLog = h₀.pool.maxLog
  blocks : ∀ i ∈ h₀.live, i ∈ h.live ∧ h.pool.block i = h₀.pool.block i
  joined : h₀.pool.Joined → h.pool.Joined

namespace Grown

theorem refl : Grown h h := ⟨rfl, fun _ hi => ⟨hi, rfl⟩, id⟩

/-- Records are changed, or others are taken off. -/
theorem prunes (g : Grown h₀ h) (k : Prunes h h')
    (cells : ∀ {a c}, h₀.cell? a = some c → ∃ w, h'.cell? a = some { c with count := w }) :
    Grown h₀ h' := by
  refine ⟨k.log.trans g.log, fun i hi => ?_, k.joined ∘ g.joined⟩
  obtain ⟨w, hc⟩ := cells (cell?_eq_some.2 ⟨isLive_iff (a := ⟨i⟩) |>.2 hi, rfl⟩)
  have kept : i ∈ h'.live := isLive_iff.1 (cell?_eq_some.1 hc).1
  exact ⟨kept, (k.blocks i kept).2.trans (g.blocks i hi).2⟩

/-- A record comes to the heap. -/
theorem allocate {fields children : Nat} (g : Grown h₀ h) (s : h.Sound)
    (run : HeapM.allocate t fields children h = .ok a h') : Grown h₀ h' := by
  have joined : h.pool.Joined → h'.pool.Joined := fun joined => by
    rcases @HeapM.allocate_tidy t fields children h ⟨s, joined⟩ with
      ⟨_, _, run', d⟩ | ⟨_, _, run', -⟩ <;> rw [run] at run' <;> cases run'
    exact d.joined
  unfold HeapM.allocate at run
  split_ifs at run
  rcases hq : h.pool.allocate (2 + fields + children) with _ | ⟨k, p⟩ <;> simp only [hq] at run
  · cases run
  simp only [EStateM.Result.ok.injEq] at run
  obtain ⟨-, rfl⟩ := run
  obtain ⟨dead, serves, log, room, same⟩ := s.serves.allocate hq
  have hk : k ∈ insert k {i | i ∈ h.live} := .inl rfl
  let hd : Header := ⟨t.number.toUInt16, fields.toUInt16, children.toUInt16, 0⟩
  have hdr := serves.blockCapacity_setWord hk le_rfl (by omega) hd.toWord hk
  have served := serves.setWord hk le_rfl (by omega) hd.toWord
  have cnt := served.blockCapacity_setWord hk (Nat.le_succ k) (by omega) 1 hk
  obtain ⟨p', e, -, -, log', words⟩ := (served.setWord hk (Nat.le_succ k) (by omega) 1).clear hk
    (show k ≤ k + 2 by omega) (fields + children) (by omega)
  rw [e] at joined ⊢
  refine ⟨(log'.trans log).trans g.log, fun i hi => ?_, joined ∘ g.joined⟩
  obtain ⟨hi, block⟩ := g.blocks i hi
  have hne : k ≠ i := fun e => dead (e ▸ hi)
  refine ⟨Std.TreeSet.mem_insert.2 (.inr hi), (Pool.block_congr ?_ (log'.trans log)).trans block⟩
  -- the word in front of a block in use is not one of the new block
  have before := s.serves.bounds hi
  have far := serves.apart hk (.inr hi) hne
  have front := same i hi (i - 1) (by omega) (by omega)
  rw [words, if_neg (by omega), Pool.word_setWord_of_ne (by omega),
    Pool.word_setWord_of_ne (by omega), front]

end Grown
/-! ## New records on old ones -/

/-- An address that a new record of the rank may refer to. -/
def Under (h₀ : Heap) (ρ : Address → ℚ) (q : ℚ) (b : Address) : Prop := b = .nil ∨ h₀.isLive b ∨
    ρ b < q

/-- The old records are as they were but for the references to them, and new ones have ranks. -/
structure Rests (P B : Multiset Address) (h₀ : Heap) (ρ : Address → ℚ) (h : Heap) : Prop where
  base : Exact P B h₀
  cells : ∀ {a c}, h₀.cell? a = some c → ∃ w, h.cell? a = some { c with count := w }
  ranked : ∀ {a c b}, h.cell? a = some c → h₀.isLive a = false → b ∈ c.children → Under h₀ ρ (ρ a) b
  grown : Grown h₀ h

/-- The heap `h₀` with new records on top, of which the builder owns `O`, with room for `n` more
references to each record. -/
structure Raised (P B : Multiset Address) (h₀ : Heap) (ρ : Address → ℚ) (n : Nat)
    (O : Multiset Address)
    (h : Heap) : Prop extends Rests P B h₀ ρ h where
  owns : Owns P n (O + B) h

theorem Under.mono (u : Under h₀ ρ q b) (le : q ≤ r) : Under h₀ ρ r b :=
  u.imp_right (.imp_right fun lt => lt.trans_le le)

/-- The new records. -/
noncomputable def fresh (h₀ h : Heap) : Finset Address := h.records.filter fun a =>
    h₀.isLive a = false

theorem mem_fresh : a ∈ fresh h₀ h ↔ h.isLive a ∧ h₀.isLive a = false := by simp [fresh]

/-- Records of the rank `q` or a higher one stay, and keep their ranks. -/
def Above (q : ℚ) (ρ : Address → ℚ) (h : Heap) (ρ' : Address → ℚ) (h' : Heap) : Prop :=
  ∀ b, h.isLive b → q ≤ ρ b → h'.isLive b ∧ ρ' b = ρ b

namespace Above

variable {ρ₁ : Address → ℚ} {h₁ : Heap}

theorem refl : Above q ρ h ρ h := fun _ live _ => ⟨live, rfl⟩

theorem trans (k : Above q ρ h ρ₁ h₁) (k' : Above q ρ₁ h₁ ρ' h') : Above q ρ h ρ' h' := by
  intro b live le
  obtain ⟨live₁, same₁⟩ := k b live le
  obtain ⟨live', same'⟩ := k' b live₁ (same₁ ▸ le)
  exact ⟨live', same'.trans same₁⟩

theorem mono (k : Above q ρ h ρ' h') (le : q ≤ r) : Above r ρ h ρ' h' := fun b live le' =>
    k b live (le.trans le')

end Above

namespace Rests

theorem refl (x : Exact P B h₀) : Rests P B h₀ ρ h₀ := by
  refine ⟨x, fun {_ c} hc => ⟨c.count, hc⟩, fun hc dead => ?_, .refl⟩
  rw [(cell?_eq_some.1 hc).1] at dead
  cases dead

theorem live (g : Rests P B h₀ ρ h) (hl : h₀.isLive a) : h.isLive a := by
  obtain ⟨w, hc⟩ := g.cells (cell?_eq_some.2 ⟨hl, rfl⟩)
  exact (cell?_eq_some.1 hc).1

/-- Old records refer to old ones. -/
theorem old_child (g : Rests P B h₀ ρ h) (hl : h₀.isLive a) (hc : h.cell? a = some c)
    (hb : b ∈ c.children) :
    b = .nil ∨ h₀.isLive b := by
  have hc₀ := cell?_eq_some.2 ⟨hl, rfl⟩
  obtain ⟨w, hc'⟩ := g.cells hc₀
  obtain rfl := Option.some_inj.1 (hc'.symm.trans hc)
  exact g.base.closed (by simp [mem_edges.2 ⟨a, _, hc₀, hb⟩])

/-- What stands in slots of new records comes to what stands in slots of old ones. -/
theorem edges (g : Rests P B h₀ ρ h) :
    h.edges.count a = h₀.edges.count a + Records.refs h.cell? (fresh h₀ h) a := by
  have sub : h₀.records ⊆ h.records := fun b hb => mem_records.2 (g.live (mem_records.1 hb))
  have rest : h.records \ h₀.records = fresh h₀ h := by
    ext b
    simp [fresh]
  rw [edges_eq (subset_refl h.records), edges_eq (subset_refl h₀.records), Multiset.count_sum',
    Multiset.count_sum',
    ← Finset.sum_sdiff sub, rest, add_comm]
  congr 1
  refine Finset.sum_congr rfl fun b hb => ?_
  have hc := cell?_eq_some.2 ⟨mem_records.1 hb, rfl⟩
  obtain ⟨w, hc'⟩ := g.cells hc
  rw [hc, hc', kids_some, kids_some]

/-- No old record goes away with a reference that the builder drops, nor any of a higher rank. -/
theorem falls (g : Rests P B h₀ ρ h) (x : Exact P (a ::ₘ (O + B)) h) (under : Under h₀ ρ r a) :
    Records.Falls h.cell? {a} ((fresh h₀ h).filter fun b => ρ b < r) := by
  have fewer {b : Address} : Records.refs h.cell? ((fresh h₀ h).filter fun b => ρ b < r) b ≤
      Records.refs h.cell? (fresh h₀ h) b :=
    Finset.sum_le_sum_of_subset_of_nonneg (Finset.filter_subset _ _) fun _ _ _ => Nat.zero_le _
  refine ⟨fun b hb => ?_, fun b c hc unpinned total => ?_⟩
  · obtain ⟨live, dead⟩ := mem_fresh.1 (Finset.mem_filter.1 hb).1
    have hc := cell?_eq_some.2 ⟨live, rfl⟩
    refine ⟨_, hc, UInt16.toNat_inj.1
      ((x.pins hc).trans (Multiset.count_eq_zero_of_notMem fun hb => ?_))⟩
    have := (g.base.closed (a := b) (by simp [hb])).resolve_left (x.sound.ne_nil live)
    simp [this] at dead
  have live := (cell?_eq_some.1 hc).1
  by_cases hl : h₀.isLive b
  · have hc₀ := cell?_eq_some.2 ⟨hl, rfl⟩
    obtain ⟨w, hc'⟩ := g.cells hc₀
    obtain rfl := Option.some_inj.1 (hc'.symm.trans hc)
    -- all references to the old record would come from new ones
    have now := x.count hc
    have before := g.base.count hc₀
    rw [Multiset.count_add, g.edges, ← Multiset.singleton_add, Multiset.count_add,
      Multiset.count_add] at now
    rw [Multiset.count_add] at before
    have := fewer (b := b)
    exfalso
    refine g.base.idle hc₀ (UInt64.toNat_inj.1 ?_) unpinned
    simp only [UInt64.toNat_zero]
    omega
  rw [Bool.not_eq_true] at hl
  refine Finset.mem_filter.2 ⟨mem_fresh.2 ⟨live, hl⟩, ?_⟩
  by_contra high
  have low : ∀ {q}, Under h₀ ρ q b → ρ b < q := fun u =>
    (u.resolve_left (x.sound.ne_nil live)).resolve_left (by simp [hl])
  -- neither what is dropped nor anything below the rank refers to the record
  have other : b ≠ a := by
    rintro rfl
    exact high (low under)
  have unheld : Records.refs h.cell? ((fresh h₀ h).filter fun b => ρ b < r) b = 0 := by
    refine Finset.sum_eq_zero fun d hd => Multiset.count_eq_zero_of_notMem fun hbd => ?_
    obtain ⟨hd, lt⟩ := Finset.mem_filter.1 hd
    have hc := cell?_eq_some.2 ⟨(mem_fresh.1 hd).1, rfl⟩
    rw [hc, kids_some, Multiset.mem_coe] at hbd
    exact high ((low (g.ranked hc (mem_fresh.1 hd).2 hbd)).trans lt)
  rw [unheld, Multiset.count_singleton, if_neg other] at total
  exact x.idle hc (UInt64.toNat_inj.1 total) unpinned

/-- A reference is dropped, and no old record goes away with it, nor any of a higher rank. -/
theorem free (g : Rests P B h₀ ρ h) (x : Exact P (a ::ₘ (O + B)) h) (spare : Spare n (O + B)) :
    Gives (HeapM.free a) h fun _ h' => Raised P B h₀ ρ n O h' ∧ Shrinks h h' ∧
      ∀ r, Under h₀ ρ r a → Above r ρ h ρ h' := by
  have x₁ := x
  rw [← Multiset.singleton_add] at x₁
  obtain ⟨h', run, x', shrinks, prunes, inside⟩ := x₁.drained (drainer_drain [a] h)
  have kept : ∀ r, Under h₀ ρ r a → ∀ b, h.isLive b → (h₀.isLive b ∨ r ≤ ρ b) → h'.isLive b := by
    intro r under b hb old
    by_contra gone
    have fell := inside _ (g.falls x under)
      (Finset.mem_sdiff.2 ⟨mem_records.2 hb, fun k => gone (mem_records.1 k)⟩)
    rw [Finset.mem_filter, mem_fresh] at fell
    rcases old with old | high
    · rw [old] at fell
      cases fell.1.2
    · exact absurd fell.2 (not_lt.2 high)
  have under : Under h₀ ρ (ρ a + 1) a := .inr (.inr (lt_add_one _))
  have cells : ∀ {b c}, h₀.cell? b = some c → ∃ w, h'.cell? b = some { c with count := w } :=
    fun {b c} hb => by
    obtain ⟨w, hc⟩ := g.cells hb
    have hl := (cell?_eq_some.1 hb).1
    have hc' := cell?_eq_some.2 ⟨kept _ under b (g.live hl) (.inl hl), rfl⟩
    obtain ⟨d, hd, e⟩ := shrinks b _ hc'
    obtain rfl := Option.some_inj.1 (hd.symm.trans hc)
    exact ⟨_, hc'.trans (congrArg some e)⟩
  refine ⟨(), h', run, ⟨⟨g.base, cells, fun {b c d} hb dead hd => ?_, g.grown.prunes prunes cells⟩,
    x', spare⟩,
    shrinks, fun r under b live high => ⟨kept r under b live (.inr high), rfl⟩⟩
  obtain ⟨c', hc', e⟩ := shrinks b c hb
  rw [e] at hd
  exact g.ranked hc' dead hd

/-- The count of a record changes. -/
theorem put_count {w : UInt64} (g : Rests P B h₀ ρ h) (hc : h.cell? a = some c)
    (u : Becomes h a (some { c with count := w }) h') (prunes : Prunes h h') :
    Rests P B h₀ ρ h' := by
  have cells : ∀ {b d}, h₀.cell? b = some d → ∃ w, h'.cell? b = some { d with count := w } :=
    fun {b d} hb => by
    obtain ⟨w, hd⟩ := g.cells hb
    by_cases hba : b = a
    · subst hba
      obtain rfl := Option.some_inj.1 (hd.symm.trans hc)
      exact ⟨_, u.cell?_self⟩
    · exact ⟨w, by rw [u.cell?_of_ne hba, hd]⟩
  refine ⟨g.base, cells, fun {b d x} hb dead hx => ?_, g.grown.prunes prunes cells⟩
  by_cases hba : b = a
  · subst hba
    rw [u.cell?_self, Option.some_inj] at hb
    subst hb
    exact g.ranked hc dead hx
  · rw [u.cell?_of_ne hba] at hb
    exact g.ranked hb dead hx

/-- A new record is replaced by another of the same rank. -/
theorem replace {c' : Cell} (g : Rests P B h₀ ρ h) (dead : h₀.isLive a = false)
    (u : Becomes h a (some c') h') (prunes : Prunes h h')
    (ranked : ∀ b ∈ c'.children, Under h₀ ρ (ρ a) b) :
    Rests P B h₀ ρ h' := by
  have cells : ∀ {b d}, h₀.cell? b = some d → ∃ w, h'.cell? b = some { d with count := w } :=
    fun {b d} hb => by
    obtain ⟨w, hd⟩ := g.cells hb
    refine ⟨w, ?_⟩
    rw [u.cell?_of_ne, hd]
    rintro rfl
    rw [(cell?_eq_some.1 hb).1] at dead
    cases dead
  refine ⟨g.base, cells, fun {b d x} hb dead' hx => ?_, g.grown.prunes prunes cells⟩
  by_cases hba : b = a
  · subst hba
    rw [u.cell?_self, Option.some_inj] at hb
    subst hb
    exact ranked x hx
  · rw [u.cell?_of_ne hba] at hb
    exact g.ranked hb dead' hx

end Rests

namespace Raised

/-- Nothing has been built yet. -/
theorem start (own : Owns P n B h₀) : Raised P B h₀ ρ n 0 h₀ := ⟨.refl own.exact, by rwa [zero_add]⟩

theorem sound (g : Raised P B h₀ ρ n O h) : h.Sound := g.owns.exact.sound

theorem weaken (g : Raised P B h₀ ρ n O h) (le : m ≤ n) : Raised P B h₀ ρ m O h :=
    ⟨g.toRests, g.owns.weaken le⟩

/-- There is as much room as there was when the same was owned before. -/
theorem restore (g : Raised P B h₀ ρ n O h) (g' : Raised P B h₀ ρ' m O h') :
    Raised P B h₀ ρ' n O h' :=
  ⟨g'.toRests, g'.owns.tighten g.owns.spare⟩

theorem swap (g : Raised P B h₀ ρ n (a ::ₘ b ::ₘ O) h) : Raised P B h₀ ρ n (b ::ₘ a ::ₘ O) h := by
  rwa [Multiset.cons_swap]

theorem cons_nil : Raised P B h₀ ρ n (.nil ::ₘ O) h ↔ Raised P B h₀ ρ n O h :=
  ⟨fun g => ⟨g.toRests, Owns.cons_nil.1 (Multiset.cons_add .. ▸ g.owns)⟩,
    fun g => ⟨g.toRests, (Multiset.cons_add ..).symm ▸ Owns.cons_nil.2 g.owns⟩⟩

theorem isLive_of_mem (g : Raised P B h₀ ρ n O h) (ha : a ∈ O) (hn : a ≠ .nil) : h.isLive a :=
  g.owns.exact.isLive_of_mem (Multiset.mem_add.2 (.inl ha)) hn

/-! ### The primitives -/

theorem free (g : Raised P B h₀ ρ n (a ::ₘ O) h) : Gives (HeapM.free a) h fun _ h' =>
    Raised P B h₀ ρ n O h' ∧
    ∀ r, Under h₀ ρ r a → Above r ρ h ρ h' := by
  have own := g.owns
  rw [Multiset.cons_add] at own
  exact (g.toRests.free own.exact (own.spare.anti (Multiset.le_cons_self _ _))).mono
    fun _ _ ⟨g', _, above⟩ => ⟨g', above⟩

/-- A new record, of any rank. -/
theorem allocate {fields children : Nat} (g : Raised P B h₀ ρ n O h) (q : ℚ) :
    Yields (HeapM.allocate t fields children) h fun a h' => a ≠ .nil ∧ h.isLive a = false ∧
    h₀.isLive a = false ∧
      (∀ b, h.isLive b → h'.isLive b) ∧ Raised P B h₀ (Function.update ρ a q) n (a ::ₘ O) h' := by
  intro a h' run
  obtain ⟨dead, hne, u⟩ := g.sound.allocated run
  have dead₀ : h₀.isLive a = false := by
    by_contra hl
    rw [g.live (Bool.not_eq_false _ ▸ hl)] at dead
    cases dead
  refine ⟨hne, dead, dead₀, fun b hb => ?_, ⟨g.base, fun {b c} hb => ?_, fun {b c d} hb dead' hd =>
    ?_,
    g.grown.allocate g.sound run⟩, (Multiset.cons_add ..).symm ▸ g.owns.allocate.yields a h' run⟩
  · rwa [u.isLive_of_ne]
    rintro rfl
    rw [hb] at dead
    cases dead
  · obtain ⟨w, hc⟩ := g.cells hb
    refine ⟨w, ?_⟩
    rw [u.cell?_of_ne, hc]
    rintro rfl
    rw [(cell?_eq_some.1 hb).1] at dead₀
    cases dead₀
  · by_cases hba : b = a
    · subst hba
      rw [u.cell?_self, Option.some_inj] at hb
      subst hb
      exact .inl (List.eq_of_mem_replicate hd)
    · rw [u.cell?_of_ne hba] at hb
      have hda : d = .nil ∨ d ≠ a := by
        refine (g.owns.exact.closed (a := d) (by simp [mem_edges.2 ⟨b, c, hb, hd⟩])).imp_right ?_
        rintro hl rfl
        rw [hl] at dead
        cases dead
      rcases hda with hda | hda
      · exact .inl hda
      · rw [Under, Function.update_of_ne hba, Function.update_of_ne hda]
        exact g.ranked hb dead' hd

theorem reference (g : Raised P B h₀ ρ (n + 1) O h) :
    Yields (HeapM.reference a) h fun b h' => b = a ∧ Raised P B h₀ ρ n (a ::ₘ O) h' ∧
      ∀ b, h.isLive b → h'.isLive b := by
  unfold HeapM.reference
  split
  · next hn =>
    obtain rfl := Address.isNil_iff.1 hn
    exact .pure ⟨rfl, cons_nil.2 (g.weaken (Nat.le_succ n)), fun _ => id⟩
  · next hn =>
    refine Yields.ask fun count e => ?_
    rcases g.sound.refCount_ok.1 e with ⟨rfl, -⟩ | ⟨c, hc, rfl⟩
    · exact absurd rfl hn
    have u := g.sound.put_count hc (c.count + 1)
    refine (Yields.modify (Q := fun _ h' => Raised P B h₀ ρ n (a ::ₘ O) h' ∧ ∀ b, h.isLive b →
      h'.isLive b)
      ⟨⟨g.toRests.put_count hc u (g.sound.setCount_prunes (cell?_eq_some.1 hc).1), ?_⟩, fun _ =>
      id⟩).bind
        fun _ h' g => .pure ⟨rfl, g⟩
    rw [Multiset.cons_add]
    exact ⟨g.owns.exact.gain hc (g.owns.count_lt hc), g.owns.spare.cons⟩

theorem setField (g : Raised P B h₀ ρ n O h) (dead : h₀.isLive a = false) :
    Yields (HeapM.setField a t i w) h fun _ h' => Raised P B h₀ ρ n O h' ∧ ∀ b, h.isLive b →
    h'.isLive b := by
  refine Yields.ask fun slot e => ?_
  obtain ⟨c, hc, -, hi, rfl⟩ := g.sound.fieldSlot_ok.1 e
  obtain ⟨live, rfl⟩ := cell?_eq_some.1 hc
  have room := g.sound.room a live
  have length := length_fields (h := h) (a := a)
  exact .modify ⟨⟨g.toRests.replace dead (g.sound.put_field hc hi)
    (g.sound.setWord_prunes live (by omega) (by omega)) fun b hb => g.ranked hc dead hb,
    ⟨g.owns.exact.put_field hc hi, g.owns.spare⟩⟩, fun _ => id⟩

/-- A reference moves into a slot of a new record. -/
theorem setChildOwned (g : Raised P B h₀ ρ n (b ::ₘ O) h) (dead : h₀.isLive a = false)
    (under : Under h₀ ρ (ρ a) b) : Yields (HeapM.setChildOwned a t i b) h fun _ h' =>
      Raised P B h₀ ρ n O h' ∧ Above (ρ a) ρ h ρ h' ∧ (b = .nil ∨ h'.isLive b) := by
  refine Yields.ask fun slot e => ?_
  obtain ⟨c, hc, -, rfl, old⟩ := g.sound.childSlot_word e
  obtain ⟨live, rfl⟩ := cell?_eq_some.1 hc
  obtain ⟨hi, -⟩ := List.getElem?_eq_some_iff.1 old
  have room := g.sound.room a live
  have fields := length_fields (h := h) (a := a)
  have children := length_children (h := h) (a := a)
  have own := g.owns
  rw [Multiset.cons_add] at own
  obtain ⟨-, -, x, u⟩ := Holds.put_child own.exact hc old
  have rests := g.toRests.replace dead u (g.sound.setWord_prunes live (by omega) (by omega))
    fun b' hb => by
    rcases List.mem_or_eq_of_mem_set hb with hb | rfl
    · exact g.ranked hc dead hb
    · exact under
  refine (Yields.modifyGet (Q := fun d h' => Under h₀ ρ (ρ a) d ∧ (∀ b, h.isLive b → h'.isLive b) ∧
    (∃ c, h'.cell? a = some c ∧ b ∈ c.children) ∧ Rests P B h₀ ρ h' ∧ Exact P (d ::ₘ (O + B)) h')
    ⟨g.ranked hc dead (List.mem_of_getElem? old), fun _ => id, ⟨_, u.cell?_self, List.mem_set hi b⟩,
    rests, x⟩).bind
      fun d h₁ ⟨under, same, ⟨c, hc, hb⟩, g, x⟩ => ?_
  refine (g.free x (own.spare.anti (Multiset.le_cons_self _ _))).yields.mono
    fun _ h' ⟨g', shrinks, above⟩ => ?_
  have above := above _ under
  refine ⟨g', fun b live high => above b (same b live) high, g'.owns.exact.closed ?_⟩
  -- the record has not gone away with what stood in its slot
  obtain ⟨d, hd, e⟩ := shrinks a _ (cell?_eq_some.2 ⟨(above a (same a live) le_rfl).1, rfl⟩)
  obtain rfl := Option.some_inj.1 (hd.symm.trans hc)
  have now := cell?_eq_some.2 ⟨(above a (same a live) le_rfl).1, e⟩
  simp [mem_edges.2 ⟨a, _, now, hb⟩]

theorem setChild (g : Raised P B h₀ ρ (n + 1) O h) (dead : h₀.isLive a = false)
    (under : Under h₀ ρ (ρ a) b) :
    Yields (HeapM.setChild a t i b) h fun _ h' => Raised P B h₀ ρ (n + 1) O h' ∧
    Above (ρ a) ρ h ρ h' := by
  refine g.reference.bind fun _ h₁ ⟨_, owned, same⟩ => ?_
  refine (owned.setChildOwned dead under).mono fun _ h' ⟨owned, above, _⟩ => ⟨g.restore owned, ?_⟩
  exact fun b live high => above b (same b live) high

/-- New records that nobody owns would refer to each other in a circle. -/
theorem fresh_empty (g : Raised P B h₀ ρ n 0 h) : fresh h₀ h = ∅ := by
  by_contra remaining
  obtain ⟨a, ha, top⟩ := (fresh h₀ h).exists_max_image ρ (Finset.nonempty_iff_ne_empty.2 remaining)
  obtain ⟨live, dead⟩ := mem_fresh.1 ha
  have hc := cell?_eq_some.2 ⟨live, rfl⟩
  have old : ∀ b ∈ P + B, b ≠ a := by
    rintro b hb rfl
    have := (g.base.closed (a := b) (by rw [Multiset.mem_add] at hb ⊢; grind)).resolve_left
      (g.sound.ne_nil live)
    rw [this] at dead
    cases dead
  -- somebody refers to the record of the highest rank
  have held : a ∈ h.edges := by
    by_contra unheld
    have count := g.owns.exact.count hc
    rw [zero_add, Multiset.count_add, Multiset.count_eq_zero_of_notMem unheld,
      Multiset.count_eq_zero_of_notMem fun hb => old a (Multiset.mem_add.2 (.inr hb)) rfl] at count
    refine g.owns.exact.idle hc (UInt64.toNat_inj.1 count)
      (UInt16.toNat_inj.1 ((g.owns.exact.pins hc).trans ?_))
    exact Multiset.count_eq_zero_of_notMem fun hb => old a (Multiset.mem_add.2 (.inl hb)) rfl
  obtain ⟨b, c, hb, hab⟩ := mem_edges.1 held
  have hn := g.sound.ne_nil live
  by_cases hl : h₀.isLive b
  · have := (g.old_child hl hb hab).resolve_left hn
    rw [this] at dead
    cases dead
  · rw [Bool.not_eq_true] at hl
    rcases g.ranked hb hl hab with e | hl' | lt
    · exact hn e
    · rw [hl'] at dead
      cases dead
    · exact absurd lt (not_lt.2 (top b (mem_fresh.2 ⟨(cell?_eq_some.1 hb).1, hl⟩)))

/-- A builder that owns nothing has left nothing behind. -/
theorem same (g : Raised P B h₀ ρ n 0 h) : h.cell? = h₀.cell? := by
  have live : ∀ a, h.isLive a → h₀.isLive a := fun a hl => by
    by_contra dead
    have : a ∈ fresh h₀ h := mem_fresh.2 ⟨hl, Bool.not_eq_true _ ▸ dead⟩
    rw [g.fresh_empty] at this
    cases this
  funext a
  cases hc : h₀.cell? a with
  | none =>
    rw [cell?_eq_none] at hc ⊢
    by_contra hl
    rw [live a (Bool.not_eq_false _ ▸ hl)] at hc
    cases hc
  | some c =>
    obtain ⟨w, hc'⟩ := g.cells hc
    have now := g.owns.exact.count hc'
    rw [zero_add, Multiset.count_add, g.edges, g.fresh_empty, ← Nat.add_assoc, ← Multiset.count_add,
      ← g.base.count hc] at now
    have same : w = c.count := UInt64.toNat_inj.1 (now.trans (by simp [Records.refs]))
    rw [hc', same]

/-- The same blocks of the pool are free. -/
theorem alike (g : Raised P B h₀ ρ n 0 h) (joined : h₀.pool.Joined) : h.pool.Alike h₀.pool := by
  have live : ∀ a, h.isLive a = h₀.isLive a := fun a => by
    rw [← isSome_cell?, ← isSome_cell?, g.same]
  have back : Prunes h h₀ :=
    ⟨g.grown.log.symm, fun i hi => (g.grown.blocks i hi).imp_right Eq.symm, fun _ => joined⟩
  exact back.alike .refl g.base.sound g.sound live (g.grown.joined joined)

/-- New records take up free words. -/
theorem freeWords (g : Raised P B h₀ ρ n O h) (joined : h₀.pool.Joined) :
    h₀.freeWords = h.freeWords + ∑ a ∈ fresh h₀ h, (h.pool.blockCapacity a.index + 1) := by
  have back : Prunes h h₀ :=
    ⟨g.grown.log.symm, fun i hi => (g.grown.blocks i hi).imp_right Eq.symm, fun _ => joined⟩
  rw [back.freeWords g.sound g.base.sound]
  congr 1
  refine Finset.sum_congr ?_ fun _ _ => rfl
  ext a
  simp [fresh]

end Raised
end Heap
end GoMachine
