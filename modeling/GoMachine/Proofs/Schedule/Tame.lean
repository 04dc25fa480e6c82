import GoMachine.Proofs.Owns.Turn
import GoMachine.Proofs.Schedule.Orderly
/-!
# What programs do

A computation is `Tame` if it keeps to what is not private: it leaves the scheduler and the threads
in wakers alone, and given addresses that are not private it comes by no others. `Asks` says the
same of questions. The addresses that a result mentions are `addresses`; those that a computation is
given are listed in front of it, so that a sequence is tame if its second part is with what the
first one came by (`Tame.bind`).
-/
namespace GoMachine

open Heap (Orderly Later)

/-- What is not private, and fits a word of a child slot. -/
def Heap.Plain (h : Heap) (F : Facts) (a : Address) : Prop := a.index < 2 ^ 32 ∧ ¬h.Private F a

/-- The addresses in a result. -/
class Mentions (α : Type) where
  addresses : α → List Address

export Mentions (addresses)

section Instances

variable {α β : Type} [Mentions α] [Mentions β]

instance (priority := low) : Mentions α := ⟨fun _ => []⟩

instance : Mentions Address := ⟨fun a => [a]⟩

instance : Mentions (List α) := ⟨List.flatMap addresses⟩

instance : Mentions (Option α) := ⟨fun o => o.elim [] addresses⟩

instance : Mentions (α × β) := ⟨fun p => addresses p.1 ++ addresses p.2⟩

@[simp, grind =]
theorem addresses_address {a : Address} : addresses a = [a] := rfl

@[simp, grind =]
theorem addresses_unit {u : Unit} : addresses u = [] := rfl

@[simp, grind =]
theorem addresses_nat {n : Nat} : addresses n = [] := rfl

@[simp, grind =]
theorem addresses_bool {b : Bool} : addresses b = [] := rfl

@[simp, grind =]
theorem addresses_word {w : UInt64} : addresses w = [] := rfl

@[simp, grind =]
theorem addresses_tag {t : Tag} : addresses t = [] := rfl

@[simp, grind =]
theorem addresses_string {s : String} : addresses s = [] := rfl

@[simp, grind =]
theorem mem_addresses_list {a : Address} {l : List α} :
    a ∈ addresses l ↔ ∃ x ∈ l, a ∈ addresses x := List.mem_flatMap

@[simp, grind =]
theorem addresses_nil : addresses ([] : List α) = [] := rfl

@[simp, grind =]
theorem addresses_cons {x : α} {l : List α} : addresses (x :: l) = addresses x ++ addresses l :=
  List.flatMap_cons

@[simp, grind =]
theorem addresses_addresses {l : List Address} : addresses l = l := by
  induction l with
  | nil => rfl
  | cons a l ih => rw [addresses_cons, ih, addresses_address, List.singleton_append]

@[simp]
theorem addresses_strings {l : List String} : addresses l = [] :=
  List.flatMap_eq_nil_iff.2 fun _ _ => rfl

@[simp, grind =]
theorem addresses_step {r : ForInStep PUnit} : addresses r = [] := rfl

@[simp, grind =]
theorem addresses_none : addresses (none : Option α) = [] := rfl

@[simp, grind =]
theorem addresses_some {x : α} : addresses (some x) = addresses x := rfl

@[simp, grind =]
theorem addresses_pair {x : α} {y : β} : addresses (x, y) = addresses x ++ addresses y := rfl

end Instances

/-- What holds after a computation that keeps to what is not private. -/
structure Kept {σ : Type} [HasHeap σ] (K : Set Address) (F : Facts) (O : Multiset Address) (s : σ)
    (l : List Address) (s' : σ) : Prop where
  orderly : Orderly K F O 0 (heap s')
  later : Later (heap s) (heap s')
  firm : Heap.Firm O (heap s) (heap s')
  fixed : fixed s' = fixed s
  plain : ∀ a ∈ l, (heap s').Plain F a

/-- A computation that keeps to what is not private, given addresses that are not. -/
def Tame {ε σ α : Type} [HasHeap σ] [Mentions α] (c : List Address) (x : EStateM ε σ α) : Prop :=
  ∀ ⦃K F O s⦄, Orderly K F O 0 (heap s) → (∀ a ∈ c, (heap s).Plain F a) →
    Yields x s fun r => Kept K F O s (addresses r)

/-- A question whose answer mentions nothing private, given addresses that are not. -/
def Asks {α : Type} [Mentions α] (c : List Address) (q : Query α) : Prop :=
  ∀ ⦃K F O h r⦄, Orderly K F O 0 h → (∀ a ∈ c, h.Plain F a) → q h = .ok r →
    ∀ a ∈ addresses r, h.Plain F a

namespace Heap

variable {K : Set Address} {F : Facts} {O : Multiset Address} {h h' : Heap} {a b : Address}
  {t : Tag} {i : Nat}

theorem Later.plain (l : Later h h') (ha : h.Plain F a) : h'.Plain F a := ⟨ha.1, l.hidden ha.2⟩

theorem Plain.none (ha : h.Plain F a) : F a = none := not_not.1 fun known => ha.2 (.inl known)

theorem Plain.not_hasTag (ha : h.Plain F a) (ht : t.isPersonal) : ¬h.HasTag t a := fun k =>
  ha.2 (.inr (k.personal ht))

namespace Orderly

variable {L : Multiset Address}

theorem plain_nil (o : Orderly K F O L h) : h.Plain F .nil := ⟨by decide, o.not_private_nil⟩

/-- Nil is among the addresses that are not private. -/
theorem plain_of_mem {c : List Address} (o : Orderly K F O L h) (hc : ∀ a ∈ c, h.Plain F a)
    (ha : a ∈ .nil :: c) : h.Plain F a :=
  (List.mem_cons.1 ha).elim (fun e => e ▸ o.plain_nil) (hc a)

/-- Only what is not private has other tags. -/
theorem plain_of_tag (o : Orderly K F O L h) (k : h.HasTag t a) (ht : t.isInternal = false)
    (ht' : t.isPersonal = false) : h.Plain F a := by
  refine ⟨?_, o.not_private_of_tag k ht ht'⟩
  have := o.sound.serves.lt_two_pow (isLive_iff.1 k.isLive)
  omega

/-- What stands in most slots is not private. -/
theorem plain_child {c : Cell} (o : Orderly K F O L h) (hc : h.cell? a = some c) (hn : F a = none)
    (ht : c.tag ≠ .waker) (ht' : c.tag ≠ .thread) (hb : b ∈ c.children) : h.Plain F b := by
  obtain ⟨i, hi⟩ := List.getElem?_of_mem hb
  exact ⟨index_lt_of_child hc hb, (fits_iff ht ht').1 (o.fits hc hn hi)⟩

theorem plain_children {l : List Address} (o : Orderly K F O L h) (k : h.HasTag t a) (ht : t.isOpen)
    (run : Query.children a h = .ok l) : ∀ b ∈ l, h.Plain F b := by
  intro b hb
  obtain ⟨c, hc, rfl⟩ := k
  rcases o.sound.children_ok.1 (ofHeap_ok.1 run) with ⟨rfl, rfl⟩ | ⟨c', hc', rfl⟩
  · simp at hb
  · obtain rfl : c' = c := by simpa [hc] using hc'.symm
    refine o.plain_child hc (o.none_of_tag ⟨c', hc, rfl⟩ ?_) ?_ ?_ hb
    · cases e : c'.tag <;> first | rfl | (rw [e] at ht; cases ht)
    · rintro e
      rw [e] at ht
      cases ht
    · rintro e
      rw [e] at ht
      cases ht

end Orderly

theorem tag_ok (s : h.Sound) (run : Query.tag a h = .ok t) (ht : t ≠ .nil) : h.HasTag t a :=
  (s.tag_ok.1 (ofHeap_ok.1 run)).resolve_left fun e => ht e.2

theorem require_ok {expected : String} {u : Unit} (s : h.Sound)
    (run : Query.require a t expected h = .ok u) (ht : t ≠ .nil) : h.HasTag t a := by
  obtain ⟨t', tagged, run⟩ := query_bind_ok.1 run
  split at run
  · next e => exact tag_ok s (e ▸ tagged) ht
  · exact (query_throw_ok.1 run).elim

end Heap

section Basic

variable {ε σ α β γ : Type} [HasHeap σ] [Mentions α] [Mentions β] {c d : List Address}
  {x : EStateM ε σ α} {f : α → EStateM ε σ β}

namespace Kept

variable {K : Set Address} {F : Facts} {O : Multiset Address} {s s₁ s' : σ} {l l' : List Address}

theorem refl (o : Orderly K F O 0 (heap s)) (hl : ∀ a ∈ l, (heap s).Plain F a) : Kept K F O s l s :=
  ⟨o, .refl, .refl, rfl, hl⟩

theorem trans (k : Kept K F O s l s₁) (k' : Kept K F O s₁ l' s') : Kept K F O s l' s' :=
  ⟨k'.orderly, k.later.trans k'.later, k.firm.trans k'.firm, k'.fixed.trans k.fixed, k'.plain⟩

end Kept

namespace Tame

theorem weaken (hx : Tame c x) (sub : c ⊆ d) : Tame d x := fun _ _ _ _ o hd =>
  hx o fun a ha => hd a (sub ha)

theorem bind (hx : Tame c x) (hf : ∀ a, Tame (addresses a ++ c) (f a)) : Tame c (x >>= f) :=
  fun K F O s o hc => (hx o hc).bind fun a s₁ k => by
    refine (hf a k.orderly fun b hb => ?_).mono fun b s' k' => k.trans k'
    exact (List.mem_append.1 hb).elim (k.plain b) fun hb => k.later.plain (hc b hb)

theorem pure {a : α} (ha : addresses a ⊆ .nil :: c) :
    Tame c (Pure.pure a : EStateM ε σ α) := fun _ _ _ _ o hc => .pure (.refl o fun _ hb =>
  o.plain_of_mem hc (ha hb))

theorem throw {e : ε} : Tame c (MonadExcept.throw e : EStateM ε σ α) := fun _ _ _ _ _ _ => .throw

theorem get {g : σ → EStateM ε σ α} (hg : ∀ s, Tame c (g s)) : Tame c (MonadState.get >>= g) :=
  fun _ _ _ _ o hc => .get (hg _ o hc)

omit [Mentions α] in
/-- A check that fails ends the computation. -/
theorem guard {p : Prop} [Decidable p] {e : ε} {y : EStateM ε σ β} (hy : ¬p → Tame c y) :
    Tame c (if p then MonadExcept.throw e >>= f else y) := by
  split
  · exact fun _ _ _ _ _ _ => Yields.throw.bind (Q := fun _ _ => False) fun _ _ no => no.elim
  · next h => exact hy h

/-- A loop over a list. -/
theorem forIn {l : List γ} {body : γ → PUnit → EStateM ε σ (ForInStep PUnit)}
    (turn : ∀ a ∈ l, Tame c (body a ⟨⟩)) : Tame c (forIn l PUnit.unit body) := by
  induction l with
  | nil => exact pure (by simp [addresses])
  | cons a l ih =>
    rw [List.forIn_cons]
    refine bind (turn a (by simp)) fun r => weaken ?_ (List.subset_append_right _ c)
    cases r with
    | done => exact pure (by simp [addresses])
    | yield => exact ih fun b hb => turn b (by simp [hb])

theorem mapM {l : List γ} {g : γ → EStateM ε σ α} (turn : ∀ a ∈ l, Tame c (g a)) :
    Tame c (l.mapM g) := by
  induction l with
  | nil => exact pure (List.nil_subset _)
  | cons a l ih =>
    rw [List.mapM_cons]
    refine bind (turn a (by simp)) fun r => bind (weaken (ih fun b hb => turn b (by simp [hb]))
      (List.subset_append_right _ c)) fun rs => pure ?_
    grind

theorem forM {l : List γ} {body : γ → EStateM ε σ PUnit} (turn : ∀ a ∈ l, Tame c (body a)) :
    Tame c (l.forM body) := by
  induction l with
  | nil => exact pure (by simp [addresses])
  | cons a l ih =>
    refine bind (turn a (by simp)) fun r => weaken ?_ (List.subset_append_right _ c)
    exact ih fun b hb => turn b (by simp [hb])

end Tame

namespace Asks

variable {q : Query α} {g : α → Query β}

theorem bind (hq : Asks c q) (hg : ∀ a, Asks (addresses a ++ c) (g a)) : Asks c (q >>= g) := by
  intro K F O h r o hc run
  obtain ⟨a, asked, run⟩ := query_bind_ok.1 run
  exact hg a o (fun b hb => (List.mem_append.1 hb).elim (hq o hc asked b) (hc b)) run

theorem pure {a : α} (ha : addresses a ⊆ .nil :: c) : Asks c (Pure.pure a) := by
  intro K F O h r o hc run b hb
  obtain rfl := query_pure_ok.1 run
  exact o.plain_of_mem hc (ha hb)

theorem throw {e : Fault} : Asks c (MonadExcept.throw e : Query α) := fun _ _ _ _ _ _ _ run =>
  (query_throw_ok.1 run).elim

/-- An answer without addresses. -/
theorem quiet (hq : ∀ r : α, addresses r = []) : Asks c q := by
  intro K F O h r o hc run b hb
  simp [hq r] at hb

theorem unit {q : Query Unit} : Asks c q := quiet fun _ => rfl

theorem bool {q : Query Bool} : Asks c q := quiet fun _ => rfl

theorem nat {q : Query Nat} : Asks c q := quiet fun _ => rfl

theorem word {q : Query UInt64} : Asks c q := quiet fun _ => rfl

theorem text {q : Query String} : Asks c q := quiet fun _ => rfl

theorem kind {q : Query Tag} : Asks c q := quiet fun _ => rfl

theorem read {g : Heap → Query α} (hg : ∀ h, Asks c (g h)) : Asks c (MonadReader.read >>= g) := by
  intro K F O h r o hc run
  obtain ⟨a, asked, run⟩ := query_bind_ok.1 run
  exact hg a o hc run

/-- A question whose answer does not matter. -/
theorem after {q : Query γ} {g : γ → Query β} (hg : ∀ a, Asks c (g a)) : Asks c (q >>= g) := by
  intro K F O h r o hc run
  obtain ⟨a, -, run⟩ := query_bind_ok.1 run
  exact hg a o hc run

end Asks
end Basic

/-! ## Primitives -/

section Primitives

variable {K : Set Address} {F : Facts} {O : Multiset Address} {h : Heap} {c : List Address}
  {a v : Address} {t : Tag} {i : Nat} {w : UInt64}

/-- The slots of a record with a tag hold nothing private: that of any record for most tags, and
that of a record which is not private itself for links and queues. -/
def Hides (c : List Address) (a : Address) (t : Tag) : Prop := t.isOpen ∨ t.isInternal ∧ a ∈ c

theorem Hides.not_waker (k : Hides c a t) : t ≠ .waker := by
  rintro rfl
  simp [Hides, Tag.isOpen, Tag.isInternal] at k

theorem Hides.not_thread (k : Hides c a t) : t ≠ .thread := by
  rintro rfl
  simp [Hides, Tag.isOpen, Tag.isInternal] at k

/-- Nothing is known of such a record. -/
theorem Hides.unknown (k : Hides c a t) (o : Orderly K F O 0 h) (hc : ∀ a ∈ c, h.Plain F a)
    (ht : h.HasTag t a) : F a = none := by
  rcases k with k | ⟨-, ha⟩
  · exact o.none_of_tag ht (by cases t <;> first | rfl | cases k)
  · exact (hc a ha).none

theorem Asks.child (k : Hides c a t) : Asks c (Query.child a t i) := by
  intro K F O h r o hc run b hb
  obtain rfl : b = r := by simpa using hb
  obtain ⟨d, hd, rfl, hi⟩ := o.sound.child_ok.1 (ofHeap_ok.1 run)
  exact o.plain_child hd (k.unknown o hc ⟨d, hd, rfl⟩) k.not_waker k.not_thread
    (List.mem_of_getElem? hi)

namespace Tame

theorem allocate {fields children : Nat} (ht : t.isPersonal = false) :
    Tame c (HeapM.allocate t fields children) := by
  intro K F O h o hc a h' run
  simp only [heap_heap] at o hc ⊢
  obtain ⟨dead, hne, u⟩ := o.sound.allocated run
  have unknown : F a = none := not_not.1 fun known => o.not_private_of_dead dead (.inl known)
  have tagged : h'.HasTag t a := ⟨_, u.cell?_self, rfl⟩
  have hidden : ¬h'.Private F a := by
    rintro (known | ⟨t', pers, k⟩)
    · exact known unknown
    · rw [k.unique tagged, ht] at pers
      cases pers
  have new : Heap.Appears h F a _ h' F := ⟨dead, u, fun b hb => List.eq_of_mem_replicate hb,
    fun _ _ => rfl, .inl unknown, fun k => absurd k hidden⟩
  have o' : Orderly K F O 0 h' := o.create new o.held (fun b hb _ => hb)
    (fun ha => absurd ((o.owned ha).resolve_left hne) (o.not_private_of_dead dead))
    (fun _ _ => rfl) fun k => absurd k hidden
  have bound := u.sound.serves.lt_two_pow (Heap.isLive_iff.1 tagged.isLive)
  refine ⟨o', ⟨fun {t' v} pers k => ?_, fun k => ?_⟩, ⟨fun {b d} _ hd ht => ⟨d, ?_, ht, rfl⟩⟩, rfl,
    fun b hb => ?_⟩
  · have hv : v ≠ a := by
      rintro rfl
      exact hidden (.inr (k.personal pers))
    obtain ⟨d, hd, e⟩ := k
    exact ⟨d, u.cell?_of_ne hv ▸ hd, e⟩
  · exact (new.edges_count (u.sound.ne_nil k.isLive)).le
  · refine (u.cell?_of_ne ?_).trans hd
    rintro rfl
    have live : h.isLive b := (Heap.cell?_eq_some.1 hd).1
    rw [live] at dead
    cases dead
  · obtain rfl : b = a := by simpa using hb
    exact ⟨by omega, hidden⟩

theorem setField (k : t.isInternal = false ∨ a ∈ c) : Tame c (HeapM.setField a t i w) := by
  intro K F O h o hc
  simp only [heap_heap] at o hc ⊢
  refine Yields.ask fun slot e => ?_
  obtain ⟨d, hd, rfl, hi, rfl⟩ := o.sound.fieldSlot_ok.1 e
  have unknown : F a = none := k.elim (o.none_of_tag ⟨d, hd, rfl⟩) fun ha => (hc a ha).none
  obtain ⟨o', l⟩ := o.put_field (w := w) hd hi (fun _ _ => rfl) (by simp [unknown]) o.held
  exact .modify ⟨o', l, .of_becomes (o.sound.put_field hd hi) hd rfl fun _ => rfl, rfl, by simp⟩

theorem reference (ha : a ∈ .nil :: c) : Tame c (HeapM.reference a) := by
  intro K F O h o hc
  simp only [heap_heap] at o hc ⊢
  unfold HeapM.reference
  split
  · exact .pure (.refl o (by simpa using o.plain_of_mem hc ha))
  · next hn =>
    refine Yields.ask fun count e => ?_
    rcases o.sound.refCount_ok.1 e with ⟨rfl, -⟩ | ⟨d, hd, rfl⟩
    · exact absurd rfl hn
    · obtain ⟨o', l⟩ := o.put_count (w := d.count + 1) hd o.held (fun _ => o.owned)
        (fun _ _ => rfl) fun hp => absurd hp (o.plain_of_mem hc ha).2
      refine (Yields.modify (Q := fun _ h' => Kept K F O h [a] h') ?_).bind
        fun _ h' k => .pure (by simpa using k)
      exact ⟨o', l, .of_becomes (o.sound.put_count hd _) hd rfl fun _ => rfl, rfl,
        by simpa using l.plain (o.plain_of_mem hc ha)⟩

/-- Loose references to what is not private are dropped. -/
theorem drain {l : List Address} (hl : l ⊆ .nil :: c) : Tame c (fun h : Heap => h.drain l) := by
  intro K F O h o hc u h' run
  simp only [heap_heap] at o hc ⊢
  obtain ⟨o', k, f⟩ := (o.congr (M := l) fun b hp => by
    rw [Multiset.count_zero, Multiset.coe_count, List.count_eq_zero]
    exact fun hb => (o.plain_of_mem hc (hl hb)).2 hp).drain run
  exact ⟨o', k, f, rfl, by simp⟩

theorem free (ha : a ∈ .nil :: c) : Tame c (HeapM.free a) := drain (by simpa using ha)

/-- What is not private takes the place of something else that is not. -/
theorem put {e : Cell} (o : Orderly K F O 0 h) (he : h.cell? a = some e) {old : Address}
    (hold : e.children[i]? = some old) (unknown : F a = none) (hv : h.Plain F v)
    (hidden : h.Plain F old) (ht : e.tag ≠ .waker) (ht' : e.tag ≠ .thread) :
    Orderly K F O 0 (h.setWord (a.index + 2 + e.fields.length + i) v.toWord) ∧
      Later h (h.setWord (a.index + 2 + e.fields.length + i) v.toWord) ∧
      Heap.Firm O h (h.setWord (a.index + 2 + e.fields.length + i) v.toWord) := by
  have ne : ∀ {x b}, h.Private F x → h.Plain F b → x ≠ b := fun hx hb e => hb.2 (e ▸ hx)
  obtain ⟨o', count⟩ := o.put_child (J := F) (P := O) (M := 0) he hold hv.1 (fun _ _ => rfl)
    (by simp [unknown]) o.held (fun _ => o.owned) (fun _ => (Heap.fits_iff ht ht').2 hv.2)
    (fun known => absurd unknown known)
    (fun x hx => by
      rw [Multiset.count_cons_of_ne (ne hx hv), Multiset.count_cons_of_ne (ne hx hidden)])
    fun k => absurd k (hv.not_hasTag rfl)
  have u := o.sound.put_child (b := v) he (List.getElem?_eq_some_iff.1 hold).1 hv.1
  refine ⟨o', ⟨fun _ k => (u.hasTag_iff he rfl).1 k, fun {x} k => ?_⟩, .of_becomes u he rfl fun e =>
    absurd e ht'⟩
  have := count x
  rwa [if_neg] at this
  rintro rfl
  exact hv.not_hasTag rfl ((u.hasTag_iff he rfl).1 k)

theorem setChildOwned (k : Hides c a t) (hv : v ∈ .nil :: c) :
    Tame c (HeapM.setChildOwned a t i v) := by
  intro K F O h o hc
  simp only [heap_heap] at o hc ⊢
  refine Yields.ask fun slot e => ?_
  obtain ⟨d, hd, rfl, rfl, old⟩ := o.sound.childSlot_word e
  have unknown := k.unknown o hc ⟨d, hd, rfl⟩
  have plain := o.plain_of_mem hc hv
  have hidden := o.plain_child hd unknown k.not_waker k.not_thread (List.mem_of_getElem? old)
  obtain ⟨o₁, l, f⟩ := put o hd old unknown plain hidden k.not_waker k.not_thread
  have moved : Kept K F O h [Address.ofWord (h.pool.word (a.index + 2 + d.fields.length + i))]
      (h.setWord (a.index + 2 + d.fields.length + i) v.toWord) :=
    ⟨o₁, l, f, rfl, by simpa using l.plain hidden⟩
  refine (Yields.modifyGet (Q := fun b h₁ => Kept K F O h [b] h₁) moved).bind fun b h₁ k => ?_
  exact (free (c := [b]) (by simp) k.orderly k.plain).mono fun _ _ k' => k.trans k'

theorem setChild (k : Hides c a t) (hv : v ∈ .nil :: c) : Tame c (HeapM.setChild a t i v) :=
  bind (reference hv) fun b => (setChildOwned k hv).weaken (by simp)

theorem takeChild (k : Hides c a t) : Tame c (HeapM.takeChild a t i) := by
  intro K F O h o hc
  simp only [heap_heap] at o hc ⊢
  refine Yields.ask fun slot e => ?_
  obtain ⟨d, hd, rfl, rfl, old⟩ := o.sound.childSlot_word e
  have unknown := k.unknown o hc ⟨d, hd, rfl⟩
  have hidden := o.plain_child hd unknown k.not_waker k.not_thread (List.mem_of_getElem? old)
  obtain ⟨o₁, l, f⟩ := put o hd old unknown o.plain_nil hidden k.not_waker k.not_thread
  exact .modifyGet ⟨o₁, l, f, rfl, by
    simp only [addresses_address, List.mem_singleton, forall_eq]
    exact l.plain hidden⟩

end Tame

namespace Tame

/-! ## Lifting -/

section Lifted

variable {α : Type} [Mentions α]

/-- A question whose answer does not matter. -/
theorem after {β : Type} [Mentions β] {γ : Type} {q : Query γ} {f : γ → Action β}
    (hf : ∀ a, Tame c (f a)) : Tame c (liftM q >>= f) := fun _ _ _ _ o hc =>
  .read fun a _ => hf a o hc

theorem heap {x : HeapM α} (hx : Tame c x) : Tame c (liftM x : Action α) :=
  fun _ _ _ _ o hc => (hx o hc).heap

theorem query {q : Query α} (hq : Asks c q) : Tame c (liftM q : Action α) := fun _ _ _ _ o hc =>
  .query fun _ e => .refl o (hq o hc e)

theorem turn {x : Action α} (hx : Tame c x) : Tame c (liftM x : TurnM α) := fun _ _ _ _ o hc =>
  .lift ((hx o hc).mono fun _ _ k => ⟨k.orderly, k.later, k.firm, rfl, k.plain⟩)

theorem turnHeap {x : HeapM α} (hx : Tame c x) : Tame c (liftM x : TurnM α) := turn (heap hx)

theorem turnQuery {q : Query α} (hq : Asks c q) : Tame c (liftM q : TurnM α) := turn (query hq)

theorem ofThread {q : Address → Query α} (hq : ∀ t, Asks c (q t)) : Tame c (TurnM.ofThread q) :=
  get fun s => turnQuery (hq s.thread)

theorem attempt {σ : Type} [HasHeap σ] {β : Type} [Mentions β] {x : ActionOn σ α}
    {f : Except Fault α → ActionOn σ β} (hx : Tame c x)
    (hf : ∀ a, Tame (addresses a ++ c) (f (.ok a)))
    (failed : ∀ e s, Yields (f (.error e)) s fun _ _ => False) : Tame c (x.attempt >>= f) := by
  intro K F O s o hc
  refine (Yields.attempt (E := fun r s' => ∀ a, r = .ok a → Kept K F O s (addresses a) s')
    (hx o hc) (fun a s' k _ e => by cases e; exact k) (fun _ _ _ e => by cases e)).bind ?_
  rintro (e | a) s₁ k
  · exact (failed e s₁).mono fun _ _ no => no.elim
  · refine (hf a (k a rfl).orderly fun b hb => ?_).mono fun b s' k' => (k a rfl).trans k'
    exact (List.mem_append.1 hb).elim ((k a rfl).plain b) fun hb => (k a rfl).later.plain (hc b hb)

theorem conclude {σ : Type} [HasHeap σ] {a : α} (ha : addresses a ⊆ .nil :: c) :
    Tame c (ActionOn.conclude (.ok a) : ActionOn σ α) := fun _ _ _ _ o hc =>
  .conclude fun _ e => by
    cases e
    exact .refl o fun b hb => o.plain_of_mem hc (ha hb)

/-- A check that was made before. -/
theorem check {σ : Type} [HasHeap σ] {r : Except Fault α} (hr : ∀ a : α, addresses a = []) :
    Tame c (ActionOn.conclude r : ActionOn σ α) := fun _ _ _ _ o _ =>
  .conclude fun a _ => .refl o (by simp [hr a])

theorem releasing {x : Action α} (ha : a ∈ .nil :: c) (hx : Tame c x) :
    Tame c (Action.releasing a x) :=
  attempt hx (fun _ => bind (heap (free (by grind))) fun _ => conclude (by grind))
    fun _ _ => Yields.any.bind fun _ _ _ => .conclude_error

theorem orRelease {x : Action α} (hx : Tame c x) : Tame c (Action.orRelease a x) :=
  attempt hx (fun _ => pure (by grind)) fun _ _ => Yields.any.bind fun _ _ _ => .throw

theorem releasingAll {x : TurnM α} {as : List Address} (ha : as ⊆ .nil :: c) (hx : Tame c x) :
    Tame c (TurnM.releasing as x) := by
  refine attempt hx (fun b => ?_) fun _ _ => Yields.any.bind fun _ _ _ => .conclude_error
  refine bind (c := addresses b ++ c) (forIn fun a h => ?_) fun _ => conclude (by grind)
  exact bind (turnHeap (free (by grind))) fun _ => pure (by simp [addresses])

end Lifted
end Tame
end Primitives

attribute [grind =] Hides Tag.isOpen Tag.isInternal Tag.isPersonal

attribute [grind ←] Asks.bind Asks.pure Asks.throw Asks.read Asks.child Asks.unit Asks.bool
  Asks.nat Asks.word Asks.text Asks.kind

attribute [grind ←] Tame.bind Tame.pure Tame.throw Tame.get Tame.forIn Tame.heap Tame.query
    Tame.turn
  Tame.turnHeap Tame.turnQuery Tame.ofThread Tame.releasing Tame.orRelease Tame.releasingAll
  Tame.allocate Tame.setField Tame.setChild Tame.setChildOwned Tame.takeChild Tame.free
  Tame.reference

end GoMachine
