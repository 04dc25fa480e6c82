import GoMachine.Proofs.Owns.Composite
import GoMachine.Proofs.Tasks.Statements
/-!
# Composite values and pointers

What the rules of members, methods, elements, windows, construction and pointers make of the running
thread: each takes its operands off the stash and leaves one value there.
-/
namespace GoMachine

open Heap (laden maxSlots)
open Code (Stands Reduces)

variable {k : Known} {σ : Address → Task} {n m : Nat} {O : Multiset Address} {s : Turn}
  {a b t v node : Address} {c : Code} {τ : Task} {fs : List UInt64} {ks : List Address}
  {ps : List Code}
  {tag : Tag} {i : Nat}

namespace Machine

/-- Something that borrows an operand puts one value on the stash. -/
theorem borrowing_reduces {x : Address → Address → TurnM Unit} (h : tag.operands? fs = some (1, 1))
    (hx : ∀ {k : Known} {t σ τ n O s node a} [k.KeptByTurns] [k.Runner t],
    Plays t k σ τ (n + 2) O s → Yields (x node a) s fun _ s' =>
      ∃ v, Plays t k σ { τ with stash := v :: τ.stash } (n + 2) O s') :
    Reduces (.node tag fs ks ps) (fun node => do
      let a ← TurnM.popValue; TurnM.releasing [a] (x node a)) := by
  intro k t σ τ n O s node _ _ p hc
  refine p.popValue.bind fun a s₁ ⟨_, p₁⟩ => ?_
  exact (Plays.leaving (l := [a]) (hx p₁)).mono fun _ s' ⟨v, p₂⟩ =>
    ⟨_, p.restore p₂, .values (V := [v]) h rfl⟩

/-- A value is made of operands. -/
theorem making_reduces [k.KeptByTurns] [k.Runner t] {count : Nat} {x : List Address → TurnM Address}
    (h : tag.operands? fs = some (count, 1))
    (hx : ∀ {τ O s args}, Plays t k σ τ (n + 16) O s → Yields (x args) s fun v s' =>
    Plays t k σ τ (n + 16) (v ::ₘ O) s')
    (p : Plays t k σ τ (n + maxSlots + 16) O s) :
    Yields (do
      let args ← TurnM.popValues count
      TurnM.pushValueOwned (← TurnM.releasing args (x args))) s fun _ s' => ∃ τ',
        Plays t k σ τ' (n + maxSlots + 16) O s' ∧ τ.Makes (.node tag fs ks ps) τ' := by
  have wide : Plays t k σ τ (n + 13 + 2 ^ 31 + 3) O s := p.weaken (by simp only [maxSlots]; omega)
  refine wide.popValues.bind fun args s₁ found => ?_
  obtain ⟨_, p₁⟩ := found
  refine (Plays.making (l := args) (hx p₁)).bind fun v s₂ p₂ => ?_
  exact p₂.pushValueOwned.mono fun _ _ p₃ => ⟨_, p.restore p₃, .values (V := [v]) h rfl⟩

/-! ## Members and methods -/

/-- An object and a name. -/
theorem selectFrom_reduces {next : Tag} (st : Stands (.node tag fs ks ps)) (ht : tag.isSplit)
    (control : next.isControl)
    (h : ∀ {t' fs' ops}, tag.split? fs ps = some (t', fs', ops) →
    ∃ object name, ps = [object, name] ∧
      (t', fs', ops) = (next, [], [object])) :
      Reduces (.node tag fs ks ps) (selectFrom tag next) := by
  intro k t σ τ n O s node _ _ p hc
  obtain ⟨t', fs', ops, split, inner⟩ := st.split ht
  obtain ⟨object, name, rfl, e⟩ := h split
  cases e
  refine .look fun a readO => .look fun b readN => ?_
  have isNode := (inner object (by simp)).isNode
  refine reduceTo_schedules p control ?_ (p.data_parts _)
    (.cons (.inr (p.child hc readO rfl isNode)) .nil)
    (split.trans (by rw [Code.filter_isThere (by simpa using isNode)]))
  simpa using p.part_live hc (List.mem_of_getElem? (p.child_read hc readN))

theorem member_reduces (st : Stands (.node .member fs ks ps)) :
    Reduces (.node .member fs ks ps) member :=
  selectFrom_reduces st rfl rfl fun h => by
    rcases ps with _ | ⟨object, _ | ⟨name, _ | _⟩⟩ <;> simp [Tag.split?] at h ⊢
    exact ⟨h.1.symm, h.2.1, h.2.2.symm⟩

theorem memberAddress_reduces (st : Stands (.node .memberAddress fs ks ps)) :
    Reduces (.node .memberAddress fs ks ps) memberAddress :=
  selectFrom_reduces st rfl rfl fun h => by
    rcases ps with _ | ⟨object, _ | ⟨name, _ | _⟩⟩ <;> simp [Tag.split?] at h ⊢
    exact ⟨h.1.symm, h.2.1, h.2.2.symm⟩

theorem methodMember_reduces (st : Stands (.node .methodMember fs ks ps)) :
    Reduces (.node .methodMember fs ks ps) methodMember :=
  selectFrom_reduces st rfl rfl fun h => by
    rcases ps with _ | ⟨object, _ | ⟨name, _ | _⟩⟩ <;> simp [Tag.split?] at h ⊢
    exact ⟨h.1.symm, h.2.1, h.2.2.symm⟩

theorem memberI_reduces : Reduces (.node .memberI fs ks ps) memberI :=
  borrowing_reduces (x := fun node object => do
    TurnM.pushValue (← Variable.value (← memberVariable node .memberI object)))
    rfl fun p => .look fun _ _ => .look fun v _ => p.pushValue.mono fun _ _ p => ⟨v, p⟩

theorem memberAddressI_reduces : Reduces (.node .memberAddressI fs ks ps) memberAddressI :=
  borrowing_reduces (x := fun node object => do
    TurnM.pushValue (← memberVariable node .memberAddressI object))
    rfl fun p => .look fun v _ => p.pushValue.mono fun _ _ p => ⟨v, p⟩

/-- The method of a value is owned then. -/
theorem methodOf_finds [k.KeptByTurns] {base : Address} {name : String}
    (p : Plays t k σ τ (n + 1) O s) :
    Yields (methodOf base name) s fun m s' => Plays t k σ τ n (m ::ₘ O) s' := by
  have less := p.weaken (Nat.le_succ n)
  refine .look fun view _ => ?_
  split
  · refine .look fun owner _ => .ofThread fun structs _ => .look fun found _ => ?_
    split
    · exact p.reference.mono fun m s' ⟨e, p⟩ => e ▸ p
    · exact .throw
  · exact less.makes (nativeMethod_owns less.knows)
  · exact less.makes (nativeMethod_owns less.knows)
  · exact .throw
  · exact .throw

/-- A method is bound to what is owned. -/
theorem bindMethod_binds [k.KeptByTurns] {receiver : Address} (p : Plays t k σ τ (n + 2) O s)
    (there : receiver ∈ O) :
    Yields (bindMethod node receiver) s fun m s' => Plays t k σ τ (n + 1) (m ::ₘ O) s' := by
  refine .look fun key _ => .look fun name _ => .look fun base _ => ?_
  refine (methodOf_finds p).bind fun callee s₁ p₁ => ?_
  refine p₁.act (Yields.afterwards (p₁.knows.boundMethod (fun b hb => ?_)) fun m h₂ g₂ =>
    g₂.swap.free)
  simp only [List.mem_cons, List.not_mem_nil, or_false] at hb
  rcases hb with rfl | rfl
  · exact p₁.knows.live_of_mem (Multiset.mem_cons_self ..)
  · exact p₁.knows.live_of_mem (Multiset.mem_cons_of_mem there)

theorem methodMemberI_reduces : Reduces (.node .methodMemberI fs ks ps) methodMemberI := by
  intro k t σ τ n O s node _ _ p hc
  refine p.popValue.bind fun receiver s₁ ⟨_, p₁⟩ => ?_
  refine (Plays.making (l := [receiver]) (bindMethod_binds p₁ (Multiset.mem_cons_self ..))).bind
    fun m s₂ p₂ => ?_
  exact p₂.pushValueOwned.mono fun _ _ p₃ => ⟨_, p.restore p₃, .values (V := [m]) rfl rfl⟩

/-! ## Elements and windows -/

/-- An object and an index. -/
theorem evaluateAt_reduces {next : Tag} (st : Stands (.node tag fs ks ps)) (ht : tag.isSplit)
    (control : next.isControl)
    (h : ∀ {t' fs' ops}, tag.split? fs ps = some (t', fs', ops) → ∃ object i, ps = [object, i] ∧
      (t', fs', ops) = (next, [], [object, i])) :
      Reduces (.node tag fs ks ps) (evaluateAt tag next) := by
  intro k t σ τ n O s node _ _ p hc
  obtain ⟨t', fs', ops, split, inner⟩ := st.split ht
  obtain ⟨object, i, rfl, e⟩ := h split
  cases e
  refine .look fun a readO => .look fun b readI => ?_
  have isNode : ∀ c ∈ [object, i], c.IsNode := fun c hc => (inner c hc).isNode
  exact reduceTo_schedules p control (by simp) (p.data_parts [])
    (.cons (.inr (p.child hc readO rfl (isNode _ (by simp))))
    (.cons (.inr (p.child hc readI rfl (isNode _ (by simp)))) .nil))
    (split.trans (by rw [Code.filter_isThere isNode]))

theorem index_reduces (st : Stands (.node .index fs ks ps)) :
    Reduces (.node .index fs ks ps) index :=
  evaluateAt_reduces st rfl rfl fun h => by
    rcases ps with _ | ⟨object, _ | ⟨i, _ | _⟩⟩ <;> simp [Tag.split?] at h ⊢
    exact ⟨h.1.symm, h.2.1, h.2.2.symm⟩

theorem indexAddress_reduces (st : Stands (.node .indexAddress fs ks ps)) :
    Reduces (.node .indexAddress fs ks ps) indexAddress :=
  evaluateAt_reduces st rfl rfl fun h => by
    rcases ps with _ | ⟨object, _ | ⟨i, _ | _⟩⟩ <;> simp [Tag.split?] at h ⊢
    exact ⟨h.1.symm, h.2.1, h.2.2.symm⟩

theorem indexWith_reduces {addressable : Bool} (h : tag.operands? fs = some (2, 1)) :
    Reduces (.node tag fs ks ps) fun _ => indexWith addressable := by
  intro k t σ τ n O s node _ _ p hc
  refine p.popValue.bind fun i s₁ ⟨_, p₁⟩ => ?_
  refine p₁.popValue.bind fun object s₂ ⟨_, p₂⟩ => ?_
  refine (Plays.leaving (l := [i, object]) (.look fun v _ => p₂.swap.pushValue.mono fun _ _ p =>
    ⟨v, p⟩)).mono
    fun _ s' ⟨v, p₃⟩ => ⟨_, p.restore p₃, .values (V := [v]) h (by simp)⟩

theorem indexI_reduces : Reduces (.node .indexI fs ks ps) indexI := indexWith_reduces rfl

theorem indexAddressI_reduces : Reduces (.node .indexAddressI fs ks ps) indexAddressI :=
    indexWith_reduces rfl

theorem sliceExpr_reduces (st : Stands (.node .sliceExpr fs ks ps)) :
    Reduces (.node .sliceExpr fs ks ps) sliceExpr := by
  intro k t σ τ n O s node _ _ p hc
  obtain ⟨t', fs', ops, h, inner⟩ := st.split rfl
  rcases fs with _ | ⟨low, _ | ⟨high, _ | _⟩⟩ <;> simp [Tag.split?] at h
  obtain ⟨rfl, rfl, rfl⟩ := h
  refine .look fun a readL => .look fun b readH => .look fun l read => ?_
  obtain rfl : low = a := by simpa using p.field_read hc readL
  obtain rfl : high = b := by simpa using p.field_read hc readH
  obtain rfl := p.children_read hc read
  have standing : k.Standing l ps := p.standing hc 0 fun c hc ne =>
    (inner c (List.mem_filter.2 ⟨hc, by cases c <;> first | rfl | exact absurd rfl ne⟩)).isNode
  exact reduceTo_schedules p rfl (by simp) (p.data_parts []) standing rfl

/-- A bound is taken off the stash if there is one. -/
theorem popBound_pops [k.KeptByTurns] [k.Runner t] {present : UInt64}
    (p : Plays t k σ τ (n + 3) O s) :
    Yields (popBound present) s fun v s' =>
      Plays t k σ { τ with stash := τ.stash.drop (flagCount present) } (n + 2) (v ::ₘ O) s' := by
  unfold popBound flagCount
  split
  · exact .pure (Plays.cons_nil.2 (p.weaken (Nat.le_succ _)))
  · exact p.popValue.mono fun _ _ ⟨_, p⟩ => p

theorem sliceExprI_reduces (st : Stands (.node .sliceExprI fs ks ps)) :
    Reduces (.node .sliceExprI fs ks ps) sliceExprI := by
  intro k t σ τ n O s node _ _ p hc
  obtain ⟨low, high, rfl⟩ := st.sliceExprI
  refine .look fun b readH => (popBound_pops p).bind fun high' s₁ p₁ => ?_
  refine .look fun a readL => (popBound_pops p₁).bind fun low' s₂ p₂ => ?_
  refine p₂.popValue.bind fun object s₃ ⟨_, p₃⟩ => ?_
  obtain rfl : high = b := by simpa using p.field_read hc readH
  obtain rfl : low = a := by simpa using p₁.field_read hc readL
  have p₃ : Plays t k σ _ (n + maxSlots + 13) (laden [high', low', object] O) s₃ := ⟨p₃.thread, by
    convert p₃.knows using 1
    simp only [Heap.laden_eq, ← Multiset.cons_coe, ← Multiset.singleton_add, Multiset.coe_nil]
    abel⟩
  refine (Plays.making (l := [high', low', object]) (p₃.makes (window_owns p₃.knows))).bind
    fun v s₄ p₄ => ?_
  refine p₄.pushValueOwned.mono fun _ _ p₅ => ⟨_, p.restore p₅, .values (V := [v]) rfl ?_⟩
  simp only [List.drop_drop, show flagCount high + flagCount low + 1 =
    1 + flagCount low + flagCount high by omega]
  rfl

/-! ## Construction -/

theorem make_reduces (st : Stands (.node .make fs ks ps)) :
    Reduces (.node .make fs ks ps) make := by
  intro k t σ τ n O s node _ _ p hc
  obtain ⟨t', fs', ops, h, inner⟩ := st.split rfl
  rcases fs with _ | ⟨argc, _ | _⟩ <;> simp [Tag.split?] at h
  obtain ⟨rfl, rfl, rfl⟩ := h
  refine .look fun w read => .look fun l readL => ?_
  obtain rfl : argc = w := by simpa using p.field_read hc read
  obtain rfl := p.children_read hc readL
  have isNode : ∀ c ∈ ps.drop 1, c.IsNode := fun c hc => (inner c (by simpa using hc)).isNode
  exact reduceTo_schedules p rfl (fun b hb => p.part_live hc (List.mem_of_mem_take hb))
    (p.data_parts _)
    (p.standing hc 1 fun c hc _ => isNode c hc) (by rw [Code.filter_isThere isNode]; rfl)

theorem makeValue_makes [k.KeptByTurns] [k.Runner t] {type : Address} {args : List Address}
    (p : Plays t k σ τ (n + 1) O s) :
    Yields (makeValue type args) s fun a s' => Plays t k σ τ (n + 1) (a ::ₘ O) s' := by
  refine .look fun sizes _ => .ofThread fun structs _ => .look fun tag _ => ?_
  split
  · exact .look fun elem _ => p.makes (Slice.make_makes p.knows)
  · exact .look fun elem _ => p.act p.knows.channel
  · exact .throw

theorem makeI_reduces (st : Stands (.node .makeI fs ks ps)) :
    Reduces (.node .makeI fs ks ps) makeI := by
  intro k t σ τ n O s node _ _ p hc
  obtain ⟨argc, rfl⟩ := st.counted (by simp)
  refine .look fun w read => .look fun type _ => ?_
  obtain rfl : argc = w := by simpa using p.field_read hc read
  exact making_reduces rfl makeValue_makes p

theorem zero_reduces : Reduces (.node .zero fs ks ps) zero := by
  intro k t σ τ n O s node _ _ p hc
  refine .look fun type _ => .ofThread fun structs _ => ?_
  exact (p.makes (zeroValue_makes p.knows)).bind fun v s₁ p₁ => p₁.pushValueOwned.mono fun _ _ p₂ =>
    ⟨_, p₂, .values (m := 0) (V := [v]) rfl (by simp)⟩

theorem constructor_reduces (st : Stands (.node .constructor fs ks ps)) :
    Reduces (.node .constructor fs ks ps) constructor := by
  intro k t σ τ n O s node _ _ p hc
  obtain ⟨t', fs', ops, h, inner⟩ := st.split rfl
  simp only [Tag.split?, Option.some.injEq, Prod.mk.injEq] at h
  obtain ⟨rfl, rfl, rfl⟩ := h
  refine .look fun l readL => ?_
  obtain rfl := p.children_read hc readL
  have isNode : ∀ c ∈ ps.drop 1, c.IsNode := fun c hc => (inner c hc).isNode
  have standing := p.standing hc 1 fun c hc _ => isNode c hc
  refine reduceTo_schedules p rfl (fun b hb => p.part_live hc (List.mem_of_mem_take hb))
    (p.data_parts _) standing ?_
  rw [Code.filter_isThere isNode, List.Forall₂.length_eq standing]
  rfl

theorem composite_makes [k.KeptByTurns] [k.Runner t] {type : Address} {values : List Address}
    (p : Plays t k σ τ (n + 1) O s) :
    Yields (composite type values) s fun a s' => Plays t k σ τ (n + 1) (a ::ₘ O) s' := by
  refine .ofThread fun structs _ => .look fun tag _ => ?_
  split
  · refine .look fun elem _ => .look fun size _ => .guard fun _ => ?_
    refine (p.makes (ArrayValue.zeroed_makes p.knows)).bind fun arr s₁ p => ?_
    exact (p.makes (Slice.store_owns p.knows)).bind fun _ _ p => .pure p
  · refine .look fun elem _ => (p.makes (ArrayValue.ofValues_owns p.knows)).bind fun arr s₁ p => ?_
    refine p.makes (Pays.releasing ?_)
    exact (Slice.create_owns p.knows).mono fun _ _ g => g.swap
  · exact .throw

theorem constructorI_reduces (st : Stands (.node .constructorI fs ks ps)) :
    Reduces (.node .constructorI fs ks ps) constructorI := by
  intro k t σ τ n O s node _ _ p hc
  obtain ⟨count, rfl⟩ := st.counted (by simp)
  refine .look fun w read => .look fun type _ => ?_
  obtain rfl : count = w := by simpa using p.field_read hc read
  exact making_reduces rfl composite_makes p

theorem structLiteral_reduces (st : Stands (.node .structLiteral fs ks ps)) :
    Reduces (.node .structLiteral fs ks ps) structLiteral := by
  intro k t σ τ n O s node _ _ p hc
  obtain ⟨t', fs', ops, h, inner⟩ := st.split rfl
  rcases fs with _ | ⟨count, _ | _⟩ <;> simp [Tag.split?] at h
  obtain ⟨rfl, rfl, rfl⟩ := h
  refine .look fun w read => .look fun l readL => ?_
  obtain rfl : count = w := by simpa using p.field_read hc read
  obtain rfl := p.children_read hc readL
  have isNode : ∀ c ∈ ps.drop (1 + count.toNat), c.IsNode := fun c hc => (inner c hc).isNode
  exact reduceTo_schedules p rfl (fun b hb => p.part_live hc (List.mem_of_mem_take hb))
    (p.data_parts _)
    (p.standing hc _ fun c hc _ => isNode c hc) (by rw [Code.filter_isThere isNode]; rfl)

theorem structOf_makes [k.KeptByTurns] [k.Runner t] {values : List Address}
    (p : Plays t k σ τ (n + 1) O s) :
    Yields (structOf node values) s fun a s' => Plays t k σ τ (n + 1) (a ::ₘ O) s' := by
  refine .look fun key _ => .look fun name _ => .ofThread fun structs _ => .look fun decl _ => ?_
  refine (p.makes (StructValue.zeroed_makes p.knows)).bind fun a s₁ p => ?_
  exact (p.makes (Slice.store_owns p.knows)).bind fun _ _ p => .pure p

theorem structLiteralI_reduces (st : Stands (.node .structLiteralI fs ks ps)) :
    Reduces (.node .structLiteralI fs ks ps) structLiteralI := by
  intro k t σ τ n O s node _ _ p hc
  obtain ⟨count, rfl⟩ := st.counted (by simp)
  refine .look fun w read => ?_
  obtain rfl : count = w := by simpa using p.field_read hc read
  exact making_reduces rfl structOf_makes p

/-! ## Pointers -/

/-- The operand of a node with one. -/
theorem operand_schedules {next : Tag} (st : Stands (.node tag fs ks ps)) (ht : tag.isSplit)
    (control : next.isControl)
    (h : ∀ {t' fs' ops}, tag.split? fs ps = some (t', fs', ops) → ∃ operand, ps = [operand] ∧
      (t', fs', ops) = (next, [], [operand])) :
      Reduces (.node tag fs ks ps) (derefWith tag next) := by
  intro k t σ τ n O s node _ _ p hc
  obtain ⟨t', fs', ops, split, inner⟩ := st.split ht
  obtain ⟨operand, rfl, e⟩ := h split
  cases e
  refine .look fun b read => ?_
  have contains := p.child hc read rfl (inner operand (by simp)).isNode
  exact (p.pushUnit control).bind fun _ s₁ ⟨new, p⟩ => (p.push contains).mono fun _ _ p =>
    ⟨_, p, .halves (E := [⟨_, _⟩]) split rfl rfl rfl rfl⟩

theorem addressOf_reduces (st : Stands (.node .addressOf fs ks ps)) :
    Reduces (.node .addressOf fs ks ps) addressOf :=
  operand_schedules st rfl rfl fun h => by
    rcases ps with _ | ⟨operand, _ | _⟩ <;> simp [Tag.split?] at h ⊢
    exact ⟨h.1.symm, h.2.1, h.2.2.symm⟩

theorem deref_reduces (st : Stands (.node .deref fs ks ps)) :
    Reduces (.node .deref fs ks ps) deref :=
  operand_schedules st rfl rfl fun h => by
    rcases ps with _ | ⟨operand, _ | _⟩ <;> simp [Tag.split?] at h ⊢
    exact ⟨h.1.symm, h.2.1, h.2.2.symm⟩

theorem derefAddress_reduces (st : Stands (.node .derefAddress fs ks ps)) :
    Reduces (.node .derefAddress fs ks ps) derefAddress :=
  operand_schedules st rfl rfl fun h => by
    rcases ps with _ | ⟨operand, _ | _⟩ <;> simp [Tag.split?] at h ⊢
    exact ⟨h.1.symm, h.2.1, h.2.2.symm⟩

theorem addressOfI_reduces : Reduces (.node .addressOfI fs ks ps) addressOfI := by
  intro k t σ τ n O s node _ _ p hc
  refine p.popValue.bind fun operand s₁ ⟨_, p₁⟩ => .look fun tag _ => ?_
  have point : ∀ target s₂,
      Plays t k σ { τ with stash := τ.stash.drop 1 } (n + maxSlots + 15) (target ::ₘ O) s₂ →
      Yields (do TurnM.pushValueOwned (← TurnM.releasing [target] (Pointer.create target)))
        s₂ fun _ s' => ∃ τ', Plays t k σ τ' (n + maxSlots + 16) O s' ∧
          τ.Makes (.node .addressOfI fs ks ps) τ' := by
    intro target s₂ p₂
    refine (Plays.making (l := [target]) (p₂.makes (Pointer.create_owns p₂.knows))).bind
      fun v s₃ p₃ => ?_
    exact p₃.pushValueOwned.mono fun _ _ p₄ => ⟨_, p.restore p₄, .values (V := [v]) rfl rfl⟩
  split
  · exact (Yields.pure (Q := fun target s' =>
      Plays t k σ _ (n + maxSlots + 15) (target ::ₘ O) s') p₁).bind point
  · exact (p₁.makes (Variable.createOwned_owns p₁.knows)).bind point

theorem derefI_reduces : Reduces (.node .derefI fs ks ps) derefI :=
  borrowing_reduces (x := fun _ pointer => do
    TurnM.pushValue (← Display.pointee (← Pointer.target pointer)))
    rfl fun p => .look fun _ _ => .look fun v _ => p.pushValue.mono fun _ _ p => ⟨v, p⟩

theorem derefAddressI_reduces : Reduces (.node .derefAddressI fs ks ps) derefAddressI :=
  borrowing_reduces (x := fun _ pointer => do TurnM.pushValue (← pointedVariable pointer))
    rfl fun p => .look fun v _ => p.pushValue.mono fun _ _ p => ⟨v, p⟩

end Machine
end GoMachine
