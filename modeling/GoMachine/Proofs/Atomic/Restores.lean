import GoMachine.Proofs.Heap.Raise
/-!
# Builders that clean up

A computation that builds something may run out of memory at each record that it needs. `Restores`
says that it then drops all that it has built, and hands back no more than what its caller owned.
Faults of someone who does not stick to the rules of the heap are left out: a record has the tag and
the slots that it was made with.

* `Lawful`: the primitives other than `allocate` fail only in that way.
* `Restores.bind`, `Restores.forIn`: computations in sequence.
* `Restores.orRelease`, `Restores.releasing`: references that are dropped when something fails.
-/
namespace GoMachine

open Heap (Raised)

/-! ## Faults against the rules -/

namespace Heap

/-- Only someone who does not stick to the rules gets no answer. -/
def Strict {α : Type} (r : Except HeapError α) : Prop := ∀ e, r = .error e →
    (Fault.heap e).isProtocol

section

variable {α β : Type} {h h' : Heap} {a b : Address} {t : Tag} {i : Nat} {w : UInt64} {e : HeapError}

theorem Strict.bind {r : Except HeapError α} {f : α → Except HeapError β} (hr : Strict r)
    (hf : ∀ a, r = .ok a → Strict (f a)) : Strict (r >>= f) := by
  intro e run
  cases r with
  | error e' =>
    cases run
    exact hr e rfl
  | ok a => exact hf a rfl e run

theorem Strict.pure {a : α} : Strict (Pure.pure a) := fun _ run => by cases run

theorem Strict.throw {e : HeapError} (he : (Fault.heap e).isProtocol) :
    Strict (MonadExcept.throw e : Except _ α) :=
  fun _ run => by cases run; exact he

theorem shape_strict : Strict (h.shape a) := by
  unfold shape header
  split_ifs
  · exact Strict.pure
  · exact Strict.pure
  · exact Strict.throw rfl

theorem tagOf_strict {hd : Header} : Strict (tagOf a hd) := by
  unfold tagOf
  split
  · exact Strict.pure
  · exact Strict.throw rfl

theorem tag_strict : Strict (h.tag a) := Strict.bind shape_strict fun _ _ => tagOf_strict

theorem shapeAs_strict : Strict (h.shapeAs a t) := by
  refine Strict.bind shape_strict fun hd _ => ?_
  split
  · exact Strict.pure
  · exact Strict.bind tagOf_strict fun _ _ => Strict.throw rfl

theorem fieldSlot_strict : Strict (h.fieldSlot a t i) := by
  refine Strict.bind shapeAs_strict fun hd _ => ?_
  split
  · exact Strict.pure
  · exact Strict.throw rfl

theorem childSlot_strict : Strict (h.childSlot a t i) := by
  refine Strict.bind shapeAs_strict fun hd _ => ?_
  split
  · exact Strict.pure
  · exact Strict.throw rfl

theorem field_strict : Strict (h.field a t i) := Strict.bind fieldSlot_strict fun _ _ => Strict.pure

theorem child_strict : Strict (h.child a t i) := Strict.bind childSlot_strict fun _ _ => Strict.pure

theorem refCount_strict : Strict (h.refCount a) := by
  unfold refCount
  split
  · exact Strict.pure
  · unfold header
    split_ifs
    · exact Strict.bind Strict.pure fun _ _ => Strict.pure
    · exact Strict.bind (Strict.throw rfl) fun _ _ => Strict.pure

theorem drain_strict {l : List Address} (run : h.drain l = .error e h') :
    (Fault.heap e).isProtocol := by
  induction h, l using drain.induct with
  | case1 h => rw [drain] at run; cases run
  | case2 h a rest hn ih => rw [drain, if_pos hn] at run; exact ih run
  | case3 h a rest hn hl count h0 =>
    rw [drain, if_neg hn, dif_pos hl] at run
    dsimp only at run
    rw [if_pos h0] at run
    cases run
    rfl
  | case4 h a rest hn hl count h0 hd next pool last q hq ih =>
    rw [drain, if_neg hn, dif_pos hl] at run
    dsimp only at run
    rw [if_neg h0, if_pos last, show (h.pool.setWord _ _).deallocate a.index = .ok q from hq] at run
    exact ih run
  | case5 h a rest hn hl count h0 hd pool last e' he =>
    rw [drain, if_neg hn, dif_pos hl] at run
    dsimp only at run
    rw [if_neg h0, if_pos last, show (h.pool.setWord _ _).deallocate a.index =
      .error e' from he] at run
    cases run
    unfold Pool.deallocate at he
    dsimp only at he
    split_ifs at he <;> cases he <;> rfl
  | case6 h a rest hn hl count h0 hd pool kept ih =>
    rw [drain, if_neg hn, dif_pos hl] at run
    dsimp only at run
    rw [if_neg h0, if_neg kept] at run
    exact ih run
  | case7 h a rest hn hl =>
    rw [drain, if_neg hn, dif_neg hl] at run
    cases run
    rfl

end
end Heap

/-- A computation fails only where someone does not stick to the rules of the heap. -/
def Lawful {α : Type} (x : Action α) : Prop := ∀ h e h', x h = .error e h' → e.isProtocol

namespace Lawful

variable {α β : Type} {x : Action α} {f : α → Action β} {a b : Address} {t : Tag} {i : Nat}
    {w : UInt64}

theorem heap {x : HeapM α} (hx : ∀ h e h', x h = .error e h' → (Fault.heap e).isProtocol) :
    Lawful (liftM x : Action α) := by
  intro h e h' run
  simp only [liftM, monadLift, MonadLift.monadLift] at run
  split at run <;> cases run
  exact hx h _ _ ‹_›

theorem query {q : Heap → Except HeapError α} (hq : ∀ h, Heap.Strict (q h)) :
    Lawful (liftM (Query.ofHeap q) : Action α) := by
  intro h e h' run
  simp only [liftM, monadLift, MonadLift.monadLift, Query.ofHeap] at run
  cases asked : q h <;> rw [asked] at run <;> cases run
  exact hq h _ asked

theorem ask {q : Heap → Except HeapError α} {f : α → HeapM β} {h h' : Heap} {e : HeapError}
    (hq : Heap.Strict (q h)) (hf : ∀ a h₁, f a h₁ = .error e h' → (Fault.heap e).isProtocol)
    (run : (HeapM.ask q >>= f) h = .error e h') : (Fault.heap e).isProtocol := by
  simp only [bind, EStateM.bind, HeapM.ask] at run
  cases asked : q h with
  | error e' =>
    rw [asked] at run
    cases run
    exact hq _ asked
  | ok a =>
    rw [asked] at run
    exact hf a h run

theorem free : Lawful (liftM (HeapM.free a) : Action Unit) := heap fun _ _ _ => Heap.drain_strict

theorem setField : Lawful (liftM (HeapM.setField a t i w) : Action Unit) :=
  heap fun _ _ _ => ask Heap.fieldSlot_strict fun _ _ run => by cases run

theorem setChildOwned_heap {h h' : Heap} {e : HeapError}
    (run : HeapM.setChildOwned a t i b h = .error e h') :
    (Fault.heap e).isProtocol :=
  ask Heap.childSlot_strict (fun _ _ run => Heap.drain_strict run) run

theorem setChildOwned : Lawful (liftM (HeapM.setChildOwned a t i b) : Action Unit) :=
  heap fun _ _ _ => setChildOwned_heap

theorem reference_heap {h h' : Heap} {e : HeapError} (run : HeapM.reference a h = .error e h') :
    (Fault.heap e).isProtocol := by
  unfold HeapM.reference at run
  split at run
  · cases run
  · exact ask Heap.refCount_strict (fun _ _ run => by cases run) run

theorem reference : Lawful (liftM (HeapM.reference a) : Action Address) := heap fun _ _ _ =>
    reference_heap

theorem setChild : Lawful (liftM (HeapM.setChild a t i b) : Action Unit) := by
  refine heap fun h e h' run => ?_
  simp only [HeapM.setChild, bind, EStateM.bind] at run
  split at run
  · exact setChildOwned_heap run
  · next asked =>
    cases run
    exact reference_heap asked

theorem child : Lawful (liftM (Query.child a t i) : Action Address) :=
    query fun _ => Heap.child_strict

theorem field : Lawful (liftM (Query.field a t i) : Action UInt64) :=
    query fun _ => Heap.field_strict

theorem tag : Lawful (liftM (Query.tag a) : Action Tag) := query fun _ => Heap.tag_strict

theorem bind (hx : Lawful x) (hf : ∀ a, Lawful (f a)) : Lawful (x >>= f) := by
  intro h e h' run
  simp only [Bind.bind, EStateM.bind] at run
  split at run
  · exact hf _ _ e h' run
  · next failed =>
    cases run
    exact hx h _ _ failed

end Lawful

/-! ## Cleaning up -/

section

variable {α β γ : Type} {P B F O : Multiset Address} {h₀ h : Heap} {ρ : Address → ℚ} {n : Nat}
  {x : Action α} {f : α → Action β} {a b : Address} {Q Q' : α → Heap → Prop} {R : β → Heap → Prop}

/-- The computation ends as `Q` says, or fails when all that is left of what was built is `F`. -/
def Restores (P B : Multiset Address) (h₀ : Heap) (n : Nat) (F : Multiset Address) (x : Action α)
    (h : Heap)
    (Q : α → Heap → Prop) : Prop :=
  Ends (fun e h' => e.isProtocol = false → ∃ ρ, Raised P B h₀ ρ n F h') x h Q

namespace Restores

theorem mono (hx : Restores P B h₀ n F x h Q) (imp : ∀ a h', Q a h' → Q' a h') :
    Restores P B h₀ n F x h Q' :=
  Ends.mono hx imp

theorem bind (hx : Restores P B h₀ n F x h Q) (hf : ∀ a h', Q a h' →
    Restores P B h₀ n F (f a) h' R) :
    Restores P B h₀ n F (x >>= f) h R :=
  Ends.bind hx hf

theorem pure {a : α} (done : Q a h) : Restores P B h₀ n F (Pure.pure a : Action α) h Q :=
    Ends.pure done

theorem throw {e : Fault} (g : Raised P B h₀ ρ n F h) :
    Restores P B h₀ n F (MonadExcept.throw e : Action α) h Q :=
  Ends.throw fun _ => ⟨ρ, g⟩

/-- What cannot fail but against the rules. -/
theorem lawful (law : Lawful x) (hx : Yields x h Q) : Restores P B h₀ n F x h Q := by
  cases run : x h with
  | ok a h' => exact .inl ⟨a, h', run, hx a h' run⟩
  | error e h' => exact .inr ⟨e, h', run, fun other => by rw [law h e h' run] at other; cases other⟩

/-- What leaves the heap as it was when it fails. -/
theorem still (g : Raised P B h₀ ρ n F h) (hx : Yields x h Q) (same : ∀ e h', x h = .error e h' →
    h' = h) :
    Restores P B h₀ n F x h Q := by
  cases run : x h with
  | ok a h' => exact .inl ⟨a, h', run, hx a h' run⟩
  | error e h' => exact .inr ⟨e, h', run, fun _ => ⟨ρ, same e h' run ▸ g⟩⟩

theorem query {q : Query α} (g : Raised P B h₀ ρ n F h) (hq : ∀ a, q h = .ok a → Q a h) :
    Restores P B h₀ n F (liftM q : Action α) h Q := by
  refine still g (Yields.query hq) fun e h' run => ?_
  simp only [liftM, monadLift, MonadLift.monadLift] at run
  split at run <;> cases run
  rfl

/-- A question in front of other things. -/
theorem read {q : Query α} (g : Raised P B h₀ ρ n F h)
    (hf : ∀ a, q h = .ok a → Restores P B h₀ n F (f a) h R) :
    Restores P B h₀ n F (liftM q >>= f) h R :=
  bind (query (Q := fun a h' => q h = .ok a ∧ h' = h) g fun _ e => ⟨e, rfl⟩) fun a _ ⟨e, same⟩ =>
  same ▸ hf a e

/-- A check that fails ends the computation. -/
theorem guard {c : Prop} [Decidable c] {e : Fault} {y : Action β} (g : Raised P B h₀ ρ n F h)
    (hy : ¬c → Restores P B h₀ n F y h R) :
    Restores P B h₀ n F (if c then MonadExcept.throw e >>= f else y) h R := by
  split
  · exact Restores.bind (Q := fun _ _ => False) (throw g) fun _ _ k => k.elim
  · next k => exact hy k

/-- A loop over a list, with what holds when a part of the list is left. -/
theorem forIn {l : List γ} {body : γ → PUnit → Action (ForInStep PUnit)} {I : List γ → Heap → Prop}
    (start : I l h) (turn : ∀ c rest h, c ∈ l → I (c :: rest) h →
      Restores P B h₀ n F (body c ⟨⟩) h fun r h' => r = .yield ⟨⟩ ∧ I rest h') :
    Restores P B h₀ n F (ForIn.forIn l PUnit.unit body) h fun _ => I [] := by
  induction l generalizing h with
  | nil => exact pure start
  | cons c l ih =>
    rw [List.forIn_cons]
    refine (turn c l h List.mem_cons_self start).bind fun r h' ⟨e, k⟩ => ?_
    subst e
    exact ih k fun d rest h hd => turn d rest h (List.mem_cons_of_mem c hd)

/-- A reference is dropped after a failure. -/
theorem drops {e : Fault} (left : e.isProtocol = false → ∃ ρ, Raised P B h₀ ρ n (a ::ₘ F) h) :
    Restores P B h₀ n F (liftM (HeapM.free a) : Action Unit) h
      fun _ h' => e.isProtocol = false → ∃ ρ, Raised P B h₀ ρ n F h' :=
  lawful Lawful.free fun _ h' run other => by
    obtain ⟨ρ, g⟩ := left other
    exact ⟨ρ, (g.free.heap.yields _ _ run).1⟩

/-- A reference is dropped if the computation fails, and there is nothing else to drop then. -/
theorem orRelease (hx : Restores P B h₀ n (a ::ₘ F) x h Q) :
    Restores P B h₀ n F (Action.orRelease a x) h Q := by
  refine (Ends.attempt hx).before ?_
  rintro _ h' (⟨b, rfl, done⟩ | ⟨e, rfl, left⟩)
  · exact pure done
  · exact (drops left).bind fun _ _ left => Ends.throw left

/-- A reference is dropped however the computation ends. -/
theorem releasing (hx : Restores P B h₀ n (a ::ₘ F) x h Q)
    (done : ∀ b h', Q b h' → Gives (HeapM.free a) h' fun _ h'' => Q' b h'') :
    Restores P B h₀ n F (Action.releasing a x) h Q' := by
  refine (Ends.attempt hx).before ?_
  rintro _ h' (⟨b, rfl, ended⟩ | ⟨e, rfl, left⟩)
  · exact (done b h' ended).heap.before fun _ h'' ended => .inl ⟨b, h'', rfl, ended⟩
  · exact (drops left).bind fun _ h'' left => .inr ⟨e, h'', rfl, left⟩

end Restores
end
end GoMachine
