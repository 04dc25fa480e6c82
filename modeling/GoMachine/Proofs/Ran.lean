import Mathlib.Control.Basic
import GoMachine.Fault
/-!
# Computations that ended well

Each lemma takes a computation that ended with a result apart: a sequence into its parts, a lifted
question or action into the question or action itself.

* `bind_ok`: the first part ended well, and the second from there.

`Yields x s Q` says that a computation that ends with a result ends as `Q` says. A sequence is taken
apart by `Yields.bind`, a loop by `Yields.forIn`, and what is lifted by `Yields.heap`,
`Yields.query` and `Yields.turn`.
-/
namespace GoMachine

section Pure

variable {ε α β : Type} {x : Except ε α} {f : α → Except ε β} {b : β}

theorem except_bind_ok : (x >>= f) = .ok b ↔ ∃ a, x = .ok a ∧ f a = .ok b := by
  cases x <;> simp [bind, Except.bind]

theorem except_pure_ok {a a' : α} : (pure a : Except ε α) = .ok a' ↔ a = a' := by
  simp [pure, Except.pure]

theorem except_throw_ok {e : ε} {a : α} : (throw e : Except ε α) = .ok a ↔ False := by
  simp [throw, throwThe, MonadExceptOf.throw]

theorem query_bind_ok {q : Query α} {f : α → Query β} {h : Heap} {b : β} :
    (q >>= f) h = .ok b ↔ ∃ a, q h = .ok a ∧ f a h = .ok b := by
  simp only [bind, ReaderT.bind]
  exact except_bind_ok

theorem query_pure_ok {a a' : α} {h : Heap} : (pure a : Query α) h = .ok a' ↔ a = a' := by
  simp [pure, ReaderT.pure, Except.pure]

theorem query_throw_ok {e : Fault} {a : α} {h : Heap} : (throw e : Query α) h = .ok a ↔ False := by
  simp [throw, throwThe, MonadExceptOf.throw, liftM, monadLift, MonadLift.monadLift]

theorem query_read_ok {h h' : Heap} : (read : Query Heap) h = .ok h' ↔ h = h' := by
  simp [read, readThe, MonadReaderOf.read, ReaderT.read, pure, Except.pure]

theorem ofHeap_ok {q : Heap → Except HeapError α} {h : Heap} {a : α} :
    Query.ofHeap q h = .ok a ↔ q h = .ok a := by
  unfold Query.ofHeap
  split <;> simp_all

end Pure

section State

variable {ε σ α β : Type} {x : EStateM ε σ α} {f : α → EStateM ε σ β} {s s' s'' : σ} {a : α} {b : β}

theorem bind_ok : (x >>= f) s = .ok b s'' ↔ ∃ a s', x s = .ok a s' ∧ f a s' = .ok b s'' := by
  simp only [bind, EStateM.bind]
  cases x s with
  | ok a s' =>
    refine ⟨fun h => ⟨a, s', rfl, h⟩, ?_⟩
    rintro ⟨_, _, e, h⟩
    cases e
    exact h
  | error e s' => simp

theorem pure_ok {a' : α} : (pure a : EStateM ε σ α) s = .ok a' s' ↔ a = a' ∧ s = s' := by
  simp [pure, EStateM.pure]

theorem throw_ok {e : ε} : (throw e : EStateM ε σ α) s = .ok a s' ↔ False := by
  change EStateM.Result.error e s = .ok a s' ↔ False
  simp

theorem get_ok {t : σ} : (get : EStateM ε σ σ) s = .ok t s' ↔ s = t ∧ s = s' := by
  change EStateM.Result.ok s s = .ok t s' ↔ _
  simp

theorem set_ok {t : σ} {u : PUnit} : (set t : EStateM ε σ PUnit) s = .ok u s' ↔ t = s' := by
  change EStateM.Result.ok ⟨⟩ t = .ok u s' ↔ _
  simp

theorem modify_ok {g : σ → σ} {u : PUnit} :
    (modify g : EStateM ε σ PUnit) s = .ok u s' ↔ g s = s' := by
  change EStateM.Result.ok ⟨⟩ (g s) = .ok u s' ↔ _
  simp

theorem modifyGet_ok {g : σ → α × σ} :
    (modifyGet g : EStateM ε σ α) s = .ok a s' ↔ g s = (a, s') := by
  change EStateM.Result.ok (g s).1 (g s).2 = .ok a s' ↔ _
  simp [Prod.ext_iff]

theorem attempt_ok {σ : Type} {x : ActionOn σ α} {s s' : σ} {r : Except Fault α} :
    x.attempt s = .ok r s' ↔
      (∃ a, r = .ok a ∧ x s = .ok a s') ∨ ∃ e, r = .error e ∧ x s = .error e s' := by
  unfold ActionOn.attempt
  cases hx : x s
  · cases r <;> simp
  · cases r <;> simp

theorem conclude_ok {σ : Type} {r : Except Fault α} {s s' : σ} :
    (ActionOn.conclude r : ActionOn σ α) s = .ok a s' ↔ r = .ok a ∧ s = s' := by
  unfold ActionOn.conclude
  cases r <;> simp

end State

section Lifted

variable {α : Type} {h h' : Heap} {a : α}

theorem ask_ok {q : Heap → Except HeapError α} :
    HeapM.ask q h = .ok a h' ↔ q h = .ok a ∧ h = h' := by
  unfold HeapM.ask
  cases q h <;> simp

theorem lift_query_ok {q : Query α} : (liftM q : Action α) h = .ok a h' ↔ q h = .ok a ∧ h = h' := by
  simp only [liftM, monadLift, MonadLift.monadLift]
  cases q h <;> simp

theorem lift_heap_ok {x : HeapM α} : (liftM x : Action α) h = .ok a h' ↔ x h = .ok a h' := by
  simp only [liftM, monadLift, MonadLift.monadLift]
  cases x h <;> simp

end Lifted

/-! ## What a computation yields -/

/-- If a computation ends with a result, then the result and the state are as `Q` says. -/
def Yields {ε σ α : Type} (x : EStateM ε σ α) (s : σ) (Q : α → σ → Prop) : Prop :=
  ∀ a s', x s = .ok a s' → Q a s'

namespace Yields

section Basic

variable {ε σ α β γ : Type} {x : EStateM ε σ α} {f : α → EStateM ε σ β} {s : σ}
  {Q Q' : α → σ → Prop} {R : β → σ → Prop}

theorem mono (hx : Yields x s Q) (imp : ∀ a s', Q a s' → Q' a s') : Yields x s Q' :=
  fun a s' run => imp a s' (hx a s' run)

theorem and (hx : Yields x s Q) (hx' : Yields x s Q') : Yields x s fun a s' => Q a s' ∧ Q' a s' :=
  fun a s' run => ⟨hx a s' run, hx' a s' run⟩

theorem any : Yields x s fun _ _ => True := fun _ _ _ => trivial

theorem bind (hx : Yields x s Q) (hf : ∀ a s', Q a s' → Yields (f a) s' R) :
    Yields (x >>= f) s R := by
  intro b s'' run
  obtain ⟨a, s', h1, h2⟩ := bind_ok.1 run
  exact hf a s' (hx a s' h1) b s'' h2

/-- Something that changes nothing in front of other things. -/
theorem quiet (hx : Yields x s fun _ s' => s' = s) (hf : ∀ a, Yields (f a) s R) :
    Yields (x >>= f) s R :=
  hx.bind fun a _ e => e ▸ hf a

theorem pure {a : α} (h : Q a s) : Yields (Pure.pure a : EStateM ε σ α) s Q := by
  intro a' s' run
  obtain ⟨rfl, rfl⟩ := pure_ok.1 run
  exact h

theorem throw {e : ε} : Yields (MonadExcept.throw e : EStateM ε σ α) s Q := fun _ _ run =>
    (throw_ok.1 run).elim

/-- A check that fails ends the computation. -/
theorem guard {c : Prop} [Decidable c] {e : ε} {y : EStateM ε σ β}
    (hy : ¬c → Yields y s R) : Yields (if c then MonadExcept.throw e >>= f else y) s R := by
  split
  · exact throw.bind (Q := fun _ _ => False) fun _ _ h => h.elim
  · next h => exact hy h

theorem get {g : σ → EStateM ε σ β} (h : Yields (g s) s R) : Yields (MonadState.get >>= g) s R := by
  intro b s'' run
  obtain ⟨t, s', e, run⟩ := bind_ok.1 run
  obtain ⟨rfl, rfl⟩ := get_ok.1 e
  exact h b s'' run

theorem modify {g : σ → σ} {Q : PUnit → σ → Prop} (h : Q ⟨⟩ (g s)) :
    Yields (modify g : EStateM ε σ PUnit) s Q := by
  intro u s' run
  obtain rfl := modify_ok.1 run
  exact h

theorem modifyGet {g : σ → α × σ} (h : Q (g s).1 (g s).2) :
    Yields (MonadStateOf.modifyGet g : EStateM ε σ α) s Q := by
  intro a s' run
  have e := modifyGet_ok.1 run
  rwa [e] at h

/-- A loop over a list, with what holds when a part of the list is left. -/
theorem forIn {l : List γ} {body : γ → PUnit → EStateM ε σ (ForInStep PUnit)} {I : List γ → σ →
    Prop}
    (start : I l s)
    (turn : ∀ c rest s, I (c :: rest) s →
      Yields (body c ⟨⟩) s fun r s' => r = .yield ⟨⟩ ∧ I rest s') :
    Yields (forIn l PUnit.unit body) s fun _ => I [] := by
  induction l generalizing s with
  | nil => exact pure start
  | cons c l ih =>
    rw [List.forIn_cons]
    refine (turn c l s start).bind fun r s' ⟨e, h⟩ => ?_
    subst e
    exact ih h

theorem forM {l : List γ} {body : γ → EStateM ε σ PUnit} {I : σ → Prop} (start : I s)
    (turn : ∀ c ∈ l, ∀ s, I s → Yields (body c) s fun _ => I) :
    Yields (l.forM body) s fun _ => I := by
  induction l generalizing s with
  | nil => exact pure start
  | cons c l ih =>
    exact (turn c (by simp) s start).bind fun _ _ h => ih h fun d hd => turn d (by simp [hd])

end Basic

section Lifted

variable {α β : Type} {h : Heap} {Q : α → Heap → Prop}

theorem ask {q : Heap → Except HeapError α} {f : α → HeapM β} {R : β → Heap → Prop}
    (hf : ∀ a, q h = .ok a → Yields (f a) h R) : Yields (HeapM.ask q >>= f) h R := by
  intro b h' run
  obtain ⟨a, h₁, asked, run⟩ := bind_ok.1 run
  obtain ⟨e, rfl⟩ := ask_ok.1 asked
  exact hf a e b h' run

theorem heap {x : HeapM α} (hx : Yields x h Q) : Yields (liftM x : Action α) h Q :=
  fun a h' run => hx a h' (lift_heap_ok.1 run)

theorem query {q : Query α} (hq : ∀ a, q h = .ok a → Q a h) : Yields (liftM q : Action α) h Q := by
  intro a h' run
  obtain ⟨e, rfl⟩ := lift_query_ok.1 run
  exact hq a e

/-- A question in front of other things. -/
theorem read {q : Query α} {f : α → Action β} {R : β → Heap → Prop}
    (hf : ∀ a, q h = .ok a → Yields (f a) h R) : Yields (liftM q >>= f) h R :=
  bind (query (Q := fun a h' => q h = .ok a ∧ h' = h) fun _ e => ⟨e, rfl⟩)
    fun a _ ⟨e, same⟩ => same ▸ hf a e

theorem attempt {σ : Type} {x : ActionOn σ α} {s : σ} {Q : α → σ → Prop}
    {E : Except Fault α → σ → Prop} (hx : Yields x s Q)
    (done : ∀ a s', Q a s' → E (.ok a) s') (failed : ∀ e s', E (.error e) s') :
    Yields x.attempt s E := by
  intro r s' run
  rcases attempt_ok.1 run with ⟨a, rfl, e⟩ | ⟨e, rfl, -⟩
  · exact done a s' (hx a s' e)
  · exact failed e s'

theorem conclude {σ : Type} {r : Except Fault α} {s : σ} {Q : α → σ → Prop}
    (h : ∀ a, r = .ok a → Q a s) : Yields (ActionOn.conclude r : ActionOn σ α) s Q := by
  intro a s' run
  obtain ⟨rfl, rfl⟩ := conclude_ok.1 run
  exact h a rfl

theorem conclude_error {σ : Type} {e : Fault} {s : σ} {Q : α → σ → Prop} :
    Yields (ActionOn.conclude (.error e) : ActionOn σ α) s Q :=
  conclude fun _ e => nomatch e

/-- A reference is dropped only if an action fails. -/
theorem orRelease {a : Address} {x : Action α} (hx : Yields x h Q) :
    Yields (Action.orRelease a x) h Q := by
  refine (attempt (E := fun r h' => ∀ b, r = .ok b → Q b h') hx ?_ ?_).bind fun r h₁ done => ?_
  · rintro b h' done _ ⟨⟩
    exact done
  · rintro e h' b ⟨⟩
  cases r with
  | error e => exact any.bind fun _ _ _ => throw
  | ok b => exact pure (done b rfl)

/-- An action, and then a reference is dropped. -/
theorem afterwards {a : Address} {x : Action α} {R : α → Heap → Prop} (hx : Yields x h Q)
    (drop : ∀ b h', Q b h' → Yields (HeapM.free a) h' fun _ h'' => R b h'') :
    Yields (Action.releasing a x) h R := by
  refine (attempt (E := fun r h' => ∀ b, r = .ok b → Q b h') hx ?_ ?_).bind fun r h₁ done => ?_
  · rintro b h' done _ ⟨⟩
    exact done
  · rintro e h' b ⟨⟩
  cases r with
  | error e => exact any.bind fun _ _ _ => conclude_error
  | ok b =>
    refine (drop b h₁ (done b rfl)).heap.bind fun _ h₂ done => conclude fun b e => ?_
    cases e
    exact done

end Lifted
end Yields
end GoMachine
