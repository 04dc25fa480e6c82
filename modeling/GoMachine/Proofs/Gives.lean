import GoMachine.Proofs.Ran
/-!
# Computations that do end well

`Gives x s Q` says that a computation ends with a result, and as `Q` says. `Ends E x s Q` says that
it ends so or with an error for which `E` holds.

`Upholds I x` says that it keeps what `I` says of the state, however it ends.

* `Gives.bind`, `Gives.before`, `Ends.bind`, `Upholds.bind`: sequences.
-/
namespace GoMachine

section

variable {ε σ α β : Type}

/-- A computation ends with a result, and the result and the state are as `Q` says. -/
def Gives (x : EStateM ε σ α) (s : σ) (Q : α → σ → Prop) : Prop := ∃ a s', x s = .ok a s' ∧ Q a s'

/-- A computation ends as `Q` says, or with an error and in a state as `E` says. -/
def Ends (E : ε → σ → Prop) (x : EStateM ε σ α) (s : σ) (Q : α → σ → Prop) : Prop :=
  Gives x s Q ∨ ∃ e s', x s = .error e s' ∧ E e s'

variable {x : EStateM ε σ α} {f : α → EStateM ε σ β} {s : σ} {Q Q' : α → σ → Prop}
  {R : β → σ → Prop} {E E' : ε → σ → Prop}

theorem bind_error {e : ε} {s' : σ} (h : x s = .error e s') : (x >>= f) s = .error e s' := by
  simp only [bind, EStateM.bind, h]

namespace Gives

theorem ends (hx : Gives x s Q) : Ends E x s Q := .inl hx

theorem yields (hx : Gives x s Q) : Yields x s Q := by
  obtain ⟨a, s', run, done⟩ := hx
  intro b s'' run'
  rw [run] at run'
  cases run'
  exact done

theorem mono (hx : Gives x s Q) (imp : ∀ a s', Q a s' → Q' a s') : Gives x s Q' := by
  obtain ⟨a, s', run, done⟩ := hx
  exact ⟨a, s', run, imp a s' done⟩

theorem pure {a : α} (h : Q a s) : Gives (Pure.pure a : EStateM ε σ α) s Q := ⟨a, s, rfl, h⟩

theorem bind (hx : Gives x s Q) (hf : ∀ a s', Q a s' → Gives (f a) s' R) : Gives (x >>= f) s R := by
  obtain ⟨a, s', run, done⟩ := hx
  obtain ⟨b, s'', run', done'⟩ := hf a s' done
  exact ⟨b, s'', bind_ok.2 ⟨a, s', run, run'⟩, done'⟩

/-- Something that ends well in front of something that may not. -/
theorem before (hx : Gives x s Q) (hf : ∀ a s', Q a s' → Ends E (f a) s' R) :
    Ends E (x >>= f) s R := by
  obtain ⟨a, s', run, done⟩ := hx
  rcases hf a s' done with ⟨b, s'', run', done'⟩ | ⟨e, s'', run', failed⟩
  · exact .inl ⟨b, s'', bind_ok.2 ⟨a, s', run, run'⟩, done'⟩
  · refine .inr ⟨e, s'', ?_, failed⟩
    simp only [Bind.bind, EStateM.bind, run, run']

theorem get {g : σ → EStateM ε σ β} (h : Gives (g s) s R) : Gives (MonadState.get >>= g) s R :=
  bind (Q := fun a s' => a = s ∧ s' = s) ⟨s, s, rfl, rfl, rfl⟩ fun _ _ ⟨e, e'⟩ => e ▸ e' ▸ h

/-- A loop, with what holds after some of its turns. -/
theorem forIn {γ : Type} {l : List γ} {body : γ → PUnit → EStateM ε σ (ForInStep PUnit)}
    {I : List γ → σ → Prop} (start : I [] s) (turn : ∀ done c rest s, l = done ++ c :: rest →
      I done s → Gives (body c ⟨⟩) s fun r s' => r = .yield ⟨⟩ ∧ I (done ++ [c]) s') :
    Gives (forIn l PUnit.unit body) s fun _ => I l := by
  have go : ∀ rest done s, l = done ++ rest → I done s →
      Gives (ForIn.forIn rest PUnit.unit body) s fun _ => I l := by
    intro rest
    induction rest with
    | nil =>
      rintro done s e inv
      rw [List.append_nil] at e
      exact pure (e ▸ inv)
    | cons c rest ih =>
      rintro done s e inv
      rw [List.forIn_cons]
      refine (turn done c rest s e inv).bind ?_
      rintro _ s' ⟨rfl, inv⟩
      exact ih (done ++ [c]) s' (by simpa using e) inv
  exact go l [] s rfl start

theorem modify {g : σ → σ} {Q : PUnit → σ → Prop} (h : Q ⟨⟩ (g s)) :
    Gives (modify g : EStateM ε σ PUnit) s Q := ⟨⟨⟩, g s, rfl, h⟩

end Gives

namespace Ends

theorem yields (hx : Ends E x s Q) : Yields x s Q := by
  rcases hx with hx | ⟨e, s', run, -⟩
  · exact hx.yields
  · intro a s'' run'
    rw [run] at run'
    cases run'

theorem gives (hx : Ends (fun _ _ => False) x s Q) : Gives x s Q :=
  hx.resolve_right fun ⟨_, _, _, failed⟩ => failed

theorem mono (hx : Ends E x s Q) (imp : ∀ a s', Q a s' → Q' a s') : Ends E x s Q' :=
  hx.imp_left fun hx => hx.mono imp

theorem weaken (hx : Ends E x s Q) (imp : ∀ e s', E e s' → E' e s') : Ends E' x s Q := by
  refine hx.imp_right ?_
  rintro ⟨e, s', run, failed⟩
  exact ⟨e, s', run, imp e s' failed⟩

theorem pure {a : α} (h : Q a s) : Ends E (Pure.pure a : EStateM ε σ α) s Q := (Gives.pure h).ends

theorem throw {e : ε} (h : E e s) : Ends E (MonadExcept.throw e : EStateM ε σ α) s Q :=
  .inr ⟨e, s, rfl, h⟩

theorem bind (hx : Ends E x s Q) (hf : ∀ a s', Q a s' → Ends E (f a) s' R) :
    Ends E (x >>= f) s R := by
  rcases hx with hx | ⟨e, s', run, failed⟩
  · exact hx.before hf
  · exact .inr ⟨e, s', bind_error run, failed⟩

theorem get {g : σ → EStateM ε σ β} (h : Ends E (g s) s R) : Ends E (MonadState.get >>= g) s R :=
  Gives.before (Q := fun a s' => a = s ∧ s' = s) ⟨s, s, rfl, rfl, rfl⟩
    fun _ _ ⟨e, e'⟩ => e ▸ e' ▸ h

end Ends

/-- Nothing is said of a computation that fails. -/
theorem Yields.ends (hx : Yields x s Q) : Ends (fun _ _ => True) x s Q := by
  cases run : x s with
  | ok a s' => exact .inl ⟨a, s', run, hx a s' run⟩
  | error e s' => exact .inr ⟨e, s', run, trivial⟩

/-- What holds of a state holds after a computation as well, whether that ends well or fails. -/
def Upholds (I : σ → Prop) (x : EStateM ε σ α) : Prop := ∀ s, I s → Ends (fun _ => I) x s fun _ => I

namespace Upholds

variable {γ : Type} {I : σ → Prop}

theorem pure {a : α} : Upholds I (Pure.pure a : EStateM ε σ α) := fun _ h => .pure h

theorem throw {e : ε} : Upholds I (MonadExcept.throw e : EStateM ε σ α) := fun _ h => .throw h

theorem bind (hx : Upholds I x) (hf : ∀ a, Upholds I (f a)) : Upholds I (x >>= f) := fun s h =>
  (hx s h).bind fun a s' h => hf a s' h

theorem ite {c : Prop} [Decidable c] {y : EStateM ε σ α} (hx : Upholds I x) (hy : Upholds I y) :
    Upholds I (if c then x else y) := by
  split
  · exact hx
  · exact hy

theorem forIn {l : List γ} {init : β} {body : γ → β → EStateM ε σ (ForInStep β)}
    (turn : ∀ c b, Upholds I (body c b)) : Upholds I (forIn l init body) := by
  induction l generalizing init with
  | nil => exact pure
  | cons c l ih =>
    rw [List.forIn_cons]
    refine (turn c init).bind fun r => ?_
    cases r with
    | done => exact pure
    | yield => exact ih

end Upholds

end

section Lifted

variable {α β : Type} {h : Heap} {Q : α → Heap → Prop} {R : β → Heap → Prop}
  {E : Fault → Heap → Prop}

namespace Gives

theorem heap {x : HeapM α} (hx : Gives x h Q) : Gives (liftM x : Action α) h Q := by
  obtain ⟨a, h', run, done⟩ := hx
  exact ⟨a, h', lift_heap_ok.2 run, done⟩

theorem query {q : Query α} {a : α} (e : q h = .ok a) (done : Q a h) :
    Gives (liftM q : Action α) h Q := ⟨a, h, lift_query_ok.2 ⟨e, rfl⟩, done⟩

/-- A question with a known answer in front of other things. -/
theorem read {q : Query α} {f : α → Action β} {a : α} (e : q h = .ok a) (hf : Gives (f a) h R) :
    Gives (liftM q >>= f) h R :=
  bind (query (Q := fun a' h' => a' = a ∧ h' = h) e ⟨rfl, rfl⟩) fun _ _ ⟨e, e'⟩ => e ▸ e' ▸ hf

theorem ask {q : Heap → Except HeapError α} {f : α → HeapM β} {a : α} (e : q h = .ok a)
    (hf : Gives (f a) h R) : Gives (HeapM.ask q >>= f) h R :=
  bind (Q := fun a' h' => a' = a ∧ h' = h) ⟨a, h, ask_ok.2 ⟨e, rfl⟩, rfl, rfl⟩
    fun _ _ ⟨e, e'⟩ => e ▸ e' ▸ hf

end Gives

namespace Ends

/-- A question with a known answer in front of other things. -/
theorem read {q : Query α} {f : α → Action β} {a : α} (e : q h = .ok a) (hf : Ends E (f a) h R) :
    Ends E (liftM q >>= f) h R :=
  Gives.before (Gives.query (Q := fun a' h' => a' = a ∧ h' = h) e ⟨rfl, rfl⟩)
    fun _ _ ⟨e, e'⟩ => e ▸ e' ▸ hf

theorem heap {x : HeapM α} {E : Fault → Heap → Prop}
    (hx : Ends (fun e h' => E (.heap e) h') x h Q) :
    Ends E (liftM x : Action α) h Q := by
  rcases hx with hx | ⟨e, h', run, failed⟩
  · exact hx.heap.ends
  · refine .inr ⟨.heap e, h', ?_, failed⟩
    simp only [liftM, monadLift, MonadLift.monadLift, run]

theorem attempt {σ : Type} {x : ActionOn σ α} {s : σ} {Q : α → σ → Prop} {E : Fault → σ → Prop}
    (hx : Ends E x s Q) : Gives x.attempt s fun r s' =>
      (∃ a, r = .ok a ∧ Q a s') ∨ ∃ e, r = .error e ∧ E e s' := by
  rcases hx with ⟨a, s', run, done⟩ | ⟨e, s', run, failed⟩
  · exact ⟨.ok a, s', attempt_ok.2 (.inl ⟨a, rfl, run⟩), .inl ⟨a, rfl, done⟩⟩
  · exact ⟨.error e, s', attempt_ok.2 (.inr ⟨e, rfl, run⟩), .inr ⟨e, rfl, failed⟩⟩

/-- A reference is dropped only if an action fails. -/
theorem orRelease {a : Address} {x : Action α} {E' : Fault → Heap → Prop} (hx : Ends E x h Q)
    (failed : ∀ e h', E e h' → Gives (HeapM.free a) h' fun _ h'' => E' e h'') :
    Ends E' (Action.orRelease a x) h Q := by
  refine hx.attempt.before ?_
  rintro _ h' (⟨b, rfl, done⟩ | ⟨e, rfl, wrong⟩)
  · exact .pure done
  · exact (failed e h' wrong).heap.before fun _ _ wrong => .throw wrong

/-- A reference is dropped however an action ends. -/
theorem releasing {a : Address} {x : Action α} {G : Fault → Heap → Prop}
    {R : α → Heap → Prop} (hx : Ends E x h Q)
    (done : ∀ b h', Q b h' → Gives (HeapM.free a) h' fun _ h'' => R b h'')
    (failed : ∀ e h', E e h' → Gives (HeapM.free a) h' fun _ h'' => G e h'') :
    Ends G (Action.releasing a x) h R := by
  refine hx.attempt.before ?_
  rintro _ h' (⟨b, rfl, ended⟩ | ⟨e, rfl, wrong⟩)
  · exact (done b h' ended).heap.before fun _ h'' ended => .inl ⟨b, h'', rfl, ended⟩
  · exact (failed e h' wrong).heap.before fun _ h'' wrong => .inr ⟨e, h'', rfl, wrong⟩

end Ends
end Lifted
end GoMachine
