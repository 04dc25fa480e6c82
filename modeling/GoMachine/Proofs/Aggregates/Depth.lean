import GoMachine.Proofs.Aggregates.Zero
/-!
# How deep zero values go

The zero value of an array or a struct is made of those of its elements or members, and a struct
type may contain itself. Each array or struct takes up a block before its elements or members are
made, and gives it back only after that: the calls are nested no deeper than there are free words.

* `zeroUntil`: the recursion, where calls below some depth are answered by someone else.
* `zeroUntil_eq`: who answers these calls does not matter, since there are none.
-/
namespace GoMachine

open Heap (Raised Owns)

variable {α β γ : Type} {P B O : Multiset Address} {n : Nat} {h h₁ : Heap}
    {structs type decl a : Address}

/-- One call of the recursion, where `next` makes the zero values of elements and members. -/
def zeroStep (structs : Address) (next : Address → Action Address) (type : Address) :
    Action Address := do
  let zeroVariable (elem : Address) : Action Address := do
    Variable.createOwned elem (← next elem)
  match ← Query.tag type with
  | .typeBool => Scalar.newBool false
  | .typeInt32 => Scalar.newInt32 0
  | .typeFloat32 => Scalar.newFloat32 0
  | .typeRune => Scalar.newRune '\x00'
  | .typeString => Text.create ""
  | .typeArray =>
    let elem ← TypeDesc.elem type
    ArrayValue.build (← TypeDesc.arraySize type) fun _ => zeroVariable elem
  | .typeSlice => Slice.create .nil (← TypeDesc.elem type) 0 0 0
  | .typeStruct => StructValue.build zeroVariable (← TypeDesc.resolve structs type)
  | .typeStructDecl => StructValue.build zeroVariable type
  | .typeMutex => Mutex.create
  | .typeWaitGroup => WaitGroup.create
  | .nil | .typeNil | .typeChannel | .typeFunction | .typePointer | .typeBuiltin =>
    return .nil
  | found => throw (.typeMismatch "type descriptor" found)

/-- The recursion, where `stop` answers the calls that are so deep. -/
def zeroUntil (structs : Address) (stop : Address → Action Address) : Nat → Address → Action Address
  | 0 => stop
  | depth + 1 => zeroStep structs (zeroUntil structs stop depth)

theorem zeroValueTo_succ {depth : Nat} :
    zeroValueTo (depth + 1) structs = zeroStep structs (zeroValueTo depth structs) := rfl

/-! ## Computations that do the same -/

/-- Both computations do the same, and what they end with is as `Q` says. -/
structure Mimics (x y : Action α) (h : Heap) (Q : α → Heap → Prop) : Prop where
  same : x h = y h
  yields : Yields y h Q

namespace Mimics

variable {x y : Action α} {f g : α → Action β} {Q : α → Heap → Prop} {R : β → Heap → Prop}

theorem refl (hx : Yields x h Q) : Mimics x x h Q := ⟨rfl, hx⟩

theorem bind_same (e : x h = y h) : (x >>= f) h = (y >>= f) h := by
  simp only [Bind.bind, EStateM.bind, e]

/-- Only the first parts differ. -/
theorem head (e : x h = y h) (hy : Yields (y >>= f) h R) : Mimics (x >>= f) (y >>= f) h R :=
    ⟨bind_same e, hy⟩

theorem bind (hx : Mimics x y h Q) (hf : ∀ a h', Q a h' → Mimics (f a) (g a) h' R) :
    Mimics (x >>= f) (y >>= g) h R := by
  refine ⟨?_, hx.yields.bind fun a h' k => (hf a h' k).yields⟩
  simp only [Bind.bind, EStateM.bind, hx.same]
  cases run : y h with
  | ok a h' => exact (hf a h' (hx.yields a h' run)).same
  | error e h' => rfl

/-- The same question in front of both. -/
theorem read {q : Query α} (hf : ∀ a, q h = .ok a → Mimics (f a) (g a) h R) :
    Mimics (liftM q >>= f) (liftM q >>= g) h R :=
  (refl (Yields.query (Q := fun a h' => q h = .ok a ∧ h' = h) fun _ e => ⟨e, rfl⟩)).bind
    fun a _ ⟨e, same⟩ => same ▸ hf a e

theorem orRelease_same (e : x h = y h) : Action.orRelease a x h = Action.orRelease a y h := by
  simp only [Action.orRelease, ActionOn.attempt, Bind.bind, EStateM.bind, e]

theorem orRelease (hx : Mimics x y h Q) :
    Mimics (Action.orRelease a x) (Action.orRelease a y) h Q :=
  ⟨orRelease_same hx.same, hx.yields.orRelease⟩

theorem forIn {l : List γ} {body body' : γ → PUnit → Action (ForInStep PUnit)} {I : Heap → Prop}
    (start : I h)
    (turn : ∀ c ∈ l, ∀ h, I h → Mimics (body c ⟨⟩) (body' c ⟨⟩) h fun r h' => r = .yield ⟨⟩ ∧
    I h') :
    Mimics (ForIn.forIn l PUnit.unit body) (ForIn.forIn l PUnit.unit body') h fun _ => I := by
  induction l generalizing h with
  | nil => exact refl (.pure start)
  | cons c l ih =>
    rw [List.forIn_cons, List.forIn_cons]
    refine (turn c List.mem_cons_self h start).bind fun r h' ⟨e, k⟩ => ?_
    subst e
    exact ih k fun d hd => turn d (List.mem_cons_of_mem c hd)

end Mimics

/-! ## Building around a record -/

/-- Something is being built on the heap, and there are new records. -/
def Inside (P B : Multiset Address) (h : Heap) (n : Nat) (h₁ : Heap) : Prop :=
  ∃ ρ O, Raised P B h ρ (n + 1) O h₁ ∧ (Heap.fresh h h₁).Nonempty

/-- New records take up free words. -/
theorem Inside.freeWords_lt (k : Inside P B h n h₁) (joined : h.pool.Joined) :
    h₁.freeWords < h.freeWords := by
  obtain ⟨ρ, O, g, a, ha⟩ := k
  rw [g.freeWords joined]
  exact Nat.lt_add_of_pos_right (Finset.sum_pos (fun _ _ => Nat.succ_pos _) ⟨a, ha⟩)

theorem Site.inside {ρ : Address → ℚ} {q : ℚ} {s : Address} {h' : Heap}
    (site : Site P B h ρ h' q (n + 1) O s h₁) : Inside P B h n h₁ := by
  obtain ⟨fresh, there, ρ', -, -, g⟩ := site
  exact ⟨ρ', _, g, s, Heap.mem_fresh.2 ⟨g.isLive_of_mem (Multiset.mem_cons_self ..) there, fresh⟩⟩

theorem Members.inside {ρ : Address → ℚ} {q : ℚ} {s frame : Address} {h' : Heap}
    (members : Members P B h ρ h' q (n + 1) O s frame h₁) : Inside P B h n h₁ := by
  obtain ⟨fresh, there, -, -, ρ', -, -, -, g⟩ := members
  exact ⟨ρ', _, g, s, Heap.mem_fresh.2 ⟨g.isLive_of_mem (Multiset.mem_cons_self ..) there, fresh⟩⟩

/-- An array of variables that are made in the same way where it is built. -/
theorem ArrayValue.build_same {size : Nat} {make make' : Nat → Action Address}
    (own : Owns P (n + 1) B h)
    (raises : ∀ i, Raises P B h (make i)) (same : ∀ i h₁, Inside P B h n h₁ →
    make' i h₁ = make i h₁) :
    build size make' h = build size make h := by
  refine Mimics.same (Q := fun _ _ => True) ?_
  refine (Mimics.refl (Ends.yields (Site.allocate (.start own (ρ := fun _ => 0)) 0))).bind
    fun arr h₁ site => ?_
  refine (Mimics.forIn site fun i _ h₂ site => ?_).bind fun _ h₂ _ => .refl .any
  refine .head (Mimics.orRelease_same (same i h₂ site.inside)) ?_
  refine (Yields.orRelease (Ends.yields (site.make (raises i)))).bind fun var h₃ held => ?_
  exact (Ends.yields (held.put (F := 0))).bind fun _ h₄ site => .pure ⟨rfl, site⟩

/-- A struct of variables that are made in the same way where it is built. -/
theorem StructValue.build_same {make make' : Address → Action Address} (own : Owns P (n + 1) B h)
    (old : Old h decl)
    (raises : ∀ a, Old h a → Raises P B h (make a))
    (same : ∀ a h₁, Old h a → Inside P B h n h₁ → make' a h₁ = make a h₁) :
    build make' decl h = build make decl h := by
  refine Mimics.same (Q := fun _ _ => True) ?_
  refine (Mimics.refl (Ends.yields (Site.allocate (.start own (ρ := fun _ => 0)) 0))).bind
    fun s h₁ site => ?_
  refine (Mimics.orRelease (Q := fun _ _ => True) ?_).bind fun _ h₂ _ => .refl .any
  refine (Mimics.refl (Ends.yields (site.setChild old (F := 0)))).bind fun _ h₂ site => ?_
  refine (Mimics.refl (Ends.yields site.makeFrame)).bind fun frame h₃ framed => ?_
  refine (Mimics.refl (Ends.yields (Members.start site.fresh site.some framed))).bind
    fun _ h₄ members => ?_
  obtain ⟨_, _, _, _, ρ₄, -, -, -, g₄⟩ := id members
  refine Mimics.read fun l asked => ?_
  have olds := old.members g₄ asked
  refine (Mimics.forIn members fun p hp h₅ members => ?_).bind fun _ h₅ _ => .refl .any
  exact .head (same _ h₅ (olds p hp).2 members.inside)
    (Ends.yields (members.insert (olds p hp).1 (raises _ (olds p hp).2)))

/-! ## The recursion -/

theorem zeroStep_same {next next' : Address → Action Address} (own : Owns P (n + 1) B h)
    (olds : Old h structs)
    (old : Old h type) (raises : ∀ a, Old h a → Raises P B h (next a))
    (same : ∀ a h₁, Old h a → Inside P B h n h₁ → next' a h₁ = next a h₁) :
    zeroStep structs next' type h = zeroStep structs next type h := by
  have g : Raised P B h (fun _ => 0) (n + 1) 0 h := .start own
  have raises' : ∀ a, Old h a → Raises P B h (do Variable.createOwned a (← next a)) := fun a ha =>
    Variable.of_raises (raises a ha) ha
  have same' : ∀ a h₁, Old h a → Inside P B h n h₁ →
      (do Variable.createOwned a (← next' a)) h₁ = (do Variable.createOwned a (← next a)) h₁ :=
    fun a h₁ ha inside => Mimics.bind_same (same a h₁ ha inside)
  refine Mimics.same (Q := fun _ _ => True) ?_
  unfold zeroStep
  refine Mimics.read fun t _ => ?_
  cases t
  case typeArray =>
    refine Mimics.read fun elem asked => Mimics.read fun size _ => ⟨?_, .any⟩
    have there := old.elemType g asked
    exact ArrayValue.build_same own (fun _ => raises' elem there) fun _ h₁ => same' elem h₁ there
  case typeStruct =>
    exact Mimics.read fun decl asked =>
      ⟨StructValue.build_same own (olds.resolve g asked) raises' same', .any⟩
  case typeStructDecl => exact ⟨StructValue.build_same own old raises' same', .any⟩
  all_goals exact .refl .any

/-- No call is nested as deep as there are free words. -/
theorem zeroUntil_same {stop : Address → Action Address} :
    ∀ {d d' n : Nat} {type : Address} {O : Multiset Address}
    {h : Heap}, Owns P (n + 1) O h → h.pool.Joined → Old h structs → Old h type → h.freeWords < d →
    h.freeWords < d' →
    zeroUntil structs stop d type h = zeroValueTo d' structs type h
  | 0, _, _, _, _, _, _, _, _, _, lt, _ => absurd lt (Nat.not_lt_zero _)
  | _ + 1, 0, _, _, _, _, _, _, _, _, _, lt => absurd lt (Nat.not_lt_zero _)
  | d + 1, d' + 1, n, type, O, h, own, joined, olds, old, lt, lt' => by
    rw [zeroValueTo_succ]
    refine zeroStep_same own olds old (fun a ha => zeroValueTo_raises olds ha) fun a h₁ ha inside =>
      ?_
    have less := inside.freeWords_lt joined
    obtain ⟨ρ, O', g, -⟩ := inside
    exact zeroUntil_same g.owns (g.grown.joined joined) (olds.imp_right g.live)
      (ha.imp_right g.live) (by omega) (by omega)

end GoMachine
