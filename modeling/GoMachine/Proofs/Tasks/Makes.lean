import GoMachine.Machine.Rules
import GoMachine.Proofs.Tasks.Operands
import GoMachine.Proofs.Tasks.Scopes
/-!
# What nodes make of a thread

`τ.Makes c τ'` says that the node `c`, taken off the control stack of a thread that has `τ` left to
do, leaves `τ'` to do: it takes operands off the stash, leaves values there, schedules nodes, and
opens or closes scopes. `c.Reduces x` says that the rule `x` does so, for all nodes that read `c`.

* `Code.Stands`: what may stand on a control stack, so that a node has the parts that its rule asks
  for.
* `Plays.child`, `Plays.standing`: parts of the node that is run.
-/
namespace GoMachine

open Heap (laden maxSlots)

/-- What may stand on a control stack. -/
def Code.Stands (c : Code) : Prop := ∃ cs x ds, Fits (c :: cs) (x :: ds)

/-- What is read as a node. -/
def Code.IsNode (c : Code) : Prop := ∃ t fs ks ps, c = .node t fs ks ps

/-- The constructs that come in two halves. -/
def Tag.isSplit : Tag → Bool
  | .var | .assign | .unary | .binary | .postfixOp | .call | .goCall | .exprStmt | .member
  | .memberAddress | .methodMember | .index | .indexAddress | .sliceExpr | .make | .constructor
  | .structLiteral | .addressOf | .deref | .derefAddress | .chanReceive => true
  | _ => false

/-- Whether an entry closes a scope. -/
def Entry.closes (e : Entry) : Bool := e.code.tag = .exitScopeI

/-- What a node makes of what a thread has left to do besides it. -/
inductive Task.Makes (τ : Task) (c : Code) : Task → Prop
  | expands {m E V} : Expands c m (List.length V) (E.map Entry.code) →
    τ.Makes c { τ with control := E ++ τ.control, stash := V ++ τ.stash.drop m }
  | opens {m f A B x} : Opens c m (A.map Entry.code) (B.map Entry.code) → x.code.tag = .exitScopeI →
      f ∉ τ.frames →
    τ.Makes c { τ with
      control := A ++ x :: (B ++ τ.control)
      stash := τ.stash.drop m
      line := f :: τ.line }
  | closes {f line} : c.tag = .exitScopeI → τ.line = f :: line → τ.Makes c { τ with line }
  | unwinds {pre e rest line} (t : Tag) : c.tag = .breakLoop ∧ t = .forLoopI ∨
      c.tag = .continueLoop ∧ t = .markerI →
    τ.control = pre ++ e :: rest →
    e.code.tag = t → (∀ p ∈ pre, p.code.tag ≠ t ∧ p.code.tag ≠ .restoreEnvI) →
    τ.line.drop (pre.countP Entry.closes) = line → pre.countP Entry.closes ≤ τ.line.length →
    τ.Makes c { τ with control := rest, line }
  | enters {argc fs ks ps body b r e f line' x} : c = .node .callI (argc :: fs) ks ps → Runs b 0 →
      f ∉ τ.frames →
    τ.Makes c { τ with
      control := ⟨body, b⟩ :: ⟨r, .node .returnFrom [] [.nil] [.nothing]⟩ ::
        ⟨e, .node .restoreEnvI [] [x] [.scope τ.line]⟩ :: τ.control
      stash := τ.stash.drop (argc.toNat + 1)
      line := f :: line' }
  | returns {pre e rest} : c.tag = .returnFromI → τ.control = pre ++ e :: rest →
      e.code.tag = .restoreEnvI →
    (∀ p ∈ pre, p.code.tag ≠ .restoreEnvI) → τ.Makes c { τ with control := e :: rest }
  | restores {fs ks line} : c = .node .restoreEnvI fs ks [.scope line] → τ.Makes c { τ with line }

variable {k k' : Known} {σ σ' : Address → Task} {n m x : Nat} {O : Multiset Address} {s : Turn}
  {a b t v node : Address} {c p : Code} {τ τ' : Task} {α : Type} {new : List Code} {es : List Entry}
  {fs : List UInt64} {ks l vs : List Address} {ps cs : List Code} {ds : List Nat} {tag : Tag}
  {i : Nat}

theorem Tag.operands?_of_isSplit (h : tag.isSplit) : tag.operands? fs = none := by
  cases tag <;> first | rfl | cases h

namespace Code

theorem IsNode.isThere (h : c.IsNode) : c.isThere := by
  obtain ⟨t, fs, ks, ps, rfl⟩ := h
  rfl

theorem IsNode.ne_nothing (h : c.IsNode) : c ≠ .nothing := by
  obtain ⟨t, fs, ks, ps, rfl⟩ := h
  simp

theorem filter_isThere (h : ∀ p ∈ ps, p.IsNode) : ps.filter isThere = ps :=
  List.filter_eq_self.2 fun p hp => (h p hp).isThere

end Code

theorem Eval.isNode (h : Eval c m n) : c.IsNode := by cases h <;> exact ⟨_, _, _, _, rfl⟩

theorem Acts.isNode (h : Acts c m) : c.IsNode := by cases h <;> exact ⟨_, _, _, _, rfl⟩

theorem Runs.isNode (h : Runs c m) : c.IsNode := by
  cases h with
  | eval h => exact h.isNode
  | stmt h => exact h.isNode

theorem Clause.isNode (h : Clause c) : c.IsNode := by cases h <;> exact ⟨_, _, _, _, rfl⟩

theorem Chunk.isNode (h : Chunk cs m) : ∀ p ∈ cs, p.IsNode := by
  induction cs generalizing m with
  | nil => simp
  | cons c cs ih =>
    cases h with
    | eval e rest => exact List.forall_mem_cons.2 ⟨e.isNode, ih rest⟩
    | stmt s rest => exact List.forall_mem_cons.2 ⟨s.isNode, ih rest⟩

namespace Code.Stands

/-- The first half of a construct has operands. -/
theorem split (st : Stands (.node tag fs ks ps)) (ht : tag.isSplit) : ∃ t' fs' ops,
    tag.split? fs ps = some (t', fs', ops) ∧ ∀ p ∈ ops, Eval p 0 1 := by
  obtain ⟨cs, x, ds, f⟩ := st
  cases f with
  | eval e =>
    cases e with
    | simple h => simp [Tag.operands?_of_isSplit ht] at h
    | split h inner => exact ⟨_, _, _, h, inner⟩
    | _ => cases ht
  | stmt s => cases s <;> cases ht
  | loop l =>
    cases l
    cases ht
  | _ => cases ht

/-- A statement that is neither of these is told by its tag. -/
theorem acts (st : Stands (.node tag fs ks ps)) (ht : tag.operands? fs = none)
    (ht' : tag.split? fs ps = none)
    (other : tag ∉ [.logicalI, .functionLit, .sequence, .exitScopeI, .markerI, .forLoopI,
    .returnFrom,
      .returnFromI, .restoreEnvI]) : ∃ m, Acts (.node tag fs ks ps) m := by
  obtain ⟨cs, x, ds, f⟩ := st
  obtain ⟨_, _, _, acts, _⟩ := f.of_stmt ht ht' other
  exact ⟨x, acts⟩

/-- The second half of a construct with a count of its operands. -/
theorem counted (st : Stands (.node tag fs ks ps))
    (ht : tag ∈ [.callI, .goCallI, .makeI, .constructorI, .structLiteralI]) :
    ∃ w, fs = [w] := by
  obtain ⟨cs, x, ds, f⟩ := st
  have simple : ∀ {m n}, tag.operands? fs = some (m, n) → ∃ w, fs = [w] := by
    intro m n h
    match fs, h with
    | [w], _ => exact ⟨w, rfl⟩
    | [], h | _ :: _ :: _, h => cases tag <;> simp_all [Tag.operands?]
  cases f with
  | eval e =>
    cases e with
    | simple h => exact simple h
    | split h =>
      have unknown : tag.split? fs ps = none := by
        simp only [List.mem_cons, List.not_mem_nil, or_false] at ht
        rcases ht with rfl | rfl | rfl | rfl | rfl <;> rfl
      simp [unknown] at h
    | _ => simp at ht
  | stmt s => cases s <;> simp at ht
  | loop l =>
    cases l
    simp at ht
  | _ => simp at ht

theorem sliceExprI (st : Stands (.node .sliceExprI fs ks ps)) : ∃ low high, fs = [low, high] := by
  obtain ⟨cs, x, ds, f⟩ := st
  cases f with
  | eval e =>
    cases e with
    | simple h =>
      match fs, h with
      | [low, high], _ => exact ⟨low, high, rfl⟩
      | [], h | [_], h | _ :: _ :: _ :: _, h => cases h
    | split h => cases h
  | stmt s => cases s
  | loop l => cases l

theorem logicalI (st : Stands (.node .logicalI fs ks ps)) : ∃ right, ps = [right] ∧
    Eval right 0 1 := by
  obtain ⟨cs, x, ds, f⟩ := st
  cases f with
  | eval e =>
    cases e with
    | logicalI h => exact ⟨_, rfl, h⟩
    | simple h => cases h
    | split h => cases h
  | stmt s => cases s
  | loop l => cases l

theorem sequence (st : Stands (.node .sequence fs ks ps)) : ∀ p ∈ ps, p.IsNode := by
  obtain ⟨cs, x, ds, f⟩ := st
  cases f with
  | eval e =>
    cases e with
    | sequence h => exact fun p hp => (h p hp).isNode
    | simple h => cases h
    | split h => cases h
  | stmt s =>
    cases s with
    | sequence h => exact h.isNode
  | loop l => cases l

theorem functionLit (st : Stands (.node .functionLit fs ks ps)) :
    Code.IsFunction (.node .functionLit fs ks ps) := by
  obtain ⟨cs, x, ds, f⟩ := st
  cases f with
  | eval e =>
    cases e with
    | functionLit h => exact ⟨_, _, _, _, rfl, h⟩
    | simple h => cases h
    | split h => cases h
  | stmt s => cases s
  | loop l => cases l

theorem forLoopI (st : Stands (.node .forLoopI fs ks ps)) : Loop (.node .forLoopI fs ks ps) := by
  obtain ⟨cs, x, ds, f⟩ := st
  obtain ⟨_, _, _, _, l, _⟩ := f.of_loop
  exact l

theorem returnFrom (st : Stands (.node .returnFrom fs ks ps)) :
    ∃ value, ps = [value] ∧ (value ≠ .nothing → Eval value 0 1) := by
  obtain ⟨cs, x, ds, f⟩ := st
  cases f with
  | eval e =>
    cases e with
    | simple h => cases h
    | split h => cases h
  | stmt s =>
    cases s with
    | returnFrom h => exact ⟨_, rfl, h⟩
  | loop l => cases l
  | returnNil => exact ⟨_, rfl, fun h => absurd rfl h⟩

theorem restoreEnvI (st : Stands (.node .restoreEnvI fs ks ps)) : ∃ line, ps = [.scope line] := by
  obtain ⟨cs, x, ds, f⟩ := st
  cases f with
  | eval e =>
    cases e with
    | simple h => cases h
    | split h => cases h
  | stmt s => cases s
  | loop l => cases l
  | restoreEnvI => exact ⟨_, rfl⟩

end Code.Stands

namespace Task.Makes

variable {E : List Entry} {V : List Address}

/-- Nodes are scheduled. -/
theorem schedules (e : Expands c 0 0 (E.map Entry.code))
    (now : τ' = { τ with control := E ++ τ.control }) :
    τ.Makes c τ' := by
  rw [now]
  exact .expands (m := 0) (V := []) e

/-- Operands are replaced by values. -/
theorem values (h : tag.operands? fs = some (m, V.length))
    (now : τ' = { τ with stash := V ++ τ.stash.drop m }) :
    τ.Makes (.node tag fs ks ps) τ' := by
  rw [now]
  exact .expands (E := []) (.simple h)

/-- The operands are scheduled, and below them the second half. -/
theorem halves {t' : Tag} {fs' fs'' : List UInt64} {ops : List Code} {e : Entry}
    {ks' : List Address} {ps' : List Code}
    (h : tag.split? fs ps = some (t', fs', ops)) (code : e.code = .node t' fs'' ks' ps')
    (codes : E.map Entry.code = ops) (now : τ' = { τ with control := E ++ e :: τ.control })
    (same : t'.operands? fs'' = t'.operands? fs') : τ.Makes (.node tag fs ks ps) τ' := by
  refine .schedules (E := E ++ [e]) ?_ (by simp [now])
  rw [List.map_append, codes, List.map_singleton, code]
  exact .split h same

end Task.Makes

/-- A rule makes of what a thread has left to do what the code of the node says. There is room for
as many operands as there may be slots, and for 16 more. -/
def Code.Reduces (c : Code) (x : Address → TurnM Unit) : Prop :=
  ∀ {k : Known} {t : Address} {σ : Address → Task} {τ : Task} {n : Nat} {O : Multiset Address}
    {s : Turn}
    {node : Address} [k.KeptByTurns] [k.Runner t], Plays t k σ τ (n + maxSlots + 16) O s →
    k.Contains node c →
      Yields (x node) s fun _ s' => ∃ τ', Plays t k σ τ' (n + maxSlots + 16) O s' ∧ τ.Makes c τ'

namespace Known

/-- Notes of more references that are owned for longer. -/
def holds (k : Known) (l : List Address) : Known := { k with stays := laden l k.stays }

end Known

namespace Plays

/-! ## Nodes that are dropped -/

/-- The top of the control stack is taken off. -/
theorem popNode [k.KeptByChains] [k.Runner t] {st : Address} (p : Plays t k σ τ (n + 3) O s)
    (read : Thread.control s.thread s.heap = .ok st) :
    Yields (liftM (Stack.pop st) : TurnM Address) s fun v s' =>
      v = .nil ∧ τ.control = [] ∨ v ≠ .nil ∧ ∃ e rest, τ.control = e :: rest ∧ v = e.node ∧
        Plays t k σ { τ with control := rest } (n + 2) (v ::ₘ O) s' ∧
        k.Finds (Function.update σ t { τ with control := rest }) s'.heap fun ρ =>
        ρ v = .code e.code := by
  obtain ⟨fs, cs, -, ht, hst⟩ := p.pile_read read
  cases e : τ.control with
  | nil =>
    refine (p.knows.pop_nil (p := .control) ht hst (by simpa [Task.pile] using e)).acts.mono ?_
    rintro v s' ⟨_, empty, _⟩
    exact .inl ⟨empty, rfl⟩
  | cons x rest =>
    refine (p.knows.pop_finding (m := n) (p := .control) (τ := { τ with control := rest })
      (v := x.node)
      (P := fun ρ => ρ x.node = .code x.code) ht hst (by simp [Task.pile, e]) (fun q hq => ?_)
      (by simp) ?_
      (by simp [Task.SamePlace]) (fun seen => ?_) le_rfl).acts.mono fun v s' found => ?_
    · cases q <;> simp_all [Task.pile]
    · intro y hy
      simp [e, hy]
    · have shows := seen.shows ht ((seen.conforms ht).thread rfl)
      rw [Function.update_self] at shows
      exact shows.codes x (by simp [e])
    · obtain ⟨thread, same, g, role⟩ := found
      refine .inr ⟨?_, x, rest, rfl, same, ⟨thread.trans p.thread, ?_⟩, ?_⟩
      · rintro rfl
        obtain ⟨ρ, seen, -, role⟩ := role
        simp [← same, seen.nil] at role
      · simpa [same] using g
      · simpa [same] using role

/-! ## Parts of the node -/

theorem field_read (p : Plays t k σ τ n O s) (hc : k.Contains node (.node tag fs ks ps))
    {w : UInt64} {tag' : Tag}
    (read : Query.field node tag' i s.heap = .ok w) : fs[i]? = some w :=
  (p.knows.sound.field_of_body (p.knows.node_body hc) read).2

theorem child_read (p : Plays t k σ τ n O s) (hc : k.Contains node (.node tag fs ks ps))
    {tag' : Tag}
    (read : Query.child node tag' i s.heap = .ok b) : ks[i]? = some b :=
  (p.knows.sound.child_of_body (p.knows.node_body hc) read).2

theorem children_read (p : Plays t k σ τ n O s) (hc : k.Contains node (.node tag fs ks ps))
    (read : Query.children node s.heap = .ok l) : l = ks := by
  have hn := p.knows.node_body hc
  rcases p.knows.sound.children_read read with ⟨rfl, -⟩ | ⟨D, hD, rfl⟩
  · simp [p.knows.dead] at hn
  · rw [hn] at hD
    cases hD
    rfl

theorem contains_part (hc : k.Contains node (.node tag fs ks ps)) (hb : ks[i]? = some b)
    (hp : ps[i]? = some c)
    (isNode : c.IsNode) : k.Contains b c := by
  obtain ⟨t, fs, ks, ps, rfl⟩ := isNode
  exact .part hc hb hp (by simp) (by simp) (by simp)

/-- A part of the node that is a node. -/
theorem child (p : Plays t k σ τ n O s) (hc : k.Contains node (.node tag fs ks ps)) {tag' : Tag}
    (read : Query.child node tag' i s.heap = .ok b) (hp : ps[i]? = some c) (isNode : c.IsNode) :
    k.Contains b c :=
  contains_part hc (p.child_read hc read) hp isNode

/-- A part that is left out is nil. -/
theorem nothing (p : Plays t k σ τ n O s) (hc : k.Contains node (.node tag fs ks ps))
    (hb : ks[i]? = some b)
    (hp : ps[i]? = some .nothing) : b = .nil := by
  obtain ⟨ρ, seen, noted⟩ := p.knows.sees
  exact p.knows.node_part hc hb hp seen noted

/-- A part that is a node or is left out. -/
theorem optional (p : Plays t k σ τ n O s) (hc : k.Contains node (.node tag fs ks ps)) {tag' : Tag}
    (read : Query.child node tag' i s.heap = .ok b) (hp : ps[i]? = some c) (isNode : c ≠ .nothing →
    c.IsNode) :
    b = .nil ∧ c = .nothing ∨ b ≠ .nil ∧ k.Contains b c := by
  by_cases e : c = .nothing
  · subst e
    exact .inl ⟨p.nothing hc (p.child_read hc read) hp, rfl⟩
  · have contains := p.child hc read hp (isNode e)
    exact .inr ⟨p.knows.ne_nil contains, contains⟩

/-- The parts from some place on are nodes or are left out. -/
theorem standing (p : Plays t k σ τ n O s) (hc : k.Contains node (.node tag fs ks ps)) (i : Nat)
    (isNode : ∀ c ∈ ps.drop i, c ≠ .nothing → c.IsNode) : k.Standing (ks.drop i) (ps.drop i) := by
  obtain ⟨ρ, seen, noted⟩ := p.knows.sees
  have parts := p.knows.node_parts hc seen noted
  rw [List.forall₂_iff_get] at parts
  refine List.forall₂_iff_get.2 ⟨by simp [parts.1], fun j h₁ h₂ => ?_⟩
  have hb : ks[i + j]? = some ((ks.drop i).get ⟨j, h₁⟩) := by
    rw [← List.getElem?_drop]
    exact List.getElem?_eq_getElem h₁
  have hp : ps[i + j]? = some ((ps.drop i).get ⟨j, h₂⟩) := by
    rw [← List.getElem?_drop]
    exact List.getElem?_eq_getElem h₂
  by_cases e : (ps.drop i).get ⟨j, h₂⟩ = .nothing
  · exact .inl ⟨p.nothing hc hb (e ▸ hp), e⟩
  · exact .inr (contains_part hc hb hp (isNode _ (List.get_mem ..) e))

/-! ## What is borrowed and made -/

/-- References are dropped in the end. -/
theorem dropping {x : TurnM α} {K : α → Multiset Address} {Q : α → Prop}
    (hx : Yields x s fun b s' => Plays t k σ τ n (laden l (K b)) s' ∧ Q b) :
    Yields (TurnM.releasing l x) s fun b s' => Plays t k σ τ n (K b) s' ∧ Q b :=
  (releasing (Q := fun b σ' τ' => (σ' = σ ∧ τ' = τ) ∧ Q b)
    (hx.mono fun _ _ ⟨p, q⟩ => ⟨σ, τ, p, ⟨rfl, rfl⟩, q⟩)).mono
    fun _ _ ⟨_, _, p, ⟨e, e'⟩, q⟩ => ⟨e ▸ e' ▸ p, q⟩

/-- References are dropped after what was done. -/
theorem dropped {x : TurnM Unit} (hx : Yields x s fun _ s' => Plays t k σ τ n (laden l O) s') :
    Yields (TurnM.releasing l x) s fun _ s' => Plays t k σ τ n O s' :=
  (dropping (K := fun _ => O) (Q := fun _ => True) (hx.mono fun _ _ p => ⟨p, trivial⟩)).mono
  fun _ _ p => p.1

/-- A value that is borrowed from what is dropped then was put on the stash. -/
theorem leaving {x : TurnM Unit} (hx : Yields x s fun _ s' => ∃ v,
    Plays t k σ { τ with stash := v :: τ.stash } n (laden l O) s') :
    Yields (TurnM.releasing l x) s fun _ s' =>
    ∃ v, Plays t k σ { τ with stash := v :: τ.stash } n O s' := by
  refine (releasing (t := t) (k := k) (n := n) (K := fun _ => O)
    (Q := fun _ σ' τ' => σ' = σ ∧ ∃ v, τ' = { τ with stash := v :: τ.stash }) (hx.mono ?_)).mono ?_
  · rintro _ s' ⟨v, p⟩
    exact ⟨σ, _, p, rfl, v, rfl⟩
  · rintro _ s' ⟨_, _, p, rfl, v, rfl⟩
    exact ⟨v, p⟩

/-- A value is made of what is dropped then. -/
theorem making {x : TurnM Address} (hx : Yields x s fun v s' =>
    Plays t k σ τ n (v ::ₘ laden l O) s') :
    Yields (TurnM.releasing l x) s fun v s' => Plays t k σ τ n (v ::ₘ O) s' :=
  (dropping (K := fun v => v ::ₘ O) (Q := fun _ => True)
    (hx.mono fun _ _ p => ⟨Heap.laden_cons ▸ p, trivial⟩)).mono fun _ _ p => p.1

/-- What is done with values leaves the running thread what it has left to do. -/
theorem makes {x : Action α} {K : α → Multiset Address} (p : Plays t k σ τ n O s)
    (hx : Pays 0 0 x s.heap fun a h' => Knows k (Function.update σ t τ) m (K a) h') :
    Yields (liftM x : TurnM α) s fun a s' => Plays t k σ τ m (K a) s' :=
  p.act hx.yields

/-- Parts that are no nodes. -/
theorem data_parts (p : Plays t k σ τ n O s) (l : List Address) :
    k.Finds (Function.update σ t τ) s.heap fun ρ =>
    List.Forall₂ (IsPart ρ) l (l.map fun _ => .data) := by
  obtain ⟨ρ, seen, noted⟩ := p.knows.sees
  exact ⟨ρ, seen, noted, List.forall₂_map_right_iff.2 (List.forall₂_same.2 fun _ _ => trivial)⟩

/-- Parts of the node are there. -/
theorem part_live (p : Plays t k σ τ n O s) (hc : k.Contains node (.node tag fs ks ps))
    (hb : b ∈ ks) :
    b = .nil ∨ s.heap.body? b ≠ none :=
  p.knows.closed node _ b (p.knows.node_body hc) hb

end Plays
end GoMachine
