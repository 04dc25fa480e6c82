import GoMachine.Lowering
import GoMachine.Proofs.Owns.Types
/-!
# Lowering as a craft

Lowering builds the parts of a construct in turn and then the node that takes them over, so that an
expression or a statement becomes one reference and a list of them as many references. A `Builder`
says what a client keeps account of while it makes strings, types and nodes, and what is left when
that fails. Whatever that is, programs are lowered in the same way.

* `Lowering.expr_crafted`, `Lowering.stmts_crafted`: expressions and statements.
-/
namespace GoMachine

open Heap (stacked Within)

/-- A computation ends as `Q` says, or fails and leaves `E D`. -/
def Crafts {ε α : Type} (E : Multiset Address → Heap → Prop) (D : Multiset Address)
    (x : EStateM ε Heap α)
    (h : Heap) (Q : α → Heap → Prop) : Prop :=
  Ends (fun _ h' => E D h') x h Q

/-- An action that gives a reference to what it returns, for any client with room for one more. -/
def Crafted (I : Nat → Multiset Address → Heap → Prop) (E : Multiset Address → Heap → Prop)
    (x : Action Address) :
    Prop :=
  ∀ {n D O h} [Within D O], I (n + 1) O h → Crafts E D x h fun a h' => I (n + 1) (a ::ₘ O) h'

/-- An action that gives a reference to each record of the list that it returns. -/
def CraftedList (I : Nat → Multiset Address → Heap → Prop) (E : Multiset Address → Heap → Prop)
    (x : Action (List Address)) : Prop :=
  ∀ {n D O h} [Within D O], I (n + 1) O h → Crafts E D x h fun as h' => I (n + 1) (stacked O as) h'

/-- What a client keeps account of while it makes strings, types and nodes, and what is left of it
when that fails. -/
class Builder (I : Nat → Multiset Address → Heap → Prop)
    (E : outParam (Multiset Address → Heap → Prop)) : Prop where
  cons_nil : ∀ {n O h}, I n (.nil ::ₘ O) h ↔ I n O h
  fails : ∀ {n D O h} [Within D O], I n O h → E D h
  scalar : ∀ {t w}, t.isScalar → Crafted I E (Scalar.new t w)
  text : ∀ {s}, Crafted I E (Text.create s)
  type : ∀ {t}, Crafted I E (Lowering.type t)
  unit : ∀ {t}, Crafted I E (Node.unit t)
  build : ∀ {n D O h t fs l} [Within D O], I (n + 1) (stacked O l) h →
    Crafts E D (Node.build t fs l) h fun a h' => I (n + 1) (a ::ₘ O) h'
  buildShared : ∀ {t fs l}, Crafted I E (Node.buildShared t fs l)

namespace Crafts

section

variable {ε α β γ : Type} {E : Multiset Address → Heap → Prop} {D : Multiset Address}
    {x : EStateM ε Heap α}
  {f : α → EStateM ε Heap β} {h : Heap} {Q Q' : α → Heap → Prop} {R : β → Heap → Prop}

theorem mono (hx : Crafts E D x h Q) (imp : ∀ a h', Q a h' → Q' a h') : Crafts E D x h Q' :=
    Ends.mono hx imp

theorem bind (hx : Crafts E D x h Q) (hf : ∀ a h', Q a h' → Crafts E D (f a) h' R) :
    Crafts E D (x >>= f) h R :=
  Ends.bind hx hf

theorem pure {a : α} (done : Q a h) : Crafts E D (Pure.pure a : EStateM ε Heap α) h Q :=
    Ends.pure done

theorem throw {e : ε} (left : E D h) : Crafts E D (MonadExcept.throw e : EStateM ε Heap α) h Q :=
    Ends.throw left

/-- What else is known of a computation that ends well. -/
theorem instead (hx : Crafts E D x h Q) (hy : Yields x h Q') : Crafts E D x h Q' := by
  rcases hx with ⟨a, h', run, -⟩ | failed
  · exact .inl ⟨a, h', run, hy a h' run⟩
  · exact .inr failed

/-- A check that fails ends the computation. -/
theorem guard {c : Prop} [Decidable c] {e : ε} {y : EStateM ε Heap β} (left : E D h)
    (hy : ¬c → Crafts E D y h R) :
    Crafts E D (if c then MonadExcept.throw e >>= f else y) h R := by
  split
  · exact Crafts.bind (Q := fun _ _ => False) (throw left) fun _ _ k => k.elim
  · next k => exact hy k

/-- A loop over a list, with what holds when a part of the list is left. -/
theorem forIn {l : List γ} {body : γ → PUnit → EStateM ε Heap (ForInStep PUnit)}
    {I : List γ → Heap → Prop}
    (start : I l h)
    (turn : ∀ c rest h, I (c :: rest) h → Crafts E D (body c ⟨⟩) h fun r h' => r = .yield ⟨⟩ ∧
    I rest h') :
    Crafts E D (ForIn.forIn l PUnit.unit body) h fun _ => I [] := by
  induction l generalizing h with
  | nil => exact pure start
  | cons c l ih =>
    rw [List.forIn_cons]
    refine (turn c l h start).bind fun r h' ⟨e, k⟩ => ?_
    subst e
    exact ih k

end

section Lifted

variable {α β : Type} {E : Multiset Address → Heap → Prop} {D D' : Multiset Address}
    {f : α → Action β}
  {h : Heap} {a : Address} {Q Q' : α → Heap → Prop} {R : β → Heap → Prop}

theorem heap {x : HeapM α} (hx : Crafts E D x h Q) : Crafts E D (liftM x : Action α) h Q :=
    Ends.heap hx

/-- A question in front of other things. -/
theorem read {q : Query α} (left : E D h) (hf : ∀ a, q h = .ok a → Crafts E D (f a) h R) :
    Crafts E D (liftM q >>= f) h R := by
  cases asked : q h with
  | ok a => exact Ends.read asked (hf a asked)
  | error e =>
    refine .inr ⟨e, h, bind_error ?_, left⟩
    simp only [liftM, monadLift, MonadLift.monadLift, asked]

/-- A question in front of something that may rely on the answer. -/
theorem ask {q : Heap → Except HeapError α} {f : α → HeapM β} (left : E D h)
    (hf : ∀ a, q h = .ok a → Crafts E D (f a) h R) : Crafts E D (HeapM.ask q >>= f) h R := by
  cases asked : q h with
  | ok a =>
    have told : Gives (HeapM.ask q) h fun r h' => r = a ∧ h' = h :=
      ⟨a, h, ask_ok.2 ⟨asked, rfl⟩, rfl, rfl⟩
    exact told.before fun _ _ ⟨same, same'⟩ => same ▸ same' ▸ hf a asked
  | error e => exact .inr ⟨e, h, bind_error (by simp [HeapM.ask, asked]), left⟩

/-- A reference is dropped only if an action fails. -/
theorem orRelease {x : Action α} (hx : Crafts E D' x h Q)
    (drop : ∀ h', E D' h' → Gives (HeapM.free a) h' fun _ h'' => E D h'') :
    Crafts E D (Action.orRelease a x) h Q :=
  Ends.orRelease hx fun _ h' left => drop h' left

/-- A reference is dropped however an action ends. -/
theorem releasing {x : Action α} (hx : Crafts E D' x h Q)
    (done : ∀ b h', Q b h' → Gives (HeapM.free a) h' fun _ h'' => Q' b h'')
    (drop : ∀ h', E D' h' → Gives (HeapM.free a) h' fun _ h'' => E D h'') :
    Crafts E D (Action.releasing a x) h Q' :=
  Ends.releasing hx done fun _ h' left => drop h' left

/-- An action whose failure is looked at. -/
theorem attempt {M : Multiset Address} {x : Action α} {f : Except Fault α → Action β}
    (hx : Crafts E M x h Q)
    (finished : ∀ a h', Q a h' → Crafts E D (f (.ok a)) h' R) (failed : ∀ e h', E M h' →
    Crafts E D (f (.error e)) h' R) :
    Crafts E D (x.attempt >>= f) h R := by
  refine (Ends.attempt hx).before ?_
  rintro _ h' (⟨a, rfl, done⟩ | ⟨e, rfl, left⟩)
  · exact finished a h' done
  · exact failed e h' left

end Lifted

end Crafts

variable {I : Nat → Multiset Address → Heap → Prop} {E : Multiset Address → Heap → Prop}
    [Builder I E]
  {D O : Multiset Address} [Within D O] {n : Nat} {h : Heap}

/-- It does not matter in which order references were taken. -/
theorem Builder.perm {l l' : List Address} (own : I n (stacked O l) h) (p : l.Perm l') :
    I n (stacked O l') h := by
  rwa [Heap.stacked_eq, Multiset.coe_eq_coe.2 p, ← Heap.stacked_eq] at own

namespace Lowering

theorem named_crafted {tag : Tag} {name : String} : Crafted I E (named tag name) :=
  fun own => (Builder.text own).bind fun _ _ own => Builder.build own

theorem literal_crafted {v : Literal} : Crafted I E (literal v) := by
  intro n D O h _ own
  unfold literal
  split
  · exact (Crafts.pure (Q := fun v h' => I (n + 1) (v ::ₘ O) h') (Builder.cons_nil.2 own)).bind
      fun _ _ own => Builder.build own
  iterate 4 exact (Builder.scalar rfl own).bind fun _ _ own => Builder.build own
  exact (Builder.text own).bind fun _ _ own => Builder.build own

theorem params_crafted : ∀ {ps : List Param}, CraftedList I E (params ps)
  | [] => fun own => .pure own
  | _ :: _ => fun own => (Builder.text own).bind fun _ _ own => (Builder.type own).bind
    fun _ _ own => (params_crafted own).bind fun _ _ own => .pure own

theorem receiver_crafted : ∀ {p : Option Param}, CraftedList I E (receiver p)
  | none => fun own => .pure (Builder.cons_nil.2 (Builder.cons_nil.2 own))
  | some _ => fun own => params_crafted own

theorem function_crafts {body : Address} {rcv : Option Param} {ps : List Param}
    (own : I (n + 1) (body ::ₘ O) h) :
    Crafts E D (function body rcv ps) h fun f h' => I (n + 1) (f ::ₘ O) h' := by
  refine (receiver_crafted own).bind fun rcvParts h₁ own => ?_
  refine (params_crafted own).bind fun parts h₂ own => ?_
  refine Builder.build ?_
  rwa [← Heap.stacked_append] at own

theorem loopVariable_crafted {init : Option Stmt} : Crafted I E (loopVariable init) := by
  intro n D O h _ own
  unfold loopVariable
  split
  · exact Builder.text own
  · exact .pure (Builder.cons_nil.2 own)

theorem sequence_crafted {body : Action (List Address)} (crafted : CraftedList I E body) :
    Crafted I E (sequence body) :=
  fun own => (crafted own).bind fun _ _ own => Builder.build own

theorem block_crafted {body : Action (List Address)} (crafted : CraftedList I E body) :
    Crafted I E (block body) :=
  fun own => (sequence_crafted crafted own).bind fun _ _ own => Builder.build own

theorem fieldNames_crafted : ∀ {fields : List (String × Expr)}, CraftedList I E (fieldNames fields)
  | [] => fun own => .pure own
  | _ :: _ => fun own => (Builder.text own).bind fun _ _ own =>
    (fieldNames_crafted own).bind fun _ _ own => .pure own

-- Those for lists use the builder only through the others of the block.
set_option linter.unusedSectionVars false in
mutual

theorem expr_crafted : ∀ {e : Expr}, Crafted I E (expr e)
  | .literal _ => fun own => literal_crafted own
  | .name _ => fun own => named_crafted own
  | .unary _ _ => fun own => (expr_crafted own).bind fun _ _ own => Builder.build own
  | .binary _ _ _ => fun own => (expr_crafted own).bind fun _ _ own => (expr_crafted own).bind
    fun _ _ own => Builder.build own
  | .call _ _ => fun own => (expr_crafted own).bind fun _ _ own => (exprs_crafted own).bind
    fun _ _ own => Builder.build own
  | .func _ _ _ => fun own => (sequence_crafted stmts_crafted own).bind
    fun _ _ own => function_crafts own
  | .member _ _ => fun own => (expr_crafted own).bind fun _ _ own => (Builder.text own).bind
    fun _ _ own => Builder.build own
  | .method _ _ => fun own => (expr_crafted own).bind fun _ _ own => (Builder.text own).bind
    fun _ _ own => Builder.build own
  | .index _ _ => fun own => (expr_crafted own).bind fun _ _ own => (expr_crafted own).bind
    fun _ _ own => Builder.build own
  | .slice _ _ _ => fun own => (expr_crafted own).bind fun _ _ own => (optional_crafted own).bind
    fun _ _ own => (optional_crafted own).bind fun _ _ own => Builder.build own
  | .make _ _ => fun own => (Builder.type own).bind fun _ _ own => (exprs_crafted own).bind
    fun _ _ own => Builder.build own
  | .composite _ _ => fun own => (Builder.type own).bind fun _ _ own => (exprs_crafted own).bind
    fun _ _ own => Builder.build own
  | .structLit _ _ => fun own => (Builder.text own).bind fun _ _ own =>
    (fieldNames_crafted own).bind fun _ _ own => (fieldValues_crafted own).bind fun _ _ own =>
      Builder.build (by rwa [← Heap.stacked_append] at own)
  | .addressOf operand => fun own => by
    unfold expr
    split
    · exact (address_crafted own).bind fun _ _ own => Builder.build own
    · exact (expr_crafted own).bind fun _ _ own => Builder.build own
  | .deref _ => fun own => (expr_crafted own).bind fun _ _ own => Builder.build own
  | .receive _ => fun own => (expr_crafted own).bind fun _ _ own => Builder.build own

theorem exprs_crafted : ∀ {es : List Expr}, CraftedList I E (exprs es)
  | [] => fun own => .pure own
  | _ :: _ => fun own => (expr_crafted own).bind fun _ _ own => (exprs_crafted own).bind
    fun _ _ own => .pure own

theorem optional_crafted : ∀ {e : Option Expr}, Crafted I E (optional e)
  | none => fun own => .pure (Builder.cons_nil.2 own)
  | some _ => fun own => expr_crafted own

theorem fieldValues_crafted : ∀ {fields : List (String × Expr)},
    CraftedList I E (fieldValues fields)
  | [] => fun own => .pure own
  | (_, _) :: _ => fun own => (expr_crafted own).bind fun _ _ own => (fieldValues_crafted own).bind
    fun _ _ own => .pure own

theorem address_crafted : ∀ {e : Expr}, Crafted I E (address e)
  | .name _ => fun own => named_crafted own
  | .member _ _ => fun own => (expr_crafted own).bind fun _ _ own => (Builder.text own).bind
    fun _ _ own => Builder.build own
  | .index _ _ => fun own => (expr_crafted own).bind fun _ _ own => (expr_crafted own).bind
    fun _ _ own => Builder.build own
  | .deref _ => fun own => (expr_crafted own).bind fun _ _ own => Builder.build own
  | .literal _ => fun own => .throw (Builder.fails own)
  | .unary _ _ => fun own => .throw (Builder.fails own)
  | .binary _ _ _ => fun own => .throw (Builder.fails own)
  | .call _ _ => fun own => .throw (Builder.fails own)
  | .func _ _ _ => fun own => .throw (Builder.fails own)
  | .method _ _ => fun own => .throw (Builder.fails own)
  | .slice _ _ _ => fun own => .throw (Builder.fails own)
  | .make _ _ => fun own => .throw (Builder.fails own)
  | .composite _ _ => fun own => .throw (Builder.fails own)
  | .structLit _ _ => fun own => .throw (Builder.fails own)
  | .addressOf _ => fun own => .throw (Builder.fails own)
  | .receive _ => fun own => .throw (Builder.fails own)

theorem declaration_crafted {name : String} {ty : GoType} :
    ∀ {value : Option Expr}, Crafted I E (declaration name ty value)
  | some _ => fun own => (Builder.type own).bind fun ty _ own => (expr_crafted own).bind
    fun init _ own => (Builder.text own).bind fun key _ own =>
      Builder.build (Builder.perm own (l := [ty, init] ++ [key]) List.perm_append_comm)
  | none => fun own => (Builder.type own).bind fun ty _ own => (Builder.buildShared own).bind
    fun init _ own => (Builder.text own).bind fun key _ own =>
      Builder.build (Builder.perm own (l := [ty, init] ++ [key]) List.perm_append_comm)

theorem stmt_crafted : ∀ {s : Stmt}, Crafted I E (stmt s)
  | .declare _ _ _ => fun own => declaration_crafted own
  | .assign _ _ => fun own => (address_crafted own).bind fun _ _ own => (expr_crafted own).bind
    fun _ _ own => Builder.build own
  | .step _ _ => fun own => (address_crafted own).bind fun _ _ own => Builder.build own
  | .expr _ => fun own => (expr_crafted own).bind fun _ _ own => Builder.build own
  | .block _ => fun own => block_crafted stmts_crafted own
  | .ifElse _ _ _ => fun own => (expr_crafted own).bind fun _ _ own =>
    (block_crafted stmts_crafted own).bind fun _ _ own => (optionalStmt_crafted own).bind
      fun _ _ own => Builder.build own
  | .forLoop _ _ _ _ => fun own => (loopVariable_crafted own).bind fun loopVar _ own =>
    (optionalStmt_crafted own).bind fun init _ own => (condition_crafted own).bind fun cond _ own =>
      (optionalStmt_crafted own).bind fun update _ own => (block_crafted stmts_crafted own).bind
        fun body _ own => Builder.build
          (Builder.perm own (l := [loopVar] ++ [init, cond, update, body]) List.perm_append_comm)
  | .breakLoop => fun own => Builder.unit own
  | .continueLoop => fun own => Builder.unit own
  | .returnFrom _ => fun own => (optional_crafted own).bind fun _ _ own => Builder.build own
  | .go _ _ => fun own => (expr_crafted own).bind fun _ _ own => (exprs_crafted own).bind
    fun _ _ own => Builder.build own
  | .send _ _ => fun own => (expr_crafted own).bind fun _ _ own => (expr_crafted own).bind
    fun _ _ own => Builder.build own
  | .select _ => fun own => (cases_crafted own).bind fun _ _ own => Builder.build own

theorem stmts_crafted : ∀ {ss : List Stmt}, CraftedList I E (stmts ss)
  | [] => fun own => .pure own
  | _ :: _ => fun own => (stmt_crafted own).bind fun _ _ own => (stmts_crafted own).bind
    fun _ _ own => .pure own

theorem optionalStmt_crafted : ∀ {s : Option Stmt}, Crafted I E (optionalStmt s)
  | none => fun own => .pure (Builder.cons_nil.2 own)
  | some _ => fun own => stmt_crafted own

theorem condition_crafted : ∀ {e : Option Expr}, Crafted I E (condition e)
  | none => fun own => literal_crafted (v := .bool true) own
  | some _ => fun own => expr_crafted own

theorem cases_crafted : ∀ {cs : List SelectCase}, CraftedList I E (cases cs)
  | [] => fun own => .pure own
  | _ :: _ => fun own => (selectCase_crafted own).bind fun _ _ own => (cases_crafted own).bind
    fun _ _ own => .pure own

theorem selectCase_crafted : ∀ {c : SelectCase}, Crafted I E (selectCase c)
  | .send _ _ _ => fun own => (expr_crafted own).bind fun _ _ own => (expr_crafted own).bind
    fun _ _ own => (block_crafted stmts_crafted own).bind fun _ _ own => Builder.build own
  | .receive _ .discard _ => fun own => (expr_crafted own).bind fun _ _ own =>
    (Builder.unit own).bind fun _ _ own => (block_crafted stmts_crafted own).bind fun _ _ own =>
      (Builder.build own).bind fun _ _ own => Builder.build own
  | .receive _ (.define _ _) _ => fun own => by
    refine (expr_crafted own).bind fun channel _ own => ?_
    refine (Builder.text own).bind fun key _ own => ?_
    refine (Builder.type own).bind fun ty _ own => ?_
    refine (Builder.build own).bind fun var _ own => ?_
    refine (stmts_crafted own).bind fun parts _ own => ?_
    refine (Builder.build (l := var :: parts) own).bind fun inner _ own => ?_
    exact (Builder.build own).bind fun rest _ own => Builder.build own
  | .receive _ (.assign _) _ => fun own => (expr_crafted own).bind fun _ _ own =>
    (address_crafted own).bind fun _ _ own => (Builder.unit own).bind fun _ _ own =>
      (block_crafted stmts_crafted own).bind fun _ _ own => (Builder.build own).bind
        fun _ _ own => Builder.build own
  | .default _ => fun own => (block_crafted stmts_crafted own).bind fun _ _ own =>
    Builder.build own

end

theorem globalVars_crafted : ∀ {l : List Decl}, CraftedList I E (globalVars l)
  | [] => fun own => .pure own
  | .var _ _ _ :: _ => fun own => (declaration_crafted own).bind fun _ _ own =>
    (globalVars_crafted own).bind fun _ _ own => .pure own
  | .struct _ _ :: decls => fun own => globalVars_crafted (l := decls) own
  | .func _ :: decls => fun own => globalVars_crafted (l := decls) own

end Lowering
end GoMachine
