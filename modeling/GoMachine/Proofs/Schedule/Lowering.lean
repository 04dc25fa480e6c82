import GoMachine.Lowering
import GoMachine.Proofs.Schedule.Nodes
/-!
# What loading does

The nodes of a program, its types and the entries of the global frame are made anew: loading is
`Tame`.
-/
namespace GoMachine.Lowering

open Heap (Orderly)

variable {c : List Address} {a b v : Address}

/-- A node with a name has the text of it as its only child. -/
@[grind ←]
theorem named_tame {tag : Tag} {name : String} (ht : tag.isOpen) (ht' : tag.isPersonal = false) :
    Tame c (named tag name) := by
  unfold named
  grind

/-- The inner type is given up once the outer one refers to it. -/
theorem composed_tame {make : Address → Action Address} (hm : Tame c (make a))
    (ha : a ∈ .nil :: c) :
    Tame c (composed make a) := .releasing ha hm

/-- A type is made from the inside out. -/
theorem type_tame {ty : GoType} : Tame c (type ty) := by
  induction ty generalizing c with
  | array elem size ih =>
    exact .bind ih fun _ => composed_tame (TypeDesc.array_tame (by grind)) (by grind)
  | slice elem ih =>
      exact .bind ih fun _ => composed_tame (TypeDesc.slice_tame (by grind)) (by grind)
  | chan elem ih =>
      exact .bind ih fun _ => composed_tame (TypeDesc.channel_tame (by grind)) (by grind)
  | pointer elem ih =>
    exact .bind ih fun _ => composed_tame (TypeDesc.pointer_tame (by grind)) (by grind)
  | struct name => exact TypeDesc.named_tame
  | _ => exact TypeDesc.simple_tame

theorem literal_tame {value : Literal} : Tame c (literal value) := by
  unfold literal
  split <;> grind

theorem params_tame : ∀ {ps : List Param} {c : List Address}, Tame c (params ps)
  | [], _ => .pure (List.nil_subset _)
  | _ :: _, _ => .bind Text.create_tame fun _ => .bind type_tame fun _ => .bind params_tame
    fun _ => .pure (by grind)

theorem receiver_tame : ∀ {rcv : Option Param}, Tame c (receiver rcv)
  | none => .pure (by grind)
  | some _ => params_tame

/-- The body comes first, and then the receiver and the parameters. -/
theorem function_tame {rcv : Option Param} {ps : List Param} (ha : a ∈ .nil :: c) :
    Tame c (function a rcv ps) :=
  .bind receiver_tame fun _ => .bind params_tame fun _ => Node.build_tame rfl rfl (by grind)

theorem loopVariable_tame {init : Option Stmt} : Tame c (loopVariable init) := by
  unfold loopVariable
  split
  · exact Text.create_tame
  · exact .pure (by grind)

theorem sequence_tame {body : Action (List Address)} (hb : Tame c body) : Tame c (sequence body) :=
  .bind hb fun _ => Node.build_tame rfl rfl (by grind)

theorem block_tame {body : Action (List Address)} (hb : Tame c body) : Tame c (block body) :=
  .bind (sequence_tame hb) fun _ => Node.build_tame rfl rfl (by grind)

theorem fieldNames_tame : ∀ {fields : List (String × Expr)} {c : List Address},
    Tame c (fieldNames fields)
  | [], _ => .pure (List.nil_subset _)
  | _ :: _, _ => .bind Text.create_tame fun _ => .bind fieldNames_tame fun _ => .pure (by grind)

mutual

/-- Lowering makes the parts of a construct in turn, and each comes with what was made before. -/
theorem expr_tame : ∀ {e : Expr} {c : List Address}, Tame c (expr e)
  | .literal _, _ => literal_tame
  | .name _, _ => named_tame rfl rfl
  | .unary _ _, _ => .bind expr_tame fun _ => Node.build_tame rfl rfl (by grind)
  | .binary _ _ _, _ => .bind expr_tame fun _ => .bind expr_tame fun _ =>
    Node.build_tame rfl rfl (by grind)
  | .call _ _, _ => .bind expr_tame fun _ => .bind exprs_tame fun _ =>
    Node.build_tame rfl rfl (by grind)
  | .func _ _ _, _ => .bind (sequence_tame stmts_tame) fun _ => function_tame (by grind)
  | .member _ _, _ => .bind expr_tame fun _ => .bind Text.create_tame fun _ =>
    Node.build_tame rfl rfl (by grind)
  | .method _ _, _ => .bind expr_tame fun _ => .bind Text.create_tame fun _ =>
    Node.build_tame rfl rfl (by grind)
  | .index _ _, _ => .bind expr_tame fun _ => .bind expr_tame fun _ =>
    Node.build_tame rfl rfl (by grind)
  | .slice _ _ _, _ => .bind expr_tame fun _ => .bind optional_tame fun _ => .bind optional_tame
    fun _ => Node.build_tame rfl rfl (by grind)
  | .make _ _, _ => .bind type_tame fun _ => .bind exprs_tame fun _ =>
    Node.build_tame rfl rfl (by grind)
  | .composite _ _, _ => .bind type_tame fun _ => .bind exprs_tame fun _ =>
    Node.build_tame rfl rfl (by grind)
  | .structLit _ _, _ => .bind Text.create_tame fun _ => .bind fieldNames_tame fun _ =>
    .bind fieldValues_tame fun _ => Node.build_tame rfl rfl (by grind)
  | .addressOf operand, _ => by
    unfold expr
    split
    · exact .bind address_tame fun _ => Node.build_tame rfl rfl (by grind)
    · exact .bind expr_tame fun _ => Node.build_tame rfl rfl (by grind)
  | .deref _, _ => .bind expr_tame fun _ => Node.build_tame rfl rfl (by grind)
  | .receive _, _ => .bind expr_tame fun _ => Node.build_tame rfl rfl (by grind)

theorem exprs_tame : ∀ {es : List Expr} {c : List Address}, Tame c (exprs es)
  | [], _ => .pure (List.nil_subset _)
  | _ :: _, _ => .bind expr_tame fun _ => .bind exprs_tame fun _ => .pure (by grind)

theorem optional_tame : ∀ {e : Option Expr} {c : List Address}, Tame c (optional e)
  | none, _ => .pure (by grind)
  | some _, _ => expr_tame

theorem fieldValues_tame : ∀ {fields : List (String × Expr)} {c : List Address},
    Tame c (fieldValues fields)
  | [], _ => .pure (List.nil_subset _)
  | (_, _) :: _, _ => .bind expr_tame fun _ => .bind fieldValues_tame fun _ => .pure (by grind)

/-- Only names, members, elements and what a pointer points to have an address. -/
theorem address_tame : ∀ {e : Expr} {c : List Address}, Tame c (address e)
  | .name _, _ => named_tame rfl rfl
  | .member _ _, _ => .bind expr_tame fun _ => .bind Text.create_tame fun _ =>
    Node.build_tame rfl rfl (by grind)
  | .index _ _, _ => .bind expr_tame fun _ => .bind expr_tame fun _ =>
    Node.build_tame rfl rfl (by grind)
  | .deref _, _ => .bind expr_tame fun _ => Node.build_tame rfl rfl (by grind)
  | .literal _, _ => .throw
  | .unary _ _, _ => .throw
  | .binary _ _ _, _ => .throw
  | .call _ _, _ => .throw
  | .func _ _ _, _ => .throw
  | .method _ _, _ => .throw
  | .slice _ _ _, _ => .throw
  | .make _ _, _ => .throw
  | .composite _ _, _ => .throw
  | .structLit _ _, _ => .throw
  | .addressOf _, _ => .throw
  | .receive _, _ => .throw

/-- Without a value the node for the zero value is made of the same type. -/
theorem declaration_tame {name : String} {ty : GoType} : ∀ {value : Option Expr} {c : List Address},
    Tame c (declaration name ty value)
  | some _, _ => .bind type_tame fun _ => .bind expr_tame fun _ => .bind Text.create_tame fun _ =>
    Node.build_tame rfl rfl (by grind)
  | none, _ => .bind type_tame fun _ => .bind (Node.buildShared_tame rfl rfl (by grind)) fun _ =>
    .bind Text.create_tame fun _ => Node.build_tame rfl rfl (by grind)

/-- Statements are lowered as expressions are, with blocks for bodies. -/
theorem stmt_tame : ∀ {s : Stmt} {c : List Address}, Tame c (stmt s)
  | .declare _ _ _, _ => declaration_tame
  | .assign _ _, _ => .bind address_tame fun _ => .bind expr_tame fun _ =>
    Node.build_tame rfl rfl (by grind)
  | .step _ _, _ => .bind address_tame fun _ => Node.build_tame rfl rfl (by grind)
  | .expr _, _ => .bind expr_tame fun _ => Node.build_tame rfl rfl (by grind)
  | .block _, _ => block_tame stmts_tame
  | .ifElse _ _ _, _ => .bind expr_tame fun _ => .bind (block_tame stmts_tame) fun _ =>
    .bind optionalStmt_tame fun _ => Node.build_tame rfl rfl (by grind)
  | .forLoop _ _ _ _, _ => .bind loopVariable_tame fun _ => .bind optionalStmt_tame fun _ =>
    .bind condition_tame fun _ => .bind optionalStmt_tame fun _ => .bind (block_tame stmts_tame)
      fun _ => Node.build_tame rfl rfl (by grind)
  | .breakLoop, _ => Node.unit_tame rfl
  | .continueLoop, _ => Node.unit_tame rfl
  | .returnFrom _, _ => .bind optional_tame fun _ => Node.build_tame rfl rfl (by grind)
  | .go _ _, _ => .bind expr_tame fun _ => .bind exprs_tame fun _ =>
    Node.build_tame rfl rfl (by grind)
  | .send _ _, _ => .bind expr_tame fun _ => .bind expr_tame fun _ =>
    Node.build_tame rfl rfl (by grind)
  | .select _, _ => .bind cases_tame fun _ => Node.build_tame rfl rfl (by grind)

theorem stmts_tame : ∀ {ss : List Stmt} {c : List Address}, Tame c (stmts ss)
  | [], _ => .pure (List.nil_subset _)
  | _ :: _, _ => .bind stmt_tame fun _ => .bind stmts_tame fun _ => .pure (by grind)

theorem optionalStmt_tame : ∀ {s : Option Stmt} {c : List Address}, Tame c (optionalStmt s)
  | none, _ => .pure (by grind)
  | some _, _ => stmt_tame

theorem condition_tame : ∀ {e : Option Expr} {c : List Address}, Tame c (condition e)
  | none, _ => show Tame _ (literal (.bool true)) from literal_tame
  | some _, _ => expr_tame

theorem cases_tame : ∀ {cs : List SelectCase} {c : List Address}, Tame c (cases cs)
  | [], _ => .pure (List.nil_subset _)
  | _ :: _, _ => .bind selectCase_tame fun _ => .bind cases_tame fun _ => .pure (by grind)

/-- What is done with the value that is received comes in front of the body. -/
theorem selectCase_tame : ∀ {s : SelectCase} {c : List Address}, Tame c (selectCase s)
  | .send _ _ _, _ => .bind expr_tame fun _ => .bind expr_tame fun _ =>
    .bind (block_tame stmts_tame) fun _ => Node.build_tame rfl rfl (by grind)
  | .receive _ .discard _, _ => .bind expr_tame fun _ => .bind (Node.unit_tame rfl) fun _ =>
    .bind (block_tame stmts_tame) fun _ => .bind (Node.build_tame rfl rfl (by grind)) fun _ =>
      Node.build_tame rfl rfl (by grind)
  | .receive _ (.define _ _) _, _ => .bind expr_tame fun _ => .bind Text.create_tame fun _ =>
    .bind type_tame fun _ => .bind (Node.build_tame rfl rfl (by grind)) fun _ =>
      .bind stmts_tame fun _ => .bind (Node.build_tame rfl rfl (by grind)) fun _ =>
        .bind (Node.build_tame rfl rfl (by grind)) fun _ => Node.build_tame rfl rfl (by grind)
  | .receive _ (.assign _) _, _ => .bind expr_tame fun _ => .bind address_tame fun _ =>
    .bind (Node.unit_tame rfl) fun _ => .bind (block_tame stmts_tame) fun _ =>
      .bind (Node.build_tame rfl rfl (by grind)) fun _ => Node.build_tame rfl rfl (by grind)
  | .default _, _ => .bind (block_tame stmts_tame) fun _ => Node.build_tame rfl rfl (by grind)

end

/-! ## Declarations -/

theorem members_tame : ∀ {ps : List Param} {c : List Address}, Tame c (members ps)
  | [], _ => .pure (List.nil_subset _)
  | _ :: _, _ => .bind type_tame fun _ => .bind members_tame fun _ => .pure (by grind)

/-- The types of the members are dropped again when the declaration has taken them. -/
theorem declareStruct_tame {name : String} {ps : List Param} :
    Tame c (declareStruct a name ps) := by
  refine .bind members_tame fun ms => ?_
  have known : ∀ m ∈ ms, m.2 ∈ addresses ms := fun m hm =>
    mem_addresses_list.2 ⟨m, hm, by simp [addresses]⟩
  refine .attempt (TypeDesc.declare_tame fun m hm => by simp [known m hm]) (fun decl => ?_)
    fun e s => ?_
  · refine .bind (.forIn fun m hm => .bind (.heap (.free ?_)) fun _ => .pure (by grind)) fun _ => ?_
    · simp [known m hm]
    · refine .bind (.conclude (by grind)) fun decl =>
        .releasing (by grind) (Frame.insertText_tame (by grind))
  · exact Yields.any.bind fun _ _ _ =>
      (Yields.conclude_error (Q := fun _ _ => False)).bind fun _ _ no => no.elim

/-- A binding that went through kept to what is not private. -/
theorem bindFunction_keeps {decl : FuncDecl} {K : Set Address} {F : Facts} {O : Multiset Address}
    {h : Heap} (o : Orderly K F O 0 h) (hc : ∀ a ∈ c, h.Plain F a) (hv : v ∈ .nil :: c) :
    Yields (bindFunction a decl v) h fun r h' => r = .ok () → Kept K F O h [] h' := by
  unfold bindFunction
  split
  · split
    · exact .throw
    · exact (Frame.insertText_tame hv o hc).attempt (fun _ _ k _ => k) fun _ _ e => nomatch e
  · refine (TypeDesc.simple_tame o hc).bind fun type h₁ k => ?_
    have hc₁ : ∀ a ∈ type :: c, h₁.Plain F a := by
      rw [List.forall_mem_cons]
      exact ⟨k.plain type (by simp), fun a ha => k.later.plain (hc a ha)⟩
    refine ((Tame.releasing (by grind) (Variable.create_tame (by grind) (by grind))) k.orderly
      hc₁).bind fun var h₂ k₂ => ?_
    replace k₂ := k.trans k₂
    refine (Yields.attempt (E := fun r h' => r = .ok () → Kept K F O h [var] h')
      (Frame.insertText_tame (c := [var]) (by grind) k₂.orderly k₂.plain)
      (fun _ _ k _ => ⟨k.orderly, k₂.later.trans k.later, k₂.firm.trans k.firm, rfl, fun b hb =>
      k.later.plain (k₂.plain b hb)⟩)
      fun _ _ e => nomatch e).bind fun bound h₃ kept => ?_
    cases bound with
    | error e => exact Yields.any.bind fun _ _ _ => .pure fun e => nomatch e
    | ok =>
      refine (Tame.heap (.free (c := [var]) (by grind)) (kept rfl).orderly (kept rfl).plain).bind
        fun _ _ k => .pure fun _ => (kept rfl).trans k

/-- A function is bound by its name, and a method by that of its type as well. -/
theorem declareFunction_tame {decl : FuncDecl} (ha : a ∈ .nil :: c) :
    Tame c (declareFunction a decl) := by
  refine .bind (sequence_tame stmts_tame) fun body =>
    .bind (function_tame (by grind)) fun literal =>
    .bind (.releasing (by grind) (Closure.create_tame (by grind) (by grind))) fun f => ?_
  intro K F O h o hc
  refine (bindFunction_keeps o hc (by grind)).bind fun bound h₁ kept => ?_
  cases bound with
  | error e => exact Yields.any.bind fun _ _ _ => .conclude_error
  | ok =>
    have k := kept rfl
    refine (Tame.heap (.free (c := [f]) (by grind)) k.orderly ?_).bind fun _ _ k' =>
      .conclude fun _ _ => k.trans k'
    exact fun b hb => k.later.plain (hc b (by grind))

theorem globalVars_tame : ∀ {l : List Decl} {c : List Address}, Tame c (globalVars l)
  | [], _ => .pure (List.nil_subset _)
  | .var _ _ _ :: _, _ =>
    .bind declaration_tame fun _ => .bind globalVars_tame fun _ => .pure (by grind)
  | .struct _ _ :: decls, _ => globalVars_tame (l := decls)
  | .func _ :: decls, _ => globalVars_tame (l := decls)

/-- Structs and functions are declared in order. Global variables come later, when the program runs.
-/
theorem declareAll_tame : ∀ {l : List Decl} {c : List Address}, a ∈ .nil :: c →
    Tame c (declareAll a l)
  | [], _, _ => .pure (List.nil_subset _)
  | .struct _ _ :: _, _, ha => .bind declareStruct_tame fun _ => declareAll_tame (by grind)
  | .func _ :: _, _, ha => .bind (declareFunction_tame ha) fun _ => declareAll_tame (by grind)
  | .var .. :: decls, _, ha => declareAll_tame (l := decls) ha

/-- The names of the builtins that a program may use are bound. -/
theorem linkBuiltins_tame {imports : List String} : Tame c (linkBuiltins a imports) := by
  refine .bind (.check fun names => by simp) fun names => .bind TypeDesc.simple_tame fun type => 
    .bind (.forIn fun name _ => ?_) fun _ => .heap (.free (by grind))
  refine .bind BuiltinRef.create_tame fun native =>
    .bind (Variable.createOwned_tame (by grind) (by grind))
    fun var => .bind (.releasing (by grind) (Frame.insertText_tame (by grind))) fun _ =>
    .pure (by grind)

/-- All that is made before the main thread is tame, so loading leaves the run queue alone. -/
theorem load_tame {program : Program} (ha : a ∈ .nil :: c) : Tame c (load a program) :=
  .guard fun _ => .bind linkBuiltins_tame fun _ => .bind (declareAll_tame (by grind)) fun _ =>
    .bind globalVars_tame fun vars => .bind (named_tame rfl rfl) fun main =>
      .bind (Node.build_tame rfl rfl (by grind)) fun call =>
        .bind (Node.build_tame rfl rfl (by grind)) fun start => Node.build_tame rfl rfl (by grind)

end GoMachine.Lowering
