import GoMachine.Proofs.Owns.Crafts
import GoMachine.Proofs.Owns.Nodes
/-!
# Ownership of lowered programs

A client that owns references is a builder of nodes. Filling the global frame leaves nothing behind.
-/
namespace GoMachine

open Heap (Owns Leaks stacked laden Within)

variable {P F O : Multiset Address} [Within F O] {n : Nat} {h : Heap}

namespace Lowering

theorem type_makes {I : Nat → Multiset Address → Heap → Prop} [Ledger P I] : ∀ {t : GoType},
    Makes P I 1 (type t)
  | .nil => fun own => TypeDesc.simple_owns own
  | .bool => fun own => TypeDesc.simple_owns own
  | .int32 => fun own => TypeDesc.simple_owns own
  | .float32 => fun own => TypeDesc.simple_owns own
  | .rune => fun own => TypeDesc.simple_owns own
  | .string => fun own => TypeDesc.simple_owns own
  | .func => fun own => TypeDesc.simple_owns own
  | .mutex => fun own => TypeDesc.simple_owns own
  | .waitGroup => fun own => TypeDesc.simple_owns own
  | .array _ _ => fun own => (type_makes own).bind fun _ _ own =>
    .releasing ((TypeDesc.array_owns own).mono fun _ _ own => Account.swap own)
  | .slice _ => fun own => (type_makes own).bind fun _ _ own =>
    .releasing ((TypeDesc.withElem_owns (by rfl) own).mono fun _ _ own => Account.swap own)
  | .chan _ => fun own => (type_makes own).bind fun _ _ own =>
    .releasing ((TypeDesc.withElem_owns (by rfl) own).mono fun _ _ own => Account.swap own)
  | .pointer _ => fun own => (type_makes own).bind fun _ _ own =>
    .releasing ((TypeDesc.withElem_owns (by rfl) own).mono fun _ _ own => Account.swap own)
  | .struct _ => fun own => TypeDesc.named_owns own

instance : Builder (Owns P) (Leaks P) where
  cons_nil := Owns.cons_nil
  fails := .of
  scalar ht := fun own => Scalar.new_owns ht own
  text := fun own => Text.create_owns own
  type := fun own => type_makes own
  unit := fun own => Node.unit_owns own
  build own := Node.build_owns own
  buildShared := fun own => Node.buildShared_owns own

/-! ## Declarations -/

section

variable {I : Nat → Multiset Address → Heap → Prop} [Ledger P I]

theorem members_owns :
    ∀ {ps : List Param} {n : Nat} {F O : Multiset Address} {h : Heap} [Within F O],
    I (n + 1) O h → Pays P F (members ps) h fun ms h' =>
      I (n + 1) (stacked O (ms.map Prod.snd)) h'
  | [] => fun own => .pure own
  | _ :: _ => fun own => (type_makes own).bind fun _ _ own => (members_owns own).bind
    fun _ _ own => .pure own

theorem declareStruct_owns {globals : Address} {name : String} {ps : List Param}
    (own : I (n + 1) O h) :
    Pays P F (declareStruct globals name ps) h fun _ h' => I (n + 1) O h' := by
  refine (members_owns own).bind fun ms h₁ own => ?_
  rw [Heap.stacked_eq_laden] at own
  refine Pays.attempt (G := laden (ms.map Prod.snd) F) (TypeDesc.declare_owns own)
    (fun decl h₂ own => ?_) fun e h₂ leaks => ?_
  · refine (Pays.freeAll (f := Prod.snd) (fun _ => rfl) (Heap.laden_cons ▸ own)).bind
      fun _ h₃ own => ?_
    refine (Pays.conclude_ok (Q := fun r h' => I (n + 1) (r ::ₘ O) h') own).bind
      fun r h₄ own => ?_
    exact .releasing (Frame.insertText_owns own)
  · refine (Pays.freeEach (f := Prod.snd) (fun _ => rfl) (fun leaks => leaks.frees.heap) leaks).bind
      fun _ _ leaks => ?_
    exact (Pays.conclude_error (Q := fun _ _ => False) leaks).bind fun _ _ h => h.elim

/-- A binding that went through leaves nothing behind. -/
theorem bindFunction_owns {globals f : Address} {decl : FuncDecl} (own : I (n + 1) O h) :
    Pays P F (bindFunction globals decl f) h fun r h' =>
      Leaks P F h' ∧ (r = .ok () → I (n + 1) O h') := by
  unfold bindFunction
  split
  · split
    · exact .throw own
    · exact (Frame.insertText_owns own).attempted (fun _ _ own => ⟨.of own, fun _ => own⟩)
        fun _ _ leaks => ⟨leaks, fun e => nomatch e⟩
  · refine (TypeDesc.simple_owns own).bind fun type h₁ own => ?_
    refine (Pays.releasing (n := n + 1) (K := fun var => var ::ₘ O)
      ((Variable.create_owns own).mono fun _ _ own => Account.swap own)).bind fun var h₂ own => ?_
    refine Pays.attempt (G := var ::ₘ F) (Frame.insertText_owns own) (fun _ h₃ own => ?_)
      fun e h₃ leaks => ?_
    · exact (Account.free own).heap.bind fun _ _ own => .pure ⟨.of own, fun _ => own⟩
    · exact leaks.frees.heap.bind fun _ _ leaks => .pure ⟨leaks, fun e => nomatch e⟩

end

theorem declareFunction_owns {globals : Address} {decl : FuncDecl} (own : Owns P (n + 1) O h) :
    Pays P F (declareFunction globals decl) h fun _ h' => Owns P (n + 1) O h' := by
  refine (sequence_crafted stmts_crafted own).bind fun body h₁ own => ?_
  refine (function_crafts own).bind fun literal h₂ own => ?_
  refine (Pays.releasing (n := n + 1) (K := fun f => f ::ₘ O)
    ((Closure.create_owns own).mono fun _ _ own => own.swap)).bind fun f h₃ own => ?_
  refine ((bindFunction_owns (F := f ::ₘ F) own).anti (Multiset.le_cons_self F f)).bind
    fun bound h₄ ⟨leaks, owned⟩ => ?_
  cases bound with
  | error e => exact leaks.frees.heap.bind fun _ _ leaks => .conclude_error leaks
  | ok => exact (owned rfl).free.heap.bind fun _ _ own => .conclude_ok own

theorem declareAll_owns {globals : Address} : ∀ {l : List Decl} {h : Heap},
    Owns P (n + 1) O h → Pays P F (declareAll globals l) h fun _ h' => Owns P (n + 1) O h'
  | [], _, own => .pure own
  | .struct _ _ :: _, _, own => (declareStruct_owns own).bind fun _ _ own => declareAll_owns own
  | .func _ :: _, _, own => (declareFunction_owns own).bind fun _ _ own => declareAll_owns own
  | .var .. :: decls, _, own => declareAll_owns (l := decls) own

theorem linkBuiltins_owns {I : Nat → Multiset Address → Heap → Prop} [Ledger P I]
    {globals : Address} {imports : List String} (own : I (n + 1) O h) :
    Pays P F (linkBuiltins globals imports) h fun _ h' => I (n + 1) O h' := by
  refine (Pays.conclude (Q := fun _ h' => I (n + 1) O h') own fun _ _ => own).bind
    fun names h₁ own => ?_
  refine (TypeDesc.simple_owns own).bind fun type h₂ own => ?_
  refine (Pays.forIn (I := fun _ h' => I (n + 1) (type ::ₘ O) h') own ?_).bind
    fun _ _ own => (Account.free own).heap
  intro name rest h own
  refine (BuiltinRef.create_owns own).bind fun native h₁ own => ?_
  refine (Variable.createOwned_owns own).bind fun var h₂ own => ?_
  refine (Pays.releasing (n := n + 1) (K := fun _ => type ::ₘ O)
    (Frame.insertText_owns own)).bind fun _ _ own => .pure ⟨rfl, own⟩

/-- A program that is loaded is one reference to the node that runs it. -/
theorem load_owns {globals : Address} {program : Program} (own : Owns P (n + 1) O h) :
    Pays P F (load globals program) h fun node h' => Owns P (n + 1) (node ::ₘ O) h' := by
  refine .guard own fun _ => (linkBuiltins_owns own).bind fun _ h₁ own => ?_
  refine (declareAll_owns own).bind fun _ h₂ own => ?_
  refine (globalVars_crafted own).bind fun vars h₃ own => ?_
  refine (named_crafted own).bind fun main h₄ own => ?_
  refine (Node.build_owns own).bind fun call h₅ own => ?_
  refine (Node.build_owns own).bind fun start h₆ own => ?_
  refine Node.build_owns ?_
  rw [Heap.stacked_append]
  exact own

end Lowering
end GoMachine
