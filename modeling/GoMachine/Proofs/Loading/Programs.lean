import GoMachine.Proofs.Loading.Bindings
import GoMachine.Proofs.Owns.Lowering
/-!
# What loading binds

The builtins of the packages that a program imports, its structs, functions and methods are bound in
the global frame one after another, each when it is made. So whenever loading fails, some of them
may be bound, and nothing else has become of what was there before.

* `Program.keys`: the keys that loading may bind.
* `Lowering.load_opens`: the global frame is opened for these keys, whether loading succeeds or
  fails.
-/
namespace GoMachine

open Ground (Bears Left)
open Heap (Owns stacked laden Within)

/-- The key under which a declaration is bound in the global frame, if it is. -/
def Decl.key? : Decl → Option String
  | .var .. => none
  | .struct name _ => some (TypeDesc.structKey name)
  | .func decl => match decl.receiver with
    | none => some decl.name
    | some rcv => rcv.type.receiverName?.map (TypeDesc.methodKey · decl.name)

/-- The keys under which loading binds builtins and declarations. -/
def Program.keys (p : Program) : List String :=
  Builtin.exports "" ++ p.imports.flatMap Builtin.exports ++ p.decls.filterMap Decl.key?

/-- The client owns `O` besides what keeps the ground, a frame of which was opened. -/
def Opened (P : Multiset Address) (f : Address) (names : List String) (G : Ground) (n : Nat)
    (O : Multiset Address)
    (h : Heap) : Prop :=
  ∃ G', G.Opens f names G' ∧ G'.Bears P n O h

/-- The client owns at least `D` besides what keeps the ground, a frame of which was opened. -/
def OpenedLeft (P : Multiset Address) (f : Address) (names : List String) (G : Ground)
    (D : Multiset Address)
    (h : Heap) : Prop :=
  ∃ G', G.Opens f names G' ∧ G'.Left P D h

variable {P D O : Multiset Address} [Within D O] {G : Ground} {n m : Nat} {h h' : Heap}
    {f a : Address}
  {names : List String} {name : String}

namespace Opened

omit [Within D O] in
/-- Who leaves every ground as it was also leaves one that was opened. -/
theorem lift {α : Type} {x : Action α} {K : α → Multiset Address} (w : Opened P f names G n O h)
    (hx : ∀ {G'}, Bears P G' n O h → Crafts (G'.Left P) D x h fun a h' => G'.Bears P m (K a) h') :
    Crafts (OpenedLeft P f names G) D x h fun a h' => Opened P f names G m (K a) h' := by
  obtain ⟨G', opens, b⟩ := w
  exact ((hx b).mono fun _ _ b => ⟨G', opens, b⟩).weaken fun _ _ left => ⟨G', opens, left⟩

theorem left (w : Opened P f names G n O h) : OpenedLeft P f names G D h := by
  obtain ⟨G', opens, b⟩ := w
  exact ⟨G', opens, b.left⟩

instance : Builder (Opened P f names G) (OpenedLeft P f names G) where
  cons_nil := ⟨fun ⟨G', opens, b⟩ => ⟨G', opens, Bears.cons_nil.1 b⟩, fun ⟨G', opens, b⟩ =>
  ⟨G', opens, Bears.cons_nil.2 b⟩⟩
  fails w := w.left
  scalar _ := fun w => w.lift fun b => Scalar.new_bears b
  text := fun w => w.lift fun b => Text.create_bears b
  type := fun w => w.lift fun b => Lowering.type_bears b
  unit := fun w => w.lift fun b => Node.unit_bears b
  build w := w.lift fun b => Node.build_bears b
  buildShared := fun w => w.lift fun b => Node.buildShared_bears b

theorem swap {b : Address} (w : Opened P f names G n (a ::ₘ b ::ₘ O) h) :
    Opened P f names G n (b ::ₘ a ::ₘ O) h := by
  rwa [Multiset.cons_swap]

theorem frees (w : Opened P f names G n (a ::ₘ O) h) :
    Gives (HeapM.free a) h fun _ h' => Opened P f names G n O h' := by
  obtain ⟨G', opens, b⟩ := w
  exact b.frees.mono fun _ _ b => ⟨G', opens, b⟩

end Opened

theorem OpenedLeft.free (w : OpenedLeft P f names G (a ::ₘ D) h) :
    Gives (HeapM.free a) h fun _ h' => OpenedLeft P f names G D h' := by
  obtain ⟨G', opens, left⟩ := w
  exact left.free.mono fun _ _ left => ⟨G', opens, left⟩

theorem OpenedLeft.anti {D' : Multiset Address} (w : OpenedLeft P f names G D' h) (le : D ≤ D') :
    OpenedLeft P f names G D h := by
  obtain ⟨G', opens, left⟩ := w
  exact ⟨G', opens, left.anti le⟩

/-- A loop that drops references. -/
theorem Crafts.freeEach {β : Type} {E J : Multiset Address → Heap → Prop} {D O : Multiset Address}
    {l : List β}
    {g : β → Address} {body : β → PUnit → Action (ForInStep PUnit)} {h : Heap}
    (form : ∀ x, body x ⟨⟩ = do let _ ← (HeapM.free (g x) : Action Unit); return .yield ⟨⟩)
    (frees : ∀ {O a h}, J (a ::ₘ O) h → Gives (HeapM.free a) h fun _ h' => J O h')
    (own : J (laden (l.map g) O) h) :
    Crafts E D (ForIn.forIn l PUnit.unit body) h fun _ h' => J O h' := by
  refine Crafts.forIn (I := fun rest h' => J (laden (rest.map g) O) h') own fun x rest h own => ?_
  rw [form]
  have freed : Crafts E D (HeapM.free (g x)) h fun _ h' => J (laden (rest.map g) O) h' :=
    (frees own).ends
  exact freed.heap.bind fun _ _ own => .pure ⟨rfl, own⟩

namespace Opened

omit [Within D O] in
/-- A reference is dropped however an action ends. -/
theorem releasing {α : Type} {x : Action α} {K : α → Multiset Address}
    (hx : Crafts (OpenedLeft P f names G) (a ::ₘ D) x h fun b h' =>
    Opened P f names G n (a ::ₘ K b) h') :
    Crafts (OpenedLeft P f names G) D (Action.releasing a x) h fun b h' =>
    Opened P f names G n (K b) h' :=
  Crafts.releasing hx (fun _ _ w => w.frees) fun _ left => left.free

/-- A text is bound in the frame. -/
theorem insertText {value : Address} (w : Opened P f names G (n + 1) O h) (known : G.facts f ≠ none)
    (mem : name ∈ names) :
    Crafts (OpenedLeft P f names G) D (Frame.insertText f name value) h fun _ h' =>
    Opened P f names G (n + 1) O h' := by
  obtain ⟨G', opens, b⟩ := w
  refine ((Frame.insertText_widens b (opens.facts.known known) mem).mono ?_).weaken fun _ _ left =>
    ⟨G', opens, left⟩
  exact fun _ _ ⟨G'', opens', b⟩ => ⟨G'', opens.trans opens', b⟩

end Opened

namespace Lowering

variable {globals : Address} {ps : List Param}

theorem members_opens :
    ∀ {ps : List Param} {n : Nat} {D O : Multiset Address} {h : Heap} [Within D O],
    Opened P f names G (n + 1) O h → Crafts (OpenedLeft P f names G) D (members ps) h fun ms h' =>
      Opened P f names G (n + 1) (stacked O (ms.map Prod.snd)) h'
  | [] => fun w => .pure w
  | _ :: _ =>
      fun w => (Builder.type w).bind fun _ _ w => (members_opens w).bind fun _ _ w => .pure w

theorem declareStruct_opens (w : Opened P globals names G (n + 1) O h)
    (known : G.facts globals ≠ none)
    (mem : TypeDesc.structKey name ∈ names) :
    Crafts (OpenedLeft P globals names G) D (declareStruct globals name ps) h
      fun _ h' => Opened P globals names G (n + 1) O h' := by
  refine (members_opens w).bind fun ms h₁ w => ?_
  rw [Heap.stacked_eq_laden] at w
  refine Crafts.attempt (M := laden (ms.map Prod.snd) D) (w.lift fun b => TypeDesc.declare_bears b)
    (fun decl h₂ w => ?_) fun e h₂ left => ?_
  · rw [Heap.laden_cons] at w
    refine (Crafts.freeEach (fun _ => rfl) Opened.frees w).bind fun _ h₃ w => ?_
    exact Opened.releasing (K := fun _ => O) (w.insertText known mem)
  · refine (Crafts.freeEach (fun _ => rfl) OpenedLeft.free left).bind fun _ h₃ left => ?_
    exact .throw left

/-- A binding is made, or it is known that it was not. -/
theorem bindFunction_opens {decl : FuncDecl} (w : Opened P globals names G (n + 1) O h)
    (known : G.facts globals ≠ none)
    (mem : ∀ key, Decl.key? (.func decl) = some key → key ∈ names) :
    Crafts (OpenedLeft P globals names G) D (bindFunction globals decl a) h fun r h' =>
      OpenedLeft P globals names G D h' ∧ (r = .ok () → Opened P globals names G (n + 1) O h') := by
  unfold bindFunction
  split
  · next rcv received =>
    split
    · exact .throw w.left
    · next owner owned =>
      have key : TypeDesc.methodKey owner decl.name ∈ names :=
        mem _ (by simp [Decl.key?, received, owned])
      refine (Ends.attempt (w.insertText (D := D) known key)).ends.mono ?_
      rintro _ h' (⟨_, rfl, w⟩ | ⟨e, rfl, left⟩)
      · exact ⟨w.left, fun _ => w⟩
      · exact ⟨left, fun e => nomatch e⟩
  · next received =>
    refine (w.lift fun b => TypeDesc.simple_bears b).bind fun type h₁ w => ?_
    refine (Opened.releasing (n := n + 1) (K := fun var => var ::ₘ O)
      ((w.lift fun b => Variable.create_bears b).mono fun _ _ w => w.swap)).bind fun var h₂ w => ?_
    refine Crafts.attempt (M := var ::ₘ D)
      (w.insertText known (mem _ (by simp [Decl.key?, received])))
      (fun _ h₃ w => ?_) fun e h₃ left => ?_
    · exact w.frees.ends.heap.bind fun _ _ w => .pure ⟨w.left, fun _ => w⟩
    · exact left.free.ends.heap.bind fun _ _ left => .pure ⟨left, fun e => nomatch e⟩

theorem declareFunction_opens {decl : FuncDecl} (w : Opened P globals names G (n + 1) O h)
    (known : G.facts globals ≠ none) (mem : ∀ key, Decl.key? (.func decl) = some key →
    key ∈ names) :
    Crafts (OpenedLeft P globals names G) D (declareFunction globals decl) h fun _ h' =>
      Opened P globals names G (n + 1) O h' := by
  refine (sequence_crafted stmts_crafted w).bind fun body h₁ w => ?_
  refine (function_crafts w).bind fun literal h₂ w => ?_
  refine (Opened.releasing (n := n + 1) (K := fun f => f ::ₘ O)
    ((w.lift fun b => Closure.create_bears b).mono fun _ _ w => w.swap)).bind fun f h₃ w => ?_
  have bound : Crafts (OpenedLeft P globals names G) D (bindFunction globals decl f) h₃ _ :=
    (bindFunction_opens (D := f ::ₘ D) w known mem).weaken fun _ _ left =>
    left.anti (Multiset.le_cons_self D f)
  refine bound.bind fun bound h₄ ⟨left, opened⟩ => ?_
  cases bound with
  | error e => exact (left.free.ends.heap).bind fun _ _ left => .throw left
  | ok => exact ((opened rfl).frees.ends.heap).bind fun _ _ w => .pure w

theorem declareAll_opens : ∀ {l : List Decl} {h : Heap}, Opened P globals names G (n + 1) O h →
    G.facts globals ≠ none →
    (∀ decl ∈ l, ∀ key, decl.key? = some key → key ∈ names) →
    Crafts (OpenedLeft P globals names G) D (declareAll globals l) h fun _ h' =>
    Opened P globals names G (n + 1) O h'
  | [], _, w, _, _ => .pure w
  | .struct _ _ :: _, _, w, known, mem => 
    (declareStruct_opens w known (mem (.struct _ _) List.mem_cons_self _ rfl)).bind
      fun _ _ w => declareAll_opens w known fun decl hd => mem decl (List.mem_cons_of_mem _ hd)
  | .func _ :: _, _, w, known, mem =>
    (declareFunction_opens w known (mem _ List.mem_cons_self)).bind
    fun _ _ w => declareAll_opens w known fun decl hd => mem decl (List.mem_cons_of_mem _ hd)
  | .var .. :: decls, _, w, known, mem => declareAll_opens (l := decls) w known fun decl hd =>
    mem decl (List.mem_cons_of_mem _ hd)

theorem visible_ok {imports found : List String} (seen : visible imports = .ok found) :
    found = imports.flatMap Builtin.exports := by
  induction imports generalizing found with
  | nil => cases seen; rfl
  | cons package imports ih =>
    rw [visible] at seen
    split at seen
    · cases seen
    · obtain ⟨rest, others, e⟩ :=
        except_bind_ok.1 (show (visible imports >>= fun rest => _) = _ from seen)
      obtain rfl := except_pure_ok.1 e
      rw [ih others, List.flatMap_cons]

theorem linkBuiltins_opens {imports : List String} (w : Opened P globals names G (n + 1) O h)
    (known : G.facts globals ≠ none)
    (mem : ∀ key ∈ Builtin.exports "" ++ imports.flatMap Builtin.exports, key ∈ names) :
    Crafts (OpenedLeft P globals names G) D (linkBuiltins globals imports) h fun _ h' =>
      Opened P globals names G (n + 1) O h' := by
  have seen : Crafts (OpenedLeft P globals names G) D
    (ActionOn.conclude (visible imports)) h fun found h' =>
      h' = h ∧ found = imports.flatMap Builtin.exports := by
    cases seen : visible imports with
    | error e => exact .throw w.left
    | ok found => exact .pure ⟨rfl, visible_ok seen⟩
  refine seen.bind ?_
  rintro _ _ ⟨rfl, rfl⟩
  refine (w.lift fun b => TypeDesc.simple_bears b).bind fun type h₁ w => ?_
  refine (Crafts.forIn (I := fun l h' => (∀ key ∈ l, key ∈ names) ∧
    Opened P globals names G (n + 1) (type ::ₘ O) h')
    ⟨mem, w⟩ ?_).bind fun _ _ ⟨_, w⟩ => w.frees.ends.heap
  intro key rest h ⟨mem, w⟩
  refine (w.lift fun b => BuiltinRef.create_bears b).bind fun native h₂ w => ?_
  refine (w.lift fun b => Variable.createOwned_bears b).bind fun var h₃ w => ?_
  refine (Opened.releasing (K := fun _ => type ::ₘ O)
    (w.insertText known (mem key List.mem_cons_self))).bind
    fun _ h₄ w => .pure ⟨rfl, fun key hk => mem key (List.mem_cons_of_mem _ hk), w⟩

/-- A program is loaded, or the keys that it binds are bound in part. -/
theorem load_opens {program : Program} (w : Opened P globals program.keys G (n + 1) O h)
    (known : G.facts globals ≠ none) :
    Crafts (OpenedLeft P globals program.keys G) D (load globals program) h fun node h' =>
      Opened P globals program.keys G (n + 1) (node ::ₘ O) h' := by
  refine .guard w.left fun _ => (linkBuiltins_opens w known fun key hk => ?_).bind fun _ h₁ w => ?_
  · exact List.mem_append_left _ hk
  refine (declareAll_opens w known fun decl hd key hk =>
    List.mem_append_right _ (List.mem_filterMap.2 ⟨decl, hd, hk⟩)).bind fun _ h₂ w => ?_
  refine (globalVars_crafted w).bind fun vars h₃ w => ?_
  refine (named_crafted w).bind fun main h₄ w => ?_
  refine (Builder.build w).bind fun call h₅ w => ?_
  refine (Builder.build w).bind fun start h₆ w =>
    Builder.build ?_
  rw [Heap.stacked_append]
  exact w

end Lowering
end GoMachine
