import GoMachine.Proofs.Loading.Ground
/-!
# Values, types and nodes beside other things

Strings, variables, closures, types and nodes are made of new records alone: whoever makes them
leaves the ground as it was, whether that ends well or fails.
-/
namespace GoMachine

open Ground (Bears Left)
open Heap (Within stacked laden)

variable {P D O : Multiset Address} [Within D O] {G : Ground} {n : Nat} {h : Heap} {t : Tag}
    {w : UInt64}

namespace Crafts

variable {α : Type} {a : Address} {x : Action α}

omit [Within D O] in
/-- The reference is dropped if the action fails. -/
theorem released {Q : α → Heap → Prop} (hx : Crafts (G.Left P) (a ::ₘ D) x h Q) :
    Crafts (G.Left P) D (Action.orRelease a x) h Q :=
  hx.orRelease fun _ left => left.free

omit [Within D O] in
/-- The reference is dropped after the action. -/
theorem dropped {K : α → Multiset Address} (hx : Crafts (G.Left P) (a ::ₘ D) x h fun b h' =>
    G.Bears P n (a ::ₘ K b) h') :
    Crafts (G.Left P) D (Action.releasing a x) h fun b h' => G.Bears P n (K b) h' :=
  hx.releasing (fun _ _ b => b.frees) fun _ left => left.free

end Crafts

/-! ## Values -/

theorem Scalar.new_bears (b : G.Bears P n O h) : Crafts (G.Left P) D (new t w) h fun a h' =>
    G.Bears P n (a ::ₘ O) h' :=
  b.allocate.heap.bind fun _ _ ⟨new, b⟩ => (b.setField new).heap.bind fun _ _ b => .pure b

theorem Text.create_bears {text : String} (b : G.Bears P n O h) :
    Crafts (G.Left P) D (create text) h fun s h' => G.Bears P n (s ::ₘ O) h' := by
  refine b.allocate.heap.bind fun s h₁ ⟨new, b⟩ => ?_
  refine (b.setField new).heap.bind fun _ h₂ b => ?_
  refine (Crafts.forIn (I := fun _ h' => G.Bears P n (s ::ₘ O) h') b ?_).bind fun _ h₃ b => .pure b
  intro ⟨c, i⟩ rest h b
  refine (Crafts.released (Scalar.new_bears b)).bind fun rune h₁ b => ?_
  exact (b.setChildOwned new).heap.bind fun _ h₂ b => .pure ⟨rfl, b⟩

namespace Variable

variable {type value : Address}

theorem create_bears (b : G.Bears P (n + 1) O h) :
    Crafts (G.Left P) D (create type value) h fun var h' => G.Bears P (n + 1) (var ::ₘ O) h' := by
  refine b.allocate.heap.bind fun var h₁ ⟨new, b⟩ => ?_
  refine (b.setChild new).heap.bind fun _ h₂ b => ?_
  exact (b.setChild new).heap.bind fun _ h₃ b => .pure b

theorem createOwned_bears (b : G.Bears P (n + 1) (value ::ₘ O) h) :
    Crafts (G.Left P) D (createOwned type value) h fun var h' => G.Bears P (n + 1) (var ::ₘ O) h' :=
  .dropped ((create_bears b).mono fun _ _ b => b.swap)

end Variable

theorem Closure.create_bears {literal frame : Address} (b : G.Bears P (n + 1) O h) :
    Crafts (G.Left P) D (create literal frame) h fun f h' => G.Bears P (n + 1) (f ::ₘ O) h' := by
  refine b.allocate.heap.bind fun f h₁ ⟨new, b⟩ => ?_
  refine (b.setChild new).heap.bind fun _ h₂ b => ?_
  exact (b.setChild new).heap.bind fun _ h₃ b => .pure b

theorem BuiltinRef.create_bears {name : String} (b : G.Bears P n O h) :
    Crafts (G.Left P) D (create name) h fun r h' => G.Bears P n (r ::ₘ O) h' := by
  refine (Text.create_bears b).bind fun key h₁ b => ?_
  refine (Crafts.released b.allocate.heap).bind fun r h₂ ⟨new, b⟩ => ?_
  exact (b.swap.setChildOwned new).heap.bind fun _ h₃ b => .pure b

theorem Entry.create_bears {key value next : Address} (b : G.Bears P (n + 1) O h) :
    Crafts (G.Left P) D (create key value next) h fun e h' => G.Bears P (n + 1) (e ::ₘ O) h' := by
  refine b.allocate.heap.bind fun e h₁ ⟨new, b⟩ => ?_
  refine (b.setChild new).heap.bind fun _ h₂ b => ?_
  exact (b.setChild new).heap.bind fun _ h₃ b => (b.setChild new).heap.bind fun _ h₄ b => .pure b

/-! ## Types -/

namespace TypeDesc

variable {elem type decl : Address} {name : String}

theorem simple_bears (b : G.Bears P n O h) :
    Crafts (G.Left P) D (simple t) h fun type h' => G.Bears P n (type ::ₘ O) h' :=
  .guard b.left fun _ => b.allocate.heap.mono fun _ _ ⟨_, b⟩ => b

theorem withElem_bears {fields : Nat} (b : G.Bears P (n + 1) O h) :
    Crafts (G.Left P) D (withElem t fields elem) h
    fun type h' => G.facts type = none ∧ G.Bears P (n + 1) (type ::ₘ O) h' :=
  b.allocate.heap.bind fun _ _ ⟨new, b⟩ => (b.setChild new).heap.bind fun _ _ b => .pure ⟨new, b⟩

theorem array_bears {size : Nat} (b : G.Bears P (n + 1) O h) :
    Crafts (G.Left P) D (array elem size) h fun type h' => G.Bears P (n + 1) (type ::ₘ O) h' :=
  (withElem_bears b).bind fun _ _ ⟨new, b⟩ => (b.setField new).heap.bind fun _ _ b => .pure b

theorem named_bears (b : G.Bears P n O h) :
    Crafts (G.Left P) D (named name) h fun type h' => G.Bears P n (type ::ₘ O) h' := by
  refine (Text.create_bears b).bind fun key h₁ b => ?_
  refine (Crafts.released b.allocate.heap).bind fun type h₂ ⟨new, b⟩ => ?_
  exact (b.swap.setChildOwned new).heap.bind fun _ h₃ b => .pure b

theorem addMember_bears (b : G.Bears P (n + 1) O h) (new : G.facts decl = none) :
    Crafts (G.Left P) D (addMember decl name type) h fun _ h' => G.Bears P (n + 1) O h' := by
  refine (Text.create_bears b).bind fun key h₁ b => .read b.left fun first _ => ?_
  refine (Crafts.dropped (K := fun link => link ::ₘ O) ((Entry.create_bears b).mono fun _ _ b =>
    b.swap)).bind
    fun link h₂ b => ?_
  exact (b.setChildOwned new).heap

theorem declare_bears {members : List (String × Address)} (b : G.Bears P (n + 1) O h) :
    Crafts (G.Left P) D (declare name members) h fun decl h' =>
    G.Bears P (n + 1) (decl ::ₘ O) h' := by
  refine b.allocate.heap.bind fun decl h₁ ⟨new, b⟩ => ?_
  refine (Crafts.released (Q := fun _ h' => G.Bears P (n + 1) (decl ::ₘ O) h') ?_).bind
    fun _ h₂ b => .pure b
  refine (Text.create_bears b).bind fun key h₂ b => ?_
  refine (b.setChildOwned new).heap.bind fun _ h₃ b => ?_
  refine (Crafts.forIn (I := fun _ h' => G.Bears P (n + 1) (decl ::ₘ O) h') b ?_).bind fun _ h₄ b =>
    .pure b
  intro ⟨member, type⟩ rest h b
  exact (addMember_bears b new).bind fun _ h₁ b => .pure ⟨rfl, b⟩

end TypeDesc

theorem Lowering.type_bears : ∀ {t : GoType}, Crafted (G.Bears P) (G.Left P) (type t)
  | .nil => fun b => TypeDesc.simple_bears b
  | .bool => fun b => TypeDesc.simple_bears b
  | .int32 => fun b => TypeDesc.simple_bears b
  | .float32 => fun b => TypeDesc.simple_bears b
  | .rune => fun b => TypeDesc.simple_bears b
  | .string => fun b => TypeDesc.simple_bears b
  | .func => fun b => TypeDesc.simple_bears b
  | .mutex => fun b => TypeDesc.simple_bears b
  | .waitGroup => fun b => TypeDesc.simple_bears b
  | .array _ _ => fun b => (type_bears b).bind fun _ _ b =>
    .dropped ((TypeDesc.array_bears b).mono fun _ _ b => b.swap)
  | .slice _ => fun b => (type_bears b).bind fun _ _ b =>
    .dropped ((TypeDesc.withElem_bears b).mono fun _ _ ⟨_, b⟩ => b.swap)
  | .chan _ => fun b => (type_bears b).bind fun _ _ b =>
    .dropped ((TypeDesc.withElem_bears b).mono fun _ _ ⟨_, b⟩ => b.swap)
  | .pointer _ => fun b => (type_bears b).bind fun _ _ b =>
    .dropped ((TypeDesc.withElem_bears b).mono fun _ _ ⟨_, b⟩ => b.swap)
  | .struct _ => fun b => TypeDesc.named_bears b

/-! ## Nodes -/

namespace Node

variable {node : Address} {fields : List UInt64}

theorem setFields_bears (b : G.Bears P n O h) (new : G.facts node = none) :
    Crafts (G.Left P) D (setFields node t fields) h fun _ h' => G.Bears P n O h' := by
  refine (Crafts.forIn (I := fun _ h' => G.Bears P n O h') b ?_).bind fun _ _ b => .pure b
  intro ⟨w, i⟩ rest h b
  exact (b.setField new).heap.bind fun _ _ b => .pure ⟨rfl, b⟩

theorem build_bears {l : List Address} (b : G.Bears P n (stacked O l) h) :
    Crafts (G.Left P) D (build t fields l) h fun node h' => G.Bears P n (node ::ₘ O) h' := by
  have b : G.Bears P n (laden l O) h := Heap.stacked_eq_laden (O := O) ▸ b
  refine Crafts.attempt (M := laden l D) b.allocate.heap (fun node h₁ ⟨new, b⟩ => ?_)
    fun e h₁ left => ?_
  · refine (setFields_bears b new).bind fun _ h₂ b => ?_
    refine (Crafts.forIn (I := fun rest h' => G.Bears P n (node ::ₘ laden (rest.map Prod.fst) O) h')
      ?_
      ?_).bind fun _ h₃ b => .pure b
    · rwa [List.zipIdx_map_fst]
    · intro ⟨child, i⟩ rest h b
      have b : G.Bears P n (child ::ₘ node ::ₘ laden (rest.map Prod.fst) O) h := b.swap
      exact (b.setChildOwned new).heap.bind fun _ _ b => .pure ⟨rfl, b⟩
  · refine (Crafts.forIn (I := fun rest h' => G.Left P (laden rest D) h') left ?_).bind
      fun _ _ left => .throw left
    intro child rest h left
    have left : G.Left P (child ::ₘ laden rest D) h := left
    exact (left.free.ends (E := fun _ h' => G.Left P D h')).heap.bind fun _ _ left =>
      .pure ⟨rfl, left⟩

theorem buildShared_bears {l : List Address} (b : G.Bears P (n + 1) O h) :
    Crafts (G.Left P) D (buildShared t fields l) h fun node h' =>
    G.Bears P (n + 1) (node ::ₘ O) h' := by
  refine b.allocate.heap.bind fun node h₁ ⟨new, b⟩ => ?_
  refine (setFields_bears b new).bind fun _ h₂ b => ?_
  refine (Crafts.forIn (I := fun _ h' => G.Bears P (n + 1) (node ::ₘ O) h') b ?_).bind fun _ _ b =>
    .pure b
  intro ⟨child, i⟩ rest h b
  exact (b.setChild new).heap.bind fun _ _ b => .pure ⟨rfl, b⟩

theorem unit_bears (b : G.Bears P n O h) : Crafts (G.Left P) D (unit t) h fun node h' =>
    G.Bears P n (node ::ₘ O) h' :=
  b.allocate.heap.mono fun _ _ ⟨_, b⟩ => b

end Node

/-- Programs are lowered beside other things. -/
instance : Builder (G.Bears P) (G.Left P) where
  cons_nil := Bears.cons_nil
  fails b := b.left
  scalar _ := fun b => Scalar.new_bears b
  text := fun b => Text.create_bears b
  type := fun b => Lowering.type_bears b
  unit := fun b => Node.unit_bears b
  build b := Node.build_bears b
  buildShared := fun b => Node.buildShared_bears b

end GoMachine
