import GoMachine.Proofs.Aggregates.Depth
/-!
# Zero values of all types

Types and scopes are made with the constructors that `Fixture` lists. A heap is `Furnished` if all
its entries and frames were made in that way, whatever else was done with it. In such a heap the
zero value of every type, be it one that contains itself, is made after finitely many calls, or
memory runs out.
-/
namespace GoMachine

open Heap (Owns Reports)

/-- What makes types and scopes, and what binds names in scopes. -/
inductive Fixture where
  | simple (tag : Tag)
  | array (elem : Address) (size : Nat)
  | slice (elem : Address)
  | channel (elem : Address)
  | pointer (elem : Address)
  | named (name : String)
  | declare (name : String) (members : List (String × Address))
  | scope (parent : Address)
  | insert (into key value : Address)
  | insertText (into : Address) (name : String) (value : Address)

namespace Fixture

/-- What a constructor does. The last two give nothing back. -/
def run : Fixture → Action Address
  | simple tag => TypeDesc.simple tag
  | array elem size => TypeDesc.array elem size
  | slice elem => TypeDesc.slice elem
  | channel elem => TypeDesc.channel elem
  | pointer elem => TypeDesc.pointer elem
  | named name => TypeDesc.named name
  | declare name members => TypeDesc.declare name members
  | .scope parent => Frame.create parent
  | insert into key value => do
    Frame.insert into key value
    return .nil
  | insertText into name value => do
    Frame.insertText into name value
    return .nil

/-- The records that a constructor is given. -/
def arguments : Fixture → List Address
  | simple _ | named _ => []
  | array elem _ | slice elem | channel elem | pointer elem => [elem]
  | declare _ members => members.map Prod.snd
  | .scope parent => [parent]
  | insert into key value => [into, key, value]
  | insertText into _ value => [into, value]

end Fixture

variable {P O : Multiset Address} {n : Nat} {h h' : Heap} {structs type : Address}

/-- A heap with types and scopes that were made with their constructors, of a client that owns `O`.
-/
inductive Furnished (P : Multiset Address) (n : Nat) : Multiset Address → Heap → Prop
  /-- There are no scopes yet, and no types that have members. -/
  | bare {O : Multiset Address} {h : Heap} : Owns P (n + 1) O h →
    (∀ a D, h.body? a = some D → D.tag ≠ .entry ∧ D.tag ≠ .frame) → Furnished P n O h
  | made {O : Multiset Address} {h h' : Heap} {c : Fixture} {a : Address} : Furnished P n O h →
    (∀ b ∈ c.arguments, b = .nil ∨ h.isLive b) → c.run h = .ok a h' → Furnished P n (a ::ₘ O) h'
  /-- Anything else is done, but no entry or frame is made, and none comes to stand in front of, or
  inside of, another one. -/
  | elsewhere {O O' : Multiset Address} {h h' : Heap} : Furnished P n O h → Owns P (n + 1) O' h' →
    (∀ a b, Facts.link h'.body? .entry 2 a = some b → Facts.link h.body? .entry 2 a = some b) →
    (∀ a b, Facts.link h'.body? .frame 0 a = some b → Facts.link h.body? .frame 0 a = some b) →
    Furnished P n O' h'

/-- A constructor makes a record for the client, whatever holds of the heap besides, if a frame
inside of another one does. -/
theorem Fixture.makes {I : Nat → Multiset Address → Heap → Prop} [Ledger P I] {c : Fixture}
    (own : I (n + 1) O h) (frame : ∀ {parent}, c = .scope parent →
      Yields (Frame.create parent) h fun f h' => I (n + 1) (f ::ₘ O) h') :
    Yields c.run h fun a h' => I (n + 1) (a ::ₘ O) h' := by
  have nothing {h' : Heap} (own' : I (n + 1) O h') : I (n + 1) (.nil ::ₘ O) h' :=
    Account.cons_nil.2 own'
  cases c with
  | simple => exact (TypeDesc.simple_owns own).yields
  | array => exact (TypeDesc.array_owns own).yields
  | slice => exact (TypeDesc.withElem_owns (rfl : Tag.typeSlice.isType) own).yields
  | channel => exact (TypeDesc.withElem_owns (rfl : Tag.typeChannel.isType) own).yields
  | pointer => exact (TypeDesc.withElem_owns (rfl : Tag.typePointer.isType) own).yields
  | named => exact (TypeDesc.named_owns own).yields
  | declare => exact (TypeDesc.declare_owns own).yields
  | scope => exact frame rfl
  | insert => exact (Frame.insert_owns own).yields.bind fun _ _ own' => .pure (nothing own')
  | insertText => exact (Frame.insertText_owns own).yields.bind fun _ _ own' => .pure (nothing own')

/-- A constructor keeps the chains of entries and frames. -/
theorem Fixture.listing {c : Fixture} (here : ∀ b ∈ c.arguments, b = .nil ∨ h.isLive b)
    (g : Listing P (n + 1) O h) :
    Yields c.run h fun a h' => Listing P (n + 1) (a ::ₘ O) h' := by
  refine Fixture.makes g fun {parent} e => g.frame (here parent ?_)
  rw [e]
  exact List.mem_singleton_self parent

theorem Furnished.listing (furnished : Furnished P n O h) : Listing P (n + 1) O h := by
  induction furnished with
  | bare own plain => exact ⟨own, .bare plain⟩
  | made _ here run ih => exact Fixture.listing here ih _ _ run
  | elsewhere _ own entries frames ih => exact ⟨own, ih.listed.of_links entries frames⟩

/-- Making the zero value of a type comes to an end: its calls are nested no deeper than there are
free words, whatever would answer deeper ones. And what it makes is the zero value of the type, with
as many elements and with the members that the types say, of new records, none of which occurs
twice. -/
theorem zeroValue_of_every_type (arises : h.Arises) (furnished : Furnished P n O h)
    (olds : structs = .nil ∨ h.isLive structs) (old : type = .nil ∨ h.isLive type) :
    (∀ stop depth, h.freeWords < depth →
    zeroUntil structs stop depth type h = zeroValue structs type h) ∧
    ∀ v h', zeroValue structs type h = .ok v h' → ∃ parts : Multiset Address,
      ZeroOf structs h h'.body? type v parts ∧ parts.Nodup ∧ ∀ a ∈ parts, h.isLive a = false := by
  have g := furnished.listing
  refine ⟨fun stop depth lt => ?_, fun v h' run => ?_⟩
  · refine zeroUntil_same g.owns arises.tidy.joined olds old lt (Nat.lt_succ_of_le ?_)
    have serves := g.owns.exact.sound.serves
    exact (Nat.le_add_right _ _).trans (serves.freeWords_add serves.finite.coe_toFinset).le
  · have base : h.Keeps h := ⟨g.reports.sound, g.reports.closed, g.listed, g.reports.sound, .refl⟩
    have grows : Yields (zeroValue structs type) h _ :=
      Yields.get (zeroValueTo_grows base olds old g.reports .refl)
    obtain ⟨F', parts, g', gains, zero⟩ := grows v h' run
    refine ⟨parts, g'.body ▸ zero, gains.nodup, fun a ha => ?_⟩
    rw [← Bool.not_eq_true, g.reports.isLive, ne_eq, not_not]
    exact (gains.new a ha).1

/-! ## What operations lead to -/

/-- What a client owns, in a heap that operations lead to. -/
structure Arising (P : Multiset Address) (n : Nat) (O : Multiset Address) (h : Heap) : Prop where
  owns : Owns P n O h
  arises : h.Arises

namespace Arising

/-- What an operation does to the references, in a heap that it leads to. -/
theorem step {α : Type} {x : HeapM α} (op : Heap.Op) {reply : α → Heap.Reply}
    {o : α → Multiset Address} {m : Nat} (g : Arising P n O h)
    (owned : Yields x h fun a h' => Owns P m (o a) h')
    (same : op.run = do return reply (← x)) : Yields x h fun a h' => Arising P m (o a) h' := by
  intro a h' run
  have replied : op.run h = .ok (reply a) h' := by
    rw [same]
    exact bind_ok.2 ⟨a, h', run, rfl⟩
  exact ⟨owned a h' run, .done g.arises replied⟩

variable {a b : Address} {t : Tag} {i : Nat}

theorem allocate {fields children : Nat} (g : Arising P n O h) :
    Yields (HeapM.allocate t fields children) h fun a h' => Arising P n (a ::ₘ O) h' :=
  g.step (.allocate t fields children) g.owns.allocate.yields rfl

theorem setField {w : UInt64} (g : Arising P n O h) :
    Yields (HeapM.setField a t i w) h fun _ h' => Arising P n O h' :=
  g.step (.setField a t i w) g.owns.setField.yields rfl

theorem setChild (g : Arising P (n + 1) O h) :
    Yields (HeapM.setChild a t i b) h fun _ h' => Arising P (n + 1) O h' :=
  g.step (.setChild a t i b) g.owns.setChild.yields rfl

theorem setChildOwned (g : Arising P n (b ::ₘ O) h) :
    Yields (HeapM.setChildOwned a t i b) h fun _ h' => Arising P n O h' :=
  g.step (.setChildOwned a t i b) g.owns.setChildOwned.yields rfl

theorem free (g : Arising P n (a ::ₘ O) h) :
    Yields (HeapM.free a) h fun _ h' => Arising P n O h' :=
  g.step (.free a) g.owns.frees.yields rfl

theorem reference (g : Arising P (n + 1) O h) :
    Yields (HeapM.reference a) h fun b h' => b = a ∧ Arising P n (a ::ₘ O) h' := by
  refine (g.owns.reference.yields.and (g.step (.reference a) (m := n) (o := fun _ => a ::ₘ O)
    ?_ rfl)).mono fun b h' ⟨⟨same, _⟩, g'⟩ => ⟨same, g'⟩
  exact g.owns.reference.yields.mono fun _ _ owned => owned.2

theorem frame {parent : Address} (g : Arising P (n + 1) O h) :
    Yields (Frame.create parent) h fun f h' => Arising P (n + 1) (f ::ₘ O) h' := by
  refine g.allocate.heap.bind fun f h₁ g => ?_
  exact g.setChild.heap.bind fun _ h₂ g => .pure g

theorem entry {key value next : Address} (g : Arising P (n + 1) O h) :
    Yields (Entry.create key value next) h fun e h' => Arising P (n + 1) (e ::ₘ O) h' := by
  refine g.allocate.heap.bind fun e h₁ g => ?_
  refine g.setChild.heap.bind fun _ h₂ g => ?_
  refine g.setChild.heap.bind fun _ h₃ g => ?_
  exact g.setChild.heap.bind fun _ h₄ g => .pure g

theorem lock {k : LockKind} {initial : Int64} (g : Arising P n O h) :
    Yields (LockKind.create k initial) h fun lock h' => Arising P n (lock ::ₘ O) h' := by
  refine g.allocate.heap.bind fun lock h₁ g => ?_
  refine g.setField.heap.bind fun _ h₂ g => ?_
  refine (Yields.orRelease (x := Queue.create) g.allocate.heap).bind fun q h₃ g => ?_
  exact g.setChildOwned.heap.bind fun _ h₄ g => .pure g

instance : Ledger P (Arising P) where
  owns g := ⟨0, by rw [zero_add]; exact g.owns⟩
  cons_nil := ⟨fun g => ⟨Owns.cons_nil.1 g.owns, g.arises⟩, fun g =>
    ⟨Owns.cons_nil.2 g.owns, g.arises⟩⟩
  weaken g le := ⟨g.owns.weaken le, g.arises⟩
  restore g g' := ⟨g'.owns.tighten g.owns.spare, g'.arises⟩
  allocates _ _ g := g.allocate
  writes _ g := g.setField
  references g := g.reference
  drops g := g.free
  replaces _ g := g.setChildOwned
  enters _ g := g.entry
  opens g := g.frame
  locks _ g := g.lock

end Arising

/-- A client that has made its types and scopes with the constructors, by operations only. -/
structure Outfitted (O : Multiset Address) (h : Heap) : Prop where
  furnished : Furnished 0 0 O h
  arises : h.Arises

/-- A new heap has no records. -/
theorem Outfitted.new {words : Nat} (made : Heap.new words = .ok h) : Outfitted 0 h := by
  have own : Owns 0 (0 + 1) 0 h := ⟨.new made, by decide, fun a _ => by simp [Heap.limit]⟩
  refine ⟨.bare own fun a D known => ?_, .new made⟩
  obtain ⟨p, -, e⟩ := except_bind_ok.1 made
  obtain rfl := except_pure_ok.1 e
  obtain ⟨c, here, -⟩ := Heap.body?_eq_some.1 known
  simp [Heap.cell?, Heap.isLive] at here

/-- A constructor is run on records that the client owns. -/
theorem Outfitted.run {c : Fixture} (out : Outfitted O h)
    (owned : ∀ b ∈ c.arguments, b = .nil ∨ b ∈ O) :
    Yields c.run h fun a h' => Outfitted (a ::ₘ O) h' := by
  have g : Arising 0 1 O h := ⟨out.furnished.listing.owns, out.arises⟩
  intro a h' made
  have arising := (Fixture.makes g (fun _ => g.frame) a h' made).2
  refine ⟨.made out.furnished (fun b hb => ?_) made, arising⟩
  exact (owned b hb).elim .inl fun mem => g.owns.exact.closed (by simp [mem])

/-- The struct type `List` with a truth value `on` and a pointer `next` to another `List`, and the
scope that has its declaration. -/
def listType : Action (Address × Address) := do
  let structs ← (Fixture.scope .nil).run
  let flag ← (Fixture.simple .typeBool).run
  let elem ← (Fixture.named "List").run
  let next ← (Fixture.pointer elem).run
  let decl ← (Fixture.declare "List" [("on", flag), ("next", next)]).run
  let _ ← (Fixture.insertText structs (TypeDesc.structKey "List") decl).run
  let type ← (Fixture.named "List").run
  return (structs, type)

theorem listType_outfits (out : Outfitted 0 h) : Yields listType h fun made h' =>
    ∃ O, Outfitted O h' ∧ made.1 ∈ O ∧ made.2 ∈ O := by
  refine (out.run (by simp [Fixture.arguments])).bind fun structs h₁ out => ?_
  refine (out.run (by simp [Fixture.arguments])).bind fun flag h₂ out => ?_
  refine (out.run (by simp [Fixture.arguments])).bind fun elem h₃ out => ?_
  refine (out.run (by simp [Fixture.arguments])).bind fun next h₄ out => ?_
  refine (out.run (by simp [Fixture.arguments])).bind fun decl h₅ out => ?_
  refine (out.run (by simp [Fixture.arguments])).bind fun nothing h₆ out => ?_
  refine (out.run (by simp [Fixture.arguments])).bind fun type h₇ out => ?_
  exact .pure ⟨_, out, by simp, by simp⟩

/-- Whether a new heap has room for the type and a zero value of it. -/
def listRun : Bool :=
  match Heap.new 512 with
  | .error _ => false
  | .ok h₀ => match listType h₀ with
    | .error .. => false
    | .ok (structs, type) h => match zeroValue structs type h with
      | .error .. => false
      | .ok .. => Query.tag type h matches .ok .typeStruct

/-- A struct type, whose declaration is found by its name, and its zero value. -/
theorem zeroValue_of_struct_type :
    ∃ (h h' : Heap) (O : Multiset Address) (structs type v : Address) (parts : Multiset Address),
    Outfitted O h ∧ Query.tag type h = .ok .typeStruct ∧ zeroValue structs type h = .ok v h' ∧
    ZeroOf structs h h'.body? type v parts ∧ parts.Nodup ∧ ∀ a ∈ parts, h.isLive a = false := by
  have ran : listRun = true := by decide +kernel
  unfold listRun at ran
  split at ran
  · cases ran
  next h₀ made =>
  split at ran
  · cases ran
  next structs type h set =>
  split at ran
  · cases ran
  next v h' run =>
  have kind : Query.tag type h = .ok .typeStruct := by
    split at ran
    · assumption
    · cases ran
  obtain ⟨O, out, hs, ht⟩ := listType_outfits (.new made) _ _ set
  have owns := out.furnished.listing.owns
  obtain ⟨parts, zero, unique, new⟩ := (zeroValue_of_every_type out.arises out.furnished
    (owns.exact.closed (by simp [hs])) (owns.exact.closed (by simp [ht]))).2 v h' run
  exact ⟨h, h', O, structs, type, v, parts, out, kind, run, zero, unique, new⟩

end GoMachine
