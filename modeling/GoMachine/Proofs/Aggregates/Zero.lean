import GoMachine.Proofs.Aggregates.Built
/-!
# Zero values

`ZeroOf structs h F type v parts` says that `v` is a zero value of the type, made of the records
`parts`: an array has as many variables as its type says, a struct has the members of its
declaration in their order, and each variable has the zero value of its own type. Types are read in
the heap `h`, and `F` tells what the parts say.

* `zeroValueTo_grows`: a zero value is made of new records, none of which occurs twice.
-/
namespace GoMachine

open Heap (Reports)

/-- The zero value of a type that is one record. -/
def Tag.zeroLeaf? : Tag → Option Body
  | .typeBool => some ⟨.bool, [0], []⟩
  | .typeInt32 => some ⟨.int32, [0], []⟩
  | .typeFloat32 => some ⟨.float32, [0], []⟩
  | .typeRune => some ⟨.rune, [0], []⟩
  | .typeString => some ⟨.string, [Text.hashOf []], []⟩
  | _ => none

/-- The lock that is the zero value of a type. -/
def Tag.zeroLock? : Tag → Option Tag
  | .typeMutex => some .mutex
  | .typeWaitGroup => some .waitGroup
  | _ => none

/-- Whether nil is the zero value of a type. -/
def Tag.isNilType : Tag → Bool
  | .nil | .typeNil | .typeChannel | .typeFunction | .typePointer | .typeBuiltin => true
  | _ => false

mutual

/-- A zero value of a type, made of the parts. -/
inductive ZeroOf (structs : Address) (h : Heap) (F : Facts) : Address → Address → Multiset Address →
    Prop
  | leaf {type v : Address} {t : Tag} {D : Body} : Query.tag type h = .ok t → t.zeroLeaf? = some D →
      F v = some D →
    ZeroOf structs h F type v {v}
  | array {type v elem : Address} {vars : List Address} {q : Multiset Address} :
    Query.tag type h = .ok .typeArray → TypeDesc.elem type h = .ok elem →
    TypeDesc.arraySize type h = .ok vars.length → F v = some ⟨.array, [], vars⟩ →
    ZeroVars structs h F (vars.map fun _ => elem) vars q → ZeroOf structs h F type v (v ::ₘ q)
  | slice {type v elem : Address} : Query.tag type h = .ok .typeSlice →
      TypeDesc.elem type h = .ok elem →
    F v = some ⟨.slice, [0, 0, 0], [.nil, elem]⟩ → ZeroOf structs h F type v {v}
  | named {type v decl : Address} {q : Multiset Address} : Query.tag type h = .ok .typeStruct →
    TypeDesc.resolve structs type h = .ok decl → ZeroStruct structs h F decl v q →
    ZeroOf structs h F type v q
  | declared {decl v : Address} {q : Multiset Address} : Query.tag decl h = .ok .typeStructDecl →
    ZeroStruct structs h F decl v q → ZeroOf structs h F decl v q
  | lock {type v queue : Address} {t kind : Tag} : Query.tag type h = .ok t →
      t.zeroLock? = some kind →
    F v = some ⟨kind, [0], [queue]⟩ → F queue = some ⟨.queue, [0], [.nil, .nil]⟩ →
    ZeroOf structs h F type v (v ::ₘ {queue})
  | none {type : Address} {t : Tag} : Query.tag type h = .ok t → t.isNilType →
      ZeroOf structs h F type .nil 0

/-- A struct of a declaration with the zero values of its members. -/
inductive ZeroStruct (structs : Address) (h : Heap) (F : Facts) : Address → Address →
    Multiset Address → Prop
  | mk {decl v frame first : Address} {ms : List (Address × Address)} {vars : List Address}
    {links q : Multiset Address} : F v = some ⟨.struct, [], [frame, decl]⟩ →
    F frame = some ⟨.frame, [], [.nil, first]⟩ → TypeDesc.members decl h = .ok ms →
    Entries F first ((ms.map Prod.fst).zip vars).reverse links →
    ZeroVars structs h F (ms.map Prod.snd) vars q →
    ZeroStruct structs h F decl v (v ::ₘ frame ::ₘ (links + q))

/-- Variables of the types with their zero values. -/
inductive ZeroVars (structs : Address) (h : Heap) (F : Facts) :
    List Address → List Address → Multiset Address → Prop
  | nil : ZeroVars structs h F [] [] 0
  | cons {type var v : Address} {types vars : List Address} {p q : Multiset Address} :
    F var = some ⟨.variable, [], [type, v]⟩ → ZeroOf structs h F type v p →
    ZeroVars structs h F types vars q →
    ZeroVars structs h F (type :: types) (var :: vars) (var ::ₘ p + q)

end

variable {structs : Address} {h₀ h h' : Heap} {F F' : Facts}

/-! ## Parts -/

mutual

theorem ZeroOf.still : ∀ {type v : Address} {parts : Multiset Address},
    ZeroOf structs h F type v parts →
    (∀ a ∈ parts, F' a = F a) → ZeroOf structs h F' type v parts
  | _, _, _, .leaf tag leaf here, same => .leaf tag leaf ((same _ (by simp)).trans here)
  | _, _, _, .array tag elem size here each, same =>
    .array tag elem size ((same _ (by simp)).trans here) (ZeroVars.still each fun a ha =>
    same a (by simp [ha]))
  | _, _, _, .slice tag elem here, same => .slice tag elem ((same _ (by simp)).trans here)
  | _, _, _, .named tag found z, same => .named tag found (ZeroStruct.still z same)
  | _, _, _, .declared tag z, same => .declared tag (ZeroStruct.still z same)
  | _, _, _, .lock tag kind here queue, same =>
    .lock tag kind ((same _ (by simp)).trans here) ((same _ (by simp)).trans queue)
  | _, _, _, .none tag absent, _ => .none tag absent

theorem ZeroStruct.still : ∀ {decl v : Address} {parts : Multiset Address},
    ZeroStruct structs h F decl v parts →
    (∀ a ∈ parts, F' a = F a) → ZeroStruct structs h F' decl v parts
  | _, _, _, .mk here frame members entries each, same =>
    .mk ((same _ (by simp)).trans here) ((same _ (by simp)).trans frame) members
      (entries.still fun a ha => same a (by simp [ha])) (ZeroVars.still each fun a ha =>
      same a (by simp [ha]))

theorem ZeroVars.still : ∀ {types vars : List Address} {parts : Multiset Address},
    ZeroVars structs h F types vars parts → (∀ a ∈ parts, F' a = F a) →
    ZeroVars structs h F' types vars parts
  | _, _, _, .nil, _ => .nil
  | _, _, _, .cons here value rest, same =>
    .cons ((same _ (by simp)).trans here) (ZeroOf.still value fun a ha => same a (by simp [ha]))
      (ZeroVars.still rest fun a ha => same a (by simp [ha]))

end

variable {type decl elem v : Address} {P O : Multiset Address} {n : Nat}
    {parts p q : Multiset Address}
  {vars : List Address}

/-- A variable with the zero value of its type. -/
def ZeroVar (structs : Address) (h : Heap) (type : Address) (F : Facts) (var : Address)
    (parts : Multiset Address) :
    Prop :=
  ∃ v p, F var = some ⟨.variable, [], [type, v]⟩ ∧ ZeroOf structs h F type v p ∧ parts = var ::ₘ p

theorem ZeroVar.ofParts : OfParts (ZeroVar structs h type) := by
  rintro F F' var _ same ⟨v, p, here, value, rfl⟩
  exact ⟨v, p, (same _ (by simp)).trans here, value.still fun a ha => same a (by simp [ha]), rfl⟩

/-- Variables that were made in turn for the types. -/
theorem ZeroVars.of_each {ι : Type} {f : ι → Address} {is : List ι}
    (each : Each (fun i => ZeroVar structs h (f i) F) is vars q) :
    ZeroVars structs h F (is.map f) vars q := by
  induction each with
  | nil => exact .nil
  | cons first _ ih =>
    obtain ⟨v, p, here, value, rfl⟩ := first
    exact .cons here value ih

/-! ## Making them -/

/-- A new record of which one field is set. -/
theorem Scalar.new_leaf {t : Tag} {w : UInt64} (h₀ : Heap) :
    Grows h₀ (Scalar.new t w) fun F v parts => F v = some ⟨t, [w], []⟩ ∧ parts = {v} := by
  intro P n O F h g _
  exact (Scalar.new_reports g).mono fun v h' ⟨new, g'⟩ => ⟨_, {v}, g', .one new, by simp, rfl⟩

theorem Text.create_leaf (h₀ : Heap) :
    Grows h₀ (Text.create "") fun F v parts => F v = some ⟨.string, [hashOf []], []⟩ ∧
    parts = {v} := by
  intro P n O F h g _
  refine g.allocate.heap.bind fun v h₁ ⟨new, g⟩ => ?_
  refine (g.setField (Function.update_self ..)).heap.bind fun _ h₂ g => ?_
  rw [Function.update_idem] at g
  exact .pure ⟨_, {v}, g, .one new, Function.update_self .., rfl⟩

theorem Slice.create_reports {array elem : Address} {offset size cap : Nat}
    (g : Reports P (n + 1) O F h) :
    Yields (create array elem offset size cap) h fun s h' => F s = none ∧
    Reports P (n + 1) (s ::ₘ O)
      (Function.update F s
      (some ⟨.slice, [size.toUInt64, cap.toUInt64, offset.toUInt64], [array, elem]⟩)) h' := by
  refine g.allocate.heap.bind fun s h₁ ⟨new, g⟩ => ?_
  refine (g.setField (Function.update_self ..)).heap.bind fun _ h₂ g => ?_
  refine (g.setField (Function.update_self ..)).heap.bind fun _ h₃ g => ?_
  refine (g.setField (Function.update_self ..)).heap.bind fun _ h₄ g => ?_
  refine (g.setChild (Function.update_self ..) fun d hd => .inl (by simpa using hd.symm)).heap.bind
    fun _ h₅ g => ?_
  refine (g.setChild (Function.update_self ..) fun d hd => .inl (by simpa using hd.symm)).heap.bind
    fun _ h₆ g => ?_
  simp only [Function.update_idem] at g
  exact .pure ⟨new, g⟩

theorem LockKind.create_grows {k : LockKind} (h₀ : Heap) : Grows h₀ (k.create 0) fun F lock parts =>
    ∃ queue, F lock = some ⟨k.tag, [0], [queue]⟩ ∧ F queue = some ⟨.queue, [0], [.nil, .nil]⟩ ∧
      parts = lock ::ₘ {queue} := by
  intro P n O F h g _
  refine g.allocate.heap.bind fun lock h₁ ⟨new, g⟩ => ?_
  refine (g.setField (Function.update_self ..)).heap.bind fun _ h₂ g => ?_
  rw [Function.update_idem] at g
  refine (Yields.orRelease (x := Queue.create) g.allocate.heap).bind fun queue h₃ ⟨new', g⟩ => ?_
  have ne : lock ≠ queue := by
    rintro rfl
    simp at new'
  refine (g.setChildOwned (Heap.known_update (Function.update_self ..) ne)
    fun d hd => .inl (by simpa using hd.symm)).heap.bind fun _ h₄ g => .pure ?_
  refine ⟨_, lock ::ₘ {queue}, g, ((Gains.one new).trans (Gains.one new')).write (by simp), queue,
    Function.update_self .., ?_, rfl⟩
  rw [Function.update_of_ne ne.symm, Function.update_self]
  rfl

/-- A new variable with a zero value that is made for it. -/
theorem Variable.createOwned_grows {make : Address → Action Address}
    (grows : Grows h₀ (make type) fun F v parts => ZeroOf structs h₀ F type v parts) :
    Grows h₀ (do Variable.createOwned type (← make type)) (ZeroVar structs h₀ type) := by
  intro P n O F h g sub
  refine (grows g sub).bind fun v h₁ ⟨F₁, p, g, gains, value⟩ => ?_
  refine (Variable.createOwned_reports g).mono fun var h₂ ⟨new, g⟩ => ?_
  have gains' := Gains.one new (D := ⟨.variable, [], [type, v]⟩)
  refine ⟨_, var ::ₘ p, g, (gains.trans gains').congr (by rw [add_comm, Multiset.singleton_add]), v,
    p,
    Function.update_self .., value.still fun a ha => gains.same gains'.sub ha, rfl⟩

/-- A zero value is made of new records, none of which occurs twice. -/
theorem zeroValueTo_grows (base : h₀.Keeps h₀) (olds : Old h₀ structs) :
    ∀ {depth : Nat} {type : Address},
    Old h₀ type → Grows h₀ (zeroValueTo depth structs type) fun F v parts =>
    ZeroOf structs h₀ F type v parts
  | 0, _, _, _, _, _, _, _, _, _ => .get .throw
  | depth + 1, type, old, P, n, O, F, h, g, sub => by
    have keeps : h₀.Keeps h := ⟨base.base, base.closed, base.listed, g.sound, g.body ▸ sub⟩
    have member : ∀ a, Old h₀ a →
        Grows h₀ (do Variable.createOwned a (← zeroValueTo depth structs a))
        (ZeroVar structs h₀ a) :=
      fun a ha => Variable.createOwned_grows (zeroValueTo_grows base olds ha)
    have leaf {x : Action Address} {t : Tag} {D : Body} (tag : Query.tag type h₀ = .ok t)
      (leaf : t.zeroLeaf? = some D)
        (grows : Grows h₀ x fun F v parts => F v = some D ∧ parts = {v}) : Yields x h fun v h' =>
        ∃ F' parts,
          Reports P (n + 1) (v ::ₘ O) F' h' ∧ Gains F F' parts ∧
          ZeroOf structs h₀ F' type v parts :=
      (grows g sub).mono (by
        rintro v h' ⟨F', parts, g, gains, here, e⟩
        exact ⟨F', parts, g, gains, e ▸ .leaf tag leaf here⟩)
    have nilBuilt {t : Tag} (tag : Query.tag type h₀ = .ok t) (absent : t.isNilType) :
        Yields (pure .nil : Action Address) h fun v h' => ∃ F' parts,
          Reports P (n + 1) (v ::ₘ O) F' h' ∧ Gains F F' parts ∧
          ZeroOf structs h₀ F' type v parts :=
      .pure ⟨F, 0, Reports.cons_nil.2 g, .refl, .none tag absent⟩
    have lock {k : LockKind} {t : Tag} (tag : Query.tag type h₀ = .ok t)
      (kind : t.zeroLock? = some k.tag) :
        Yields (k.create 0) h fun v h' => ∃ F' parts,
          Reports P (n + 1) (v ::ₘ O) F' h' ∧ Gains F F' parts ∧
          ZeroOf structs h₀ F' type v parts :=
      (LockKind.create_grows h₀ g sub).mono (by
        rintro v h' ⟨F', parts, g, gains, queue, here, there, e⟩
        exact ⟨F', parts, g, gains, e ▸ .lock tag kind here there⟩)
    have struct {decl : Address} (there : Old h₀ decl)
        (z : ∀ {F' v parts}, ZeroStruct structs h₀ F' decl v parts →
        ZeroOf structs h₀ F' type v parts) :
        Yields (StructValue.build (fun a => do
          Variable.createOwned a (← zeroValueTo depth structs a)) decl) h
          fun v h' => ∃ F' parts, Reports P (n + 1) (v ::ₘ O) F' h' ∧ Gains F F' parts ∧
            ZeroOf structs h₀ F' type v parts := by
      refine (StructValue.build_grows (R := ZeroVar structs h₀)
        (M := fun ms => TypeDesc.members decl h₀ = .ok ms ∧ ∀ m ∈ ms, Old h₀ m.1 ∧ Old h₀ m.2)
        (fun h ms s sub => TypeDesc.members_recalls ⟨base.base, base.closed, base.listed, s, sub⟩
        there ms)
        (fun _ => ZeroVar.ofParts) (fun ms asked m hm => member m.2 (asked.2 m hm).2) g sub).mono ?_
      rintro v h' ⟨F', _, g, gains, frame, first, ms, vars, links, q, here, scope, ⟨members, -⟩,
        entries, each, rfl⟩
      have zeros := ZeroVars.of_each (f := id) each
      rw [List.map_id] at zeros
      exact ⟨F', _, g, gains, z (.mk here scope members entries zeros)⟩
    unfold zeroValueTo
    refine .read fun t tagged => ?_
    obtain ⟨tag, -⟩ := Recalls.tag keeps old t tagged
    cases t
    case typeBool => exact leaf tag rfl (Scalar.new_leaf h₀)
    case typeInt32 => exact leaf tag rfl (Scalar.new_leaf h₀)
    case typeFloat32 => exact leaf tag rfl (Scalar.new_leaf h₀)
    case typeRune => exact leaf tag rfl (Scalar.new_leaf h₀)
    case typeString => exact leaf tag rfl (Text.create_leaf h₀)
    case typeArray =>
      refine .read fun elem asked => .read fun size sized => ?_
      obtain ⟨asked, there⟩ := TypeDesc.elem_recalls keeps old elem asked
      obtain ⟨sized, -⟩ := TypeDesc.arraySize_recalls keeps old size sized
      refine (ArrayValue.build_grows (R := fun _ => ZeroVar structs h₀ elem)
        (fun _ => ZeroVar.ofParts)
        (fun _ => member elem there) g sub).mono ?_
      rintro v h' ⟨F', _, g, gains, vars, q, here, each, rfl⟩
      have len := each.length_eq
      rw [List.length_range] at len
      refine ⟨F', _, g, gains, .array tag asked (len ▸ sized) here ?_⟩
      have zeros := ZeroVars.of_each (f := fun _ => elem) each
      rwa [List.map_const', List.length_range, ← len, ← List.map_const'] at zeros
    case typeSlice =>
      refine .read fun elem asked => ?_
      obtain ⟨asked, there⟩ := TypeDesc.elem_recalls keeps old elem asked
      exact (Slice.create_reports g).mono fun s h' made =>
        ⟨_, {s}, made.2, .one made.1, .slice tag asked (Function.update_self ..)⟩
    case typeStruct =>
      refine .read fun decl asked => ?_
      obtain ⟨asked, there⟩ := TypeDesc.resolve_recalls keeps olds old decl asked
      exact struct there fun z => .named tag asked z
    case typeStructDecl => exact struct old fun z => .declared tag z
    case typeMutex => exact lock (k := .mutex) tag rfl
    case typeWaitGroup => exact lock (k := .waitGroup) tag rfl
    all_goals first | exact nilBuilt tag rfl | exact .throw

end GoMachine
