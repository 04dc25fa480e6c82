import GoMachine.Proofs.Aggregates.Zero
/-!
# Windows on arrays

In a heap that is `Windowed` an array is a row of distinct variables, and the window of a slice lies
inside the array behind it. That stays so as long as nobody but their constructors makes or writes
arrays and slices, and variables stay variables: `Facts.Spares`.

* `Windowed.spares`: whatever else is done.
* `Windowed.gains`: new values whose arrays and slices are `Sturdy`.
* `Windowed.slice`: a new slice.
* `Heap.Does.spares`: an operation of the heap on anything else.
-/
namespace GoMachine

open Heap (Reports Backed)

/-- Whether arrays or slices have the tag. -/
def Tag.isRow : Tag → Bool
  | .array | .slice => true
  | _ => false

namespace Facts

/-- A variable, with its type and its value. -/
def IsVariable (F : Facts) (x : Address) : Prop := ∃ type v, F x = some ⟨.variable, [], [type, v]⟩

/-- A row of distinct variables. -/
structure IsArray (F : Facts) (D : Body) : Prop where
  fields : D.fields = []
  nodup : D.children.Nodup
  elements : ∀ x ∈ D.children, F.IsVariable x

/-- A window that lies inside the array behind it; the nil slice has none. -/
def IsWindow (F : Facts) (D : Body) : Prop := ∃ size cap offset arr elem,
  D = ⟨.slice, [size, cap, offset], [arr, elem]⟩ ∧ size.toNat ≤ cap.toNat ∧
    (arr = .nil ∧ offset.toNat + cap.toNat = 0 ∨
      ∃ vars, F arr = some ⟨.array, [], vars⟩ ∧ offset.toNat + cap.toNat ≤ vars.length)

/-- All arrays are rows of variables, and the windows of all slices lie inside of arrays. -/
structure Windowed (F : Facts) : Prop where
  arrays : ∀ {a D}, F a = some D → D.tag = .array → F.IsArray D
  slices : ∀ {s D}, F s = some D → D.tag = .slice → F.IsWindow D

/-- Arrays and slices are left alone, except for copies of them, and variables stay variables. -/
structure Spares (F F' : Facts) : Prop where
  made : ∀ {a D}, F' a = some D → D.tag.isRow → ∃ b, F b = some D
  kept : ∀ {a D D'}, F a = some D → D.tag = .array → F' a = some D' → D' = D
  shaped : ∀ {x D}, F.IsVariable x → F' x = some D → F'.IsVariable x

variable {F F' : Facts} {a s : Address} {D D' : Body} {parts : Multiset Address}

theorem IsVariable.mono (k : F.IsVariable a) (sub : F.Sub F') : F'.IsVariable a := by
  obtain ⟨type, v, ha⟩ := k
  exact ⟨type, v, sub ha⟩

theorem IsArray.mono (k : F.IsArray D) (sub : F.Sub F') : F'.IsArray D :=
  ⟨k.fields, k.nodup, fun x hx => (k.elements x hx).mono sub⟩

theorem IsWindow.mono (k : F.IsWindow D) (sub : F.Sub F') : F'.IsWindow D := by
  obtain ⟨size, cap, offset, arr, elem, e, le, inside⟩ := k
  exact ⟨size, cap, offset, arr, elem, e, le, inside.imp_right fun ⟨vars, harr, le⟩ =>
    ⟨vars, sub harr, le⟩⟩

namespace Spares

/-- Records go away. -/
theorem of_sub (sub : F'.Sub F) : Spares F F' where
  made ha _ := ⟨_, sub ha⟩
  kept ha _ ha' := Option.some_inj.1 ((sub ha').symm.trans ha)
  shaped {x D} k hx := by
    obtain ⟨type, v, known⟩ := k
    obtain rfl := Option.some_inj.1 ((sub hx).symm.trans known)
    exact ⟨type, v, hx⟩

/-- A record that is neither an array nor a slice comes, or is written; a variable keeps its shape.
-/
theorem update (other : D.tag.isRow = false) (was : ∀ D₀, F a = some D₀ → D₀.tag.isRow = false)
    (shaped : F.IsVariable a → ∃ type v, D = ⟨.variable, [], [type, v]⟩) :
    Spares F (Function.update F a (some D)) where
  made {b E} hb row := by
    by_cases e : b = a
    · subst e
      obtain rfl : D = E := by simpa using hb
      rw [other] at row
      cases row
    · exact ⟨b, by rwa [Function.update_of_ne e] at hb⟩
  kept {b E E'} hb array hb' := by
    rw [Function.update_of_ne] at hb'
    · exact Option.some_inj.1 (hb'.symm.trans hb)
    · rintro rfl
      have := was E hb
      rw [array] at this
      cases this
  shaped {x E} k _ := by
    by_cases e : x = a
    · subst e
      obtain ⟨type, v, rfl⟩ := shaped k
      exact ⟨type, v, Function.update_self ..⟩
    · obtain ⟨type, v, hx⟩ := k
      exact ⟨type, v, by rwa [Function.update_of_ne e]⟩

/-- A slot of a record that is neither an array nor a slice is written. -/
theorem put {b : Address} {i : Nat} (ha : F a = some D) (other : D.tag.isRow = false) :
    Spares F (Function.update F a (some { D with children := D.children.set i b })) := by
  refine update other (fun D₀ h₀ => ?_) fun ⟨type, v, k⟩ => ?_
  · obtain rfl := Option.some_inj.1 (h₀.symm.trans ha)
    exact other
  · obtain rfl := Option.some_inj.1 (k.symm.trans ha)
    match i with
    | 0 => exact ⟨b, v, rfl⟩
    | 1 => exact ⟨type, b, rfl⟩
    | _ + 2 => exact ⟨type, v, rfl⟩

/-- Records go away afterwards. -/
theorem then_sub {F₁ : Facts} (k : Spares F F₁) (sub : F'.Sub F₁) : Spares F F' where
  made ha row := k.made (sub ha) row
  kept ha array ha' := k.kept ha array (sub ha')
  shaped {x D} known hx := by
    obtain ⟨type, v, shaped⟩ := k.shaped known (sub hx)
    obtain rfl := Option.some_inj.1 ((sub hx).symm.trans shaped)
    exact ⟨type, v, hx⟩

end Spares

namespace Windowed

/-- Windows stay inside of their arrays while these are left alone. -/
theorem spares (w : F.Windowed) (k : Spares F F') (closed : Closed F') (dead : F .nil = none) :
    F'.Windowed where
  arrays {a D} ha array := by
    obtain ⟨b, hb⟩ := k.made ha (by rw [array]; rfl)
    obtain ⟨fields, nodup, elements⟩ := w.arrays hb array
    refine ⟨fields, nodup, fun x hx => ?_⟩
    have variable_x := elements x hx
    rcases closed a D x ha hx with rfl | there
    · obtain ⟨type, v, hv⟩ := variable_x
      rw [dead] at hv
      cases hv
    · obtain ⟨E, hE⟩ := Option.ne_none_iff_exists'.1 there
      exact k.shaped variable_x hE
  slices {s D} hs slice := by
    obtain ⟨b, hb⟩ := k.made hs (by rw [slice]; rfl)
    obtain ⟨size, cap, offset, arr, elem, rfl, le, inside⟩ := w.slices hb slice
    refine ⟨size, cap, offset, arr, elem, rfl, le, ?_⟩
    rcases inside with absent | ⟨vars, harr, inside⟩
    · exact .inl absent
    · rcases closed s _ arr hs (by simp) with rfl | there
      · rw [dead] at harr
        cases harr
      · obtain ⟨E, hE⟩ := Option.ne_none_iff_exists'.1 there
        exact .inr ⟨vars, k.kept harr rfl hE ▸ hE, inside⟩

/-- A new slice. -/
theorem slice (w : F.Windowed) (new : F s = none) (row : D.tag = .slice) (window : F.IsWindow D) :
    Facts.Windowed (Function.update F s (some D)) := by
  have sub : F.Sub (Function.update F s (some D)) := (Gains.one new).sub
  constructor
  · intro a E ha array
    by_cases e : a = s
    · subst e
      obtain rfl : D = E := by simpa using ha
      rw [row] at array
      cases array
    · rw [Function.update_of_ne e] at ha
      exact (w.arrays ha array).mono sub
  · intro a E ha slice
    by_cases e : a = s
    · subst e
      obtain rfl : D = E := by simpa using ha
      exact window.mono sub
    · rw [Function.update_of_ne e] at ha
      exact (w.slices ha slice).mono sub

end Windowed

/-! ## New values -/

/-- The arrays among the parts are rows of variables that are parts as well, and the slices are nil.
-/
def Sturdy (F : Facts) (parts : Multiset Address) : Prop := ∀ a ∈ parts, ∀ D, F a = some D →
  (D.tag = .array → D.fields = [] ∧ D.children.Nodup ∧ ∀ x ∈ D.children, x ∈ parts ∧
  F.IsVariable x) ∧
  (D.tag = .slice → ∃ elem, D = ⟨.slice, [0, 0, 0], [.nil, elem]⟩)

namespace Sturdy

variable {more : Multiset Address}

theorem empty : Sturdy F 0 := fun _ ha => absurd ha (Multiset.notMem_zero _)

theorem add (k : Sturdy F parts) (k' : Sturdy F more) : Sturdy F (parts + more) := by
  intro a ha D hD
  rcases Multiset.mem_add.1 ha with ha | ha
  · obtain ⟨array, slice⟩ := k a ha D hD
    refine ⟨fun t => ?_, slice⟩
    obtain ⟨fields, nodup, elements⟩ := array t
    exact ⟨fields, nodup, fun x hx => (elements x hx).imp_left fun h => Multiset.mem_add.2 (.inl h)⟩
  · obtain ⟨array, slice⟩ := k' a ha D hD
    refine ⟨fun t => ?_, slice⟩
    obtain ⟨fields, nodup, elements⟩ := array t
    exact ⟨fields, nodup, fun x hx => (elements x hx).imp_left fun h => Multiset.mem_add.2 (.inr h)⟩

/-- A record that is neither an array nor a slice. -/
theorem one (ha : F a = some D) (other : D.tag.isRow = false) : Sturdy F {a} := by
  intro b hb E hE
  obtain rfl := Multiset.mem_singleton.1 hb
  obtain rfl := Option.some_inj.1 (hE.symm.trans ha)
  exact ⟨fun t => absurd (t ▸ other) (by decide), fun t => absurd (t ▸ other) (by decide)⟩

theorem cons (ha : F a = some D) (other : D.tag.isRow = false) (k : Sturdy F parts) :
    Sturdy F (a ::ₘ parts) := by
  rw [← Multiset.singleton_add]
  exact (one ha other).add k

theorem nil_slice {elem : Address} (ha : F a = some ⟨.slice, [0, 0, 0], [.nil, elem]⟩) :
    Sturdy F {a} := by
  intro b hb E hE
  obtain rfl := Multiset.mem_singleton.1 hb
  obtain rfl := Option.some_inj.1 (hE.symm.trans ha)
  exact ⟨nofun, fun _ => ⟨elem, rfl⟩⟩

/-- A row of variables that are parts. -/
theorem array {vars : List Address} (ha : F a = some ⟨.array, [], vars⟩) (nodup : vars.Nodup)
    (elements : ∀ x ∈ vars, x ∈ parts ∧ F.IsVariable x) (k : Sturdy F parts) :
    Sturdy F (a ::ₘ parts) := by
  intro b hb E hE
  rcases Multiset.mem_cons.1 hb with rfl | hb
  · obtain rfl := Option.some_inj.1 (hE.symm.trans ha)
    exact ⟨fun _ => ⟨rfl, nodup, fun x hx => (elements x hx).imp_left (Multiset.mem_cons_of_mem ·)⟩,
      nofun⟩
  · obtain ⟨array, slice⟩ := k b hb E hE
    refine ⟨fun t => ?_, slice⟩
    obtain ⟨fields, nodup, elements⟩ := array t
    exact ⟨fields, nodup, fun x hx => (elements x hx).imp_left (Multiset.mem_cons_of_mem ·)⟩

theorem still (k : Sturdy F parts) (same : ∀ a ∈ parts, F' a = F a) : Sturdy F' parts := by
  intro a ha D hD
  rw [same a ha] at hD
  obtain ⟨array, slice⟩ := k a ha D hD
  refine ⟨fun t => ?_, slice⟩
  obtain ⟨fields, nodup, elements⟩ := array t
  refine ⟨fields, nodup, fun x hx => ?_⟩
  obtain ⟨hp, type, v, known⟩ := elements x hx
  exact ⟨hp, type, v, (same x hp).trans known⟩

end Sturdy

/-- New values come to a heap. -/
theorem Windowed.gains (w : F.Windowed) (k : Gains F F' parts) (sturdy : Sturdy F' parts) :
    F'.Windowed := by
  constructor
  · intro a D ha array
    by_cases hp : a ∈ parts
    · obtain ⟨fields, nodup, elements⟩ := (sturdy a hp D ha).1 array
      exact ⟨fields, nodup, fun x hx => (elements x hx).2⟩
    · rw [k.rest a hp] at ha
      exact (w.arrays ha array).mono k.sub
  · intro s D hs slice
    by_cases hp : s ∈ parts
    · obtain ⟨elem, rfl⟩ := (sturdy s hp D hs).2 slice
      exact ⟨0, 0, 0, .nil, elem, rfl, le_rfl, .inl ⟨rfl, rfl⟩⟩
    · rw [k.rest s hp] at hs
      exact (w.slices hs slice).mono k.sub

end Facts

/-! ## Operations of the heap -/

namespace Heap

/-- The operation makes and writes no arrays and no slices, except for copies. -/
def Op.Apart : Op → Prop
  | .allocate t _ _ | .setField _ t _ _ | .setChild _ t _ _ | .setChildOwned _ t _ _
  | .takeChild _ t _ =>
    t.isRow = false
  | _ => True

/-- What the records of a store say. -/
def Records.facts (m : Records) : Facts := fun a => (m a).map Cell.body

variable {m m' : Records} {l : List Address} {op : Op} {r : Reply} {a b : Address} {c : Cell}

theorem Records.facts_gain : (m.gain l).facts = m.facts := by
  funext a
  simp only [facts, gain, Option.map_map]
  rfl

theorem Records.facts_update {o : Option Cell} :
    Records.facts (Function.update m a o) = Function.update m.facts a (o.map Cell.body) := by
  funext b
  by_cases e : b = a
  · subst e
    simp [facts]
  · simp [facts, Function.update_of_ne e]

theorem Drops.facts (d : Drops m l m') : m'.facts.Sub m.facts := by
  intro a D ha
  obtain ⟨c', hc', rfl⟩ := Option.map_eq_some_iff.1 ha
  obtain ⟨c, hc, e⟩ := d.sameAt a c' hc'
  exact Option.map_eq_some_iff.2 ⟨c, hc, by rw [e]; rfl⟩

/-- An operation on anything else leaves arrays and slices alone. -/
theorem Does.spares (d : Does m op r m') (apart : op.Apart) : m.facts.Spares m'.facts := by
  have here {m : Records} {a : Address} {c : Cell} (hc : m a = some c) : m.facts a = some c.body :=
    Option.map_eq_some_iff.2 ⟨c, hc, rfl⟩
  have same {m : Records} {a : Address} {c c' : Cell} (hc : m a = some c) (e : c'.body = c.body) :
      m.facts.Spares (Records.facts (Function.update m a (some c'))) := by
    rw [Records.facts_update, Option.map_some, e, ← here hc, Function.update_eq_self]
    exact .of_sub .refl
  induction d with
  | read | pinNil | unpinNil => exact .of_sub .refl
  | allocate _ _ _ new =>
    rw [Records.facts_update]
    exact .update apart (fun D₀ h₀ => by simp [Records.facts, new] at h₀)
      fun ⟨type, v, k⟩ => by simp [Records.facts, new] at k
  | @setField m a i w c hc lt =>
    rw [Records.facts_update]
    refine .update apart (fun D₀ h₀ => ?_) fun ⟨type, v, k⟩ => ?_
    · obtain rfl := Option.some_inj.1 (h₀.symm.trans (here hc))
      exact apart
    · have fields : [] = c.fields :=
        congrArg Body.fields (Option.some_inj.1 (k.symm.trans (here hc)))
      simp [← fields] at lt
  | setChildOwned hc _ d =>
    refine Facts.Spares.then_sub ?_ d.facts
    rw [Records.facts_update]
    exact .put (here hc) apart
  | setChild _ _ ih => simpa only [Records.facts_gain] using ih apart
  | takeChild hc _ =>
    rw [Records.facts_update]
    exact .put (here hc) apart
  | reference =>
    rw [Records.facts_gain]
    exact .of_sub .refl
  | free d => exact .of_sub d.facts
  | @copy m a b c hc _ new =>
    rw [Records.facts_update, Records.facts_gain]
    have unknown : m.facts b = none := by simp [Records.facts, new]
    constructor
    · intro x D hx row
      by_cases e : x = b
      · subst e
        obtain rfl : (⟨c.tag, c.fields, c.children, 1, 0⟩ : Cell).body = D := by simpa using hx
        unfold Records.look at hc
        split at hc
        · cases hc
          cases row
        · exact ⟨a, Option.map_eq_some_iff.2 ⟨c, hc, rfl⟩⟩
      · exact ⟨x, by rwa [Function.update_of_ne e] at hx⟩
    · intro x D D' hx _ hx'
      rw [Function.update_of_ne, hx] at hx'
      · exact (Option.some_inj.1 hx').symm
      · rintro rfl
        rw [unknown] at hx
        cases hx
    · exact fun known _ => known.mono (Gains.one unknown).sub
  | pin hc _ => exact same hc rfl
  | unpin hc _ _ => exact same hc rfl
  | @unpinLast m m' a c _ _ _ d =>
    refine .of_sub (d.facts.trans fun x D hx => ?_)
    rw [Records.facts_update] at hx
    by_cases e : x = a
    · subst e
      simp at hx
    · rwa [Function.update_of_ne e] at hx
  | sweep _ _ _ d =>
    refine .of_sub (d.facts.trans fun x D hx => ?_)
    obtain ⟨c, hc, rfl⟩ := Option.map_eq_some_iff.1 hx
    dsimp only at hc
    split_ifs at hc
    exact here hc

end Heap
end GoMachine
