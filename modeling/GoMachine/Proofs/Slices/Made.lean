import GoMachine.Machine.Composite
import GoMachine.Proofs.Owns.Turn
import GoMachine.Proofs.Slices.Contents
/-!
# Where slices come from

`Rows P n O h` is about a client that owns `O`, and a heap in which windows lie inside of arrays
(`Facts.Windowed`). It stays so with each function that makes arrays or slices: zero values, `make`,
composite literals, and windows of arrays and slices.
-/
namespace GoMachine

open Heap (Reports Owns)
open Facts (Sturdy)

/-- The client owns `O`, and in the heap windows lie inside of arrays. -/
structure Rows (P : Multiset Address) (n : Nat) (O : Multiset Address) (h : Heap) : Prop where
  owns : Owns P n O h
  windowed : Facts.Windowed h.body?

variable {P O : Multiset Address} {n : Nat} {h₀ h h' : Heap} {F F' : Facts}
    {structs type elem arr s value : Address}
  {parts q : Multiset Address} {vars values : List Address} {made : Action Address} {low high : Int}

namespace Rows

theorem reports (g : Rows P n O h) : Reports P n O h.body? h := .of g.owns

theorem of (g : Reports P n O F h) (w : F.Windowed) : Rows P n O h := ⟨g.owns, g.body ▸ w⟩

theorem sound (g : Rows P n O h) : h.Sound := g.owns.exact.sound

/-- Arrays and slices are left alone. -/
theorem spares {O' : Multiset Address} (g : Rows P n O h) (own : Owns P n O' h')
    (k : Facts.Spares h.body? h'.body?) : Rows P n O' h' :=
  ⟨own, g.windowed.spares k own.exact.closed_body g.sound.body?_nil⟩

theorem array (g : Rows P n O h) (run : ArrayValue.check arr h = .ok ()) :
    ∃ vars, h.body? arr = some ⟨.array, [], vars⟩ ∧ vars.Nodup ∧
    ∀ x ∈ vars, Facts.IsVariable h.body? x := by
  obtain ⟨⟨t, fs, vars⟩, harr, rfl⟩ := g.sound.require_tag run (by decide)
  obtain ⟨rfl, nodup, elements⟩ := g.windowed.arrays harr rfl
  exact ⟨vars, harr, nodup, elements⟩

theorem slice (g : Rows P n O h) (run : Slice.check s h = .ok ()) : ∃ size cap offset arr elem,
    h.body? s = some ⟨.slice, [size, cap, offset], [arr, elem]⟩ ∧ size.toNat ≤ cap.toNat ∧
      (arr = .nil ∧ offset.toNat + cap.toNat = 0 ∨
        ∃ vars, h.body? arr = some ⟨.array, [], vars⟩ ∧
        offset.toNat + cap.toNat ≤ vars.length) := by
  obtain ⟨D, hs, tag⟩ := g.sound.require_tag run (by decide)
  obtain ⟨size, cap, offset, arr, elem, rfl, inside⟩ := g.windowed.slices hs tag
  exact ⟨size, cap, offset, arr, elem, hs, inside⟩

end Rows

/-! ## Zero values -/

/-- A variable whose parts are sturdy. -/
def SturdyVar (F : Facts) (x : Address) (parts : Multiset Address) : Prop :=
  F.IsVariable x ∧ x ∈ parts ∧ Sturdy F parts

theorem SturdyVar.ofParts : OfParts SturdyVar := by
  rintro F F' x parts same ⟨⟨type, v, known⟩, hx, sturdy⟩
  exact ⟨⟨type, v, (same x hx).trans known⟩, hx, sturdy.still same⟩

theorem Each.sturdy {ι : Type} {is : List ι} (each : Each (fun _ => SturdyVar F) is vars q) :
    Sturdy F q ∧ (q.Nodup → vars.Nodup) ∧ ∀ x ∈ vars, x ∈ q ∧ F.IsVariable x := by
  induction each with
  | nil => exact ⟨.empty, fun _ => List.nodup_nil, by simp⟩
  | cons first _ ih =>
    obtain ⟨var, hx, sturdy⟩ := first
    obtain ⟨sturdy', distinct, all⟩ := ih
    refine ⟨sturdy.add sturdy', fun nodup => ?_, fun y hy => ?_⟩
    · obtain ⟨-, nodup', apart⟩ := Multiset.nodup_add.1 nodup
      exact List.nodup_cons.2 ⟨fun again => Multiset.disjoint_left.1 apart hx (all _ again).1,
        distinct nodup'⟩
    · rcases List.mem_cons.1 hy with rfl | hy
      · exact ⟨Multiset.mem_add.2 (.inl hx), var⟩
      · exact (all y hy).imp_left fun there => Multiset.mem_add.2 (.inr there)

/-- A new array of distinct new variables. -/
structure NewArray (size : Nat) (F : Facts) (arr : Address) (parts : Multiset Address) : Prop where
  sturdy : Sturdy F parts
  itself : arr ∈ parts
  row : ∃ vars, F arr = some ⟨.array, [], vars⟩ ∧ vars.length = size ∧ ∀ x ∈ vars, x ∈ parts

theorem ArrayValue.build_sturdy {size : Nat} {make : Nat → Action Address}
    (grows : ∀ i, Grows h₀ (make i) SturdyVar) : Grows h₀ (build size make) (NewArray size) := by
  intro P n O F h g sub
  refine (build_grows (R := fun _ => SturdyVar) (fun _ => SturdyVar.ofParts) grows g sub).mono ?_
  rintro arr h' ⟨F', _, g, gains, vars, q, harr, each, rfl⟩
  obtain ⟨sturdy, distinct, all⟩ := each.sturdy
  have nodup := distinct (Multiset.nodup_cons.1 gains.nodup).2
  exact ⟨F', _, g, gains, .array harr nodup all sturdy, Multiset.mem_cons_self .., vars, harr,
    by simpa using each.length_eq, fun x hx => Multiset.mem_cons_of_mem (all x hx).1⟩

theorem Variable.create_sturdy : Grows h₀ (Variable.create type value) SturdyVar := by
  intro P n O F h g _
  refine (Variable.create_reports g).mono fun x h' ⟨new, g⟩ =>
    ⟨_, {x}, g, .one new, ⟨type, value, ?_⟩, by simp, ?_⟩
  · exact Function.update_self ..
  · exact .one (Function.update_self ..) rfl

/-- A variable for a value that is made for it. -/
theorem Variable.createOwned_sturdy (grows : Grows h₀ made fun F _ parts => Sturdy F parts) :
    Grows h₀ (do Variable.createOwned type (← made)) SturdyVar := by
  intro P n O F h g sub
  refine (grows g sub).bind fun v h₁ ⟨F₁, p, g, gains, sturdy⟩ => ?_
  refine (Variable.createOwned_reports g).mono fun x h₂ ⟨new, g⟩ => ?_
  have gains' := Gains.one new (D := ⟨.variable, [], [type, v]⟩)
  refine ⟨_, x ::ₘ p, g, (gains.trans gains').congr (by rw [add_comm, Multiset.singleton_add]),
    ⟨type, v, Function.update_self ..⟩, Multiset.mem_cons_self .., ?_⟩
  exact .cons (Function.update_self ..) rfl (sturdy.still fun a ha => gains.same gains'.sub ha)

/-- A value without arrays and slices. -/
theorem Grows.sturdy {R : Facts → Address → Multiset Address → Prop} (grows : Grows h₀ made R)
    (plain : ∀ {F v parts}, R F v parts → Sturdy F parts) : Grows h₀ made fun F _ parts =>
    Sturdy F parts :=
  fun g sub => (grows g sub).mono fun _ _ ⟨F', p, g, gains, k⟩ => ⟨F', p, g, gains, plain k⟩

theorem LockKind.create_sturdy {k : LockKind} (other : k.tag.isRow = false) :
    Grows h₀ (k.create 0) fun F _ parts => Sturdy F parts := by
  refine Grows.sturdy (LockKind.create_grows (k := k) h₀) ?_
  rintro F lock _ ⟨queue, here, there, rfl⟩
  exact .cons here other (.one there rfl)

theorem Entries.sturdy {l : List (Address × Address)} {links : Multiset Address}
    (k : Entries F arr l links) :
    Sturdy F links := by
  induction k with
  | nil => exact .empty
  | cons here _ ih => exact .cons here rfl ih

theorem StructValue.build_sturdy {make : Address → Action Address} {decl : Address}
    (grows : ∀ type, Grows h₀ (make type) SturdyVar) :
    Grows h₀ (build make decl) fun F _ parts => Sturdy F parts := by
  refine Grows.sturdy (build_grows (R := fun _ => SturdyVar) (M := fun _ => True)
    (fun _ _ _ _ _ => trivial)
    (fun _ => SturdyVar.ofParts) fun _ _ m _ => grows m.2) ?_
  rintro F s _ ⟨frame, first, ms, vars, links, q, here, scope, -, entries, each, rfl⟩
  exact .cons here rfl (.cons scope rfl (entries.sturdy.add each.sturdy.1))

theorem zeroValueTo_sturdy : ∀ {depth : Nat} {type : Address},
    Grows h₀ (zeroValueTo depth structs type) fun F _ parts => Sturdy F parts
  | 0, _, _, _, _, _, _, _, _ => .get .throw
  | depth + 1, type, P, n, O, F, h, g, sub => by
    have member : ∀ a, Grows h₀
      (do Variable.createOwned a (← zeroValueTo depth structs a)) SturdyVar :=
      fun a => Variable.createOwned_sturdy zeroValueTo_sturdy
    have leaf {t : Tag} {w : UInt64} (other : t.isRow = false) :
        Grows h₀ (Scalar.new t w) fun F _ parts => Sturdy F parts :=
      Grows.sturdy (Scalar.new_leaf h₀) fun made => made.2 ▸ .one made.1 other
    have nilGrown : Grows h₀ (pure .nil) fun F _ parts => Sturdy F parts :=
      fun g _ => .pure ⟨_, 0, Reports.cons_nil.2 g, .refl, .empty⟩
    unfold zeroValueTo
    refine .read fun t _ => ?_
    cases t
    case typeBool => exact leaf rfl g sub
    case typeInt32 => exact leaf rfl g sub
    case typeFloat32 => exact leaf rfl g sub
    case typeRune => exact leaf rfl g sub
    case typeString =>
      exact Grows.sturdy (Text.create_leaf h₀) (fun made => made.2 ▸ .one made.1 rfl) g sub
    case typeArray =>
      exact .read fun elem _ => .read fun size _ =>
        Grows.sturdy (ArrayValue.build_sturdy fun _ => member elem)
        (fun k => k.sturdy) g sub
    case typeSlice =>
      exact .read fun elem _ => (Slice.create_reports g).mono fun s h' made =>
        ⟨_, {s}, made.2, .one made.1, .nil_slice (Function.update_self ..)⟩
    case typeStruct => exact .read fun decl _ => StructValue.build_sturdy member g sub
    case typeStructDecl => exact StructValue.build_sturdy member g sub
    case typeMutex => exact LockKind.create_sturdy (k := .mutex) rfl g sub
    case typeWaitGroup => exact LockKind.create_sturdy (k := .waitGroup) rfl g sub
    all_goals first | exact nilGrown g sub | exact .throw

theorem zeroValue_sturdy : Grows h₀ (zeroValue structs type) fun F _ parts => Sturdy F parts :=
  fun g sub => .get (zeroValueTo_sturdy g sub)

theorem ArrayValue.zeroed_sturdy {size : Nat} :
    Grows h₀ (zeroed structs elem size) (NewArray size) :=
  build_sturdy fun _ => Variable.createOwned_sturdy zeroValue_sturdy

theorem ArrayValue.ofValues_sturdy : Grows h₀ (ofValues elem values) (NewArray values.length) :=
  build_sturdy fun _ => Variable.create_sturdy

/-- New values among windows. -/
theorem Grows.rows (grows : ∀ h₀, Grows h₀ made fun F _ parts => Sturdy F parts)
    (g : Rows P (n + 1) O h) :
    Yields made h fun v h' => Rows P (n + 1) (v ::ₘ O) h' :=
  (grows h g.reports .refl).mono fun _ _ ⟨_, _, g', gains, sturdy⟩ =>
  .of g' (g.windowed.gains gains sturdy)

/-! ## Slices -/

namespace Slice

theorem toUInt64_toNat {k : Nat} (lt : k < 2 ^ 64) : k.toUInt64.toNat = k := by
  rw [Nat.toUInt64, UInt64.toNat_ofNat', Nat.mod_eq_of_lt lt]

/-- A window inside of an array. -/
theorem create_rows {offset size cap : Nat} (g : Rows P (n + 1) O h) (le : size ≤ cap)
    (inside : arr = .nil ∧ offset + cap = 0 ∨
      ∃ vars, h.body? arr = some ⟨.array, [], vars⟩ ∧ offset + cap ≤ vars.length) :
    Yields (create arr elem offset size cap) h fun s h' => h.body? s = none ∧
    Rows P (n + 1) (s ::ₘ O) h' ∧
      h'.body? = Function.update h.body? s
        (some ⟨.slice, [size.toUInt64, cap.toUInt64, offset.toUInt64], [arr, elem]⟩) := by
  have few : offset + cap < 2 ^ 64 := by
    rcases inside with ⟨-, empty⟩ | ⟨vars, harr, le'⟩
    · omega
    · have := Heap.children_le harr
      simp only [Header.limit] at this
      omega
  refine (create_reports g.reports).mono ?_
  rintro s h' ⟨new, g'⟩
  refine ⟨new, ?_, g'.body⟩
  refine .of g' (g.windowed.slice new rfl ⟨_, _, _, arr, elem, rfl, ?_, ?_⟩)
  · rwa [toUInt64_toNat (by omega), toUInt64_toNat (by omega)]
  · rwa [toUInt64_toNat (by omega), toUInt64_toNat (by omega)]

/-- A window on a new array, which nothing else refers to. -/
theorem over_rows {offset size cap : Nat} (g : Rows P (n + 1) (arr ::ₘ O) h) (le : size ≤ cap)
    (harr : h.body? arr = some ⟨.array, [], vars⟩) (inside : offset + cap ≤ vars.length) :
    Yields (Action.releasing arr (create arr elem offset size cap)) h fun s h' =>
    Rows P (n + 1) (s ::ₘ O) h' ∧
      h.body? s = none ∧ h'.body? = Function.update h.body? s
        (some ⟨.slice, [size.toUInt64, cap.toUInt64, offset.toUInt64], [arr, elem]⟩) := by
  refine Yields.afterwards (create_rows g le (.inr ⟨vars, harr, inside⟩))
    fun s h₁ ⟨new, g₁, body⟩ => ?_
  have ne : arr ≠ s := by
    rintro rfl
    rw [new] at harr
    cases harr
  have backed : Heap.Backed (s ::ₘ O) h₁.body? arr :=
    .inr (.inr ⟨s, _, by rw [body, Function.update_self], by simp⟩)
  have g₁' : Reports P (n + 1) (arr ::ₘ s ::ₘ O) h₁.body? h₁ := g₁.reports.swap
  exact (g₁'.free backed).yields.mono fun _ h₂ g₂ =>
    ⟨⟨g₂.owns, g₂.body ▸ g₁.windowed⟩, new, g₂.body.trans body⟩

theorem make_rows {size cap : Int} (g : Rows P (n + 1) O h) :
    Yields (make structs elem size cap) h fun s h' => Rows P (n + 1) (s ::ₘ O) h' := by
  refine .guard fun positive => .guard fun le => ?_
  refine (ArrayValue.zeroed_sturdy g.reports .refl).bind fun arr h₁ ⟨F₁, parts, g₁, gains, made⟩ =>
    ?_
  obtain ⟨vars, harr, len, -⟩ := made.row
  refine (over_rows (.of g₁ (g.windowed.gains gains made.sturdy)) (by omega) (g₁.body ▸ harr)
    (by omega)).mono
    fun _ _ k => k.1

/-- The bounds of a window have been checked. -/
theorem checkBounds_ok {cap : Nat} (run : checkBounds low high cap = .ok ()) : 0 ≤ low ∧
    low ≤ high ∧ high ≤ cap := by
  unfold checkBounds at run
  by_cases high_bad : high < 0 ∨ cap < high
  · rw [if_pos high_bad] at run
    cases run
  rw [if_neg high_bad] at run
  by_cases low_bad : low < 0 ∨ high < low
  · rw [if_pos low_bad] at run
    cases run
  omega

theorem reslice_rows (g : Rows P (n + 1) O h) :
    Yields (reslice s low high) h fun t h' => Rows P (n + 1) (t ::ₘ O) h' := by
  refine .read fun cap asked => ?_
  obtain ⟨_, checked, -⟩ := query_bind_ok.1 asked
  obtain ⟨size, cap', offset, arr, elem, hs, le, inside⟩ := g.slice checked
  obtain rfl : cap = cap'.toNat := by
    rw [cap_there g.sound hs] at asked
    cases asked
    rfl
  refine (Yields.conclude (Q := fun _ h' => h' = h ∧ checkBounds low high cap'.toNat = .ok ())
    fun _ bounded => ⟨rfl, bounded⟩).bind fun _ _ ⟨same, bounds⟩ => same ▸ ?_
  obtain ⟨positive, le', within⟩ := checkBounds_ok bounds
  refine .read fun arr' asked => .read fun elem' _ => .read fun offset' asked' => ?_
  rw [backing_there g.sound hs] at asked
  rw [offset_there g.sound hs] at asked'
  cases asked
  cases asked'
  refine (create_rows g (by omega) ?_).mono fun _ _ k => k.2.1
  exact inside.imp (fun ⟨absent, empty⟩ => ⟨absent, by omega⟩) fun ⟨vars, harr, le⟩ =>
    ⟨vars, harr, by omega⟩

theorem ofArray_rows (g : Rows P (n + 1) O h) :
    Yields (ofArray arr low high) h fun t h' => Rows P (n + 1) (t ::ₘ O) h' := by
  refine .read fun len asked => ?_
  obtain ⟨_, checked, -⟩ := query_bind_ok.1 asked
  obtain ⟨vars, harr, -, -⟩ := g.array checked
  obtain rfl : len = vars.length := by
    rw [ArrayValue.size_there g.sound harr] at asked
    cases asked
    rfl
  refine (Yields.conclude (Q := fun _ h' => h' = h ∧ checkBounds low high vars.length = .ok ())
    fun _ bounded => ⟨rfl, bounded⟩).bind fun _ _ ⟨same, bounds⟩ => same ▸ ?_
  obtain ⟨positive, le', within⟩ := checkBounds_ok bounds
  have windows {elem : Address} :
    Yields (create arr elem low.toNat (high - low).toNat (vars.length - low.toNat)) h
      fun t h' => Rows P (n + 1) (t ::ₘ O) h' :=
    (create_rows g (by omega) (.inr ⟨vars, harr, by omega⟩)).mono fun _ _ k => k.2.1
  split
  · exact windows
  · exact .read fun x _ => .read fun elem _ => windows

end Slice
end GoMachine
