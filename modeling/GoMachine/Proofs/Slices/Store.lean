import GoMachine.Proofs.Slices.Made
/-!
# Storing values in a row

Values are stored in the variables of an array, one after another from some place on. All other
records say what they said, or are gone: what stood in a variable may have been the last thing to
refer to them.

* `Facts.Wrote`: what the records say before and after.
* `Slice.store_rows`: what is stored in an array that the client has a hold on.
-/
namespace GoMachine

open Heap (Reports Owns)

variable {P O : Multiset Address} {n k : Nat} {h h' : Heap} {F F' F₁ : Facts}
    {x v a root arr type old : Address}
  {D R : Body} {vars values done : List Address}

/-! ## What is written -/

namespace Facts

theorem IsVariable.ne_nil (k : F.IsVariable x) (dead : F .nil = none) : x ≠ .nil := by
  rintro rfl
  obtain ⟨type, v, known⟩ := k
  cases dead.symm.trans known

/-- The values stand in the variables of a row from one place on, and other records are unchanged or
gone. -/
structure Wrote (F F' : Facts) (vars : List Address) (k : Nat) (values : List Address) : Prop where
  others : ∀ {a D}, F' a = some D → (∀ j < values.length, vars[k + j]? ≠ some a) → F a = some D
  written : ∀ {j v}, values[j]? = some v → ∃ x type old, vars[k + j]? = some x ∧
    F x = some ⟨.variable, [], [type, old]⟩ ∧ F' x = some ⟨.variable, [], [type, v]⟩

namespace Wrote

theorem start : Wrote F F vars k [] := ⟨fun ha _ => ha, by simp⟩

/-- One more value is stored. -/
theorem next (w : Wrote F F₁ vars k done) (nodup : vars.Nodup)
    (hx : vars[k + done.length]? = some x)
    (was : F₁ x = some ⟨.variable, [], [type, old]⟩)
    (sub : F'.Sub (Function.update F₁ x (some ⟨.variable, [], [type, v]⟩)))
    (there : ∀ y ∈ vars, F' y ≠ none) : Wrote F F' vars k (done ++ [v]) := by
  have apart {j : Nat} (lt : j < done.length) : vars[k + j]? ≠ some x := by
    intro again
    have := (List.nodup_iff_getElem?_ne_getElem?.1 nodup) (k + j) (k + done.length) (by omega)
      (List.getElem?_eq_some_iff.1 hx).1
    exact this (again.trans hx.symm)
  constructor
  · intro a D ha away
    have ne : a ≠ x := by
      rintro rfl
      exact away done.length (by simp) hx
    have before := sub ha
    rw [Function.update_of_ne ne] at before
    exact w.others before fun j lt => away j (by simp; omega)
  · intro j u hu
    rcases lt_or_ge j done.length with lt | ge
    · rw [List.getElem?_append_left lt] at hu
      obtain ⟨y, type', old', hy, hF, hF₁⟩ := w.written hu
      have ne : y ≠ x := by
        rintro rfl
        exact apart lt hy
      obtain ⟨E, hE⟩ := Option.ne_none_iff_exists'.1 (there y (List.mem_of_getElem? hy))
      have same := sub hE
      rw [Function.update_of_ne ne, hF₁] at same
      exact ⟨y, type', old', hy, hF, hE.trans same.symm⟩
    · obtain ⟨rfl, rfl⟩ : j = done.length ∧ v = u := by
        rw [List.getElem?_append_right ge] at hu
        have : j - done.length = 0 := by
          by_contra more
          rw [List.getElem?_eq_none (by simp; omega)] at hu
          cases hu
        rw [this] at hu
        exact ⟨by omega, by simpa using hu⟩
      have hF : F x = some ⟨.variable, [], [type, old]⟩ := w.others was fun j lt => apart lt
      obtain ⟨E, hE⟩ := Option.ne_none_iff_exists'.1 (there x (List.mem_of_getElem? hx))
      have same := sub hE
      rw [Function.update_self] at same
      exact ⟨x, type, old, hx, hF, hE.trans same.symm⟩

end Wrote
end Facts

/-! ## Storing -/

/-- A variable gets another value, and what it had may go away. -/
theorem Variable.setValue_reports (g : Reports P (n + 1) O F h) :
    Yields (Variable.setValue x v) h fun _ h' =>
    Owns P (n + 1) O h' ∧ ∃ D, F x = some D ∧ D.tag = .variable ∧
      Facts.Sub h'.body? (Function.update F x
      (some { D with children := D.children.set 1 v })) := by
  refine .read fun _ _ => (g.reference.bind fun _ h₁ ⟨_, g₁⟩ => ?_).heap
  refine g₁.replaces.mono fun _ h₂ ⟨D, d, hD, tag, old, own, sub, _⟩ =>
    ⟨own.tighten g.owns.spare, D, hD, tag, sub⟩

/-- The client has a hold on a row: it owns the row, or something that has the row as a child and is
no variable. -/
structure Facts.Held (F : Facts) (O : Multiset Address) (root : Address) (R : Body) (arr : Address)
    (vars : List Address) :
    Prop where
  mine : root ∈ O
  here : F root = some R
  shape : R.tag.isRow
  leads : root = arr ∨ arr ∈ R.children
  row : F arr = some ⟨.array, [], vars⟩

namespace Facts.Held

/-- A row that is held stays when a variable is written. -/
theorem stays (k : F.Held O root R arr vars) (own : Owns P n O h) (dead : F .nil = none)
    (hx : F x = some D)
    (tag : D.tag = .variable) {E : Body} (sub : Facts.Sub h.body? (Function.update F x (some E))) :
    Facts.Held h.body? O root R arr vars := by
  have live {a : Address} (hl : h.isLive a) : h.body? a ≠ Option.none := by
    rw [Heap.body?, Heap.cell?_eq_some.2 ⟨hl, rfl⟩]
    simp
  have still {a : Address} {B : Body} (hB : F a = some B) (row : B.tag.isRow)
    (there : h.body? a ≠ Option.none) :
      h.body? a = some B := by
    obtain ⟨B', hB'⟩ := Option.ne_none_iff_exists'.1 there
    have same := sub hB'
    rw [Function.update_of_ne] at same
    · rw [hB', ← same, hB]
    · rintro rfl
      obtain rfl := Option.some_inj.1 (hB.symm.trans hx)
      rw [tag] at row
      cases row
  have named {a : Address} {B : Body} (hB : F a = some B) : a ≠ .nil := by
    rintro rfl
    cases dead.symm.trans hB
  have here := still k.here k.shape (live (own.exact.isLive_of_mem k.mine (named k.here)))
  refine ⟨k.mine, here, k.shape, k.leads, ?_⟩
  rcases k.leads with rfl | child
  · obtain rfl := Option.some_inj.1 (k.here.symm.trans k.row)
    exact here
  · exact still k.row rfl ((own.exact.closed_body root R arr here child).resolve_left (named k.row))

end Facts.Held

namespace Slice

/-- Values are stored in variables that are found in a row. -/
theorem store_rows {slot : Nat → Query Address} {J : Heap → Prop} (g : Rows P (n + 1) O h)
    (held : Facts.Held h.body? O root R arr vars) (start : J h) (le : k ≤ vars.length)
    (finds : ∀ {h i x}, h.Sound → Facts.Held h.body? O root R arr vars → k + i ≤ vars.length →
    slot i h = .ok x →
      vars[k + i]? = some x)
    (step : ∀ {h x v}, J h → x ∈ vars → v ∈ values → Yields (Variable.setValue x v) h fun _ h' =>
    J h') :
    Yields (store slot values) h fun _ h' => Rows P (n + 1) O h' ∧
    Facts.Held h'.body? O root R arr vars ∧
      Facts.Wrote h.body? h'.body? vars k values ∧ k + values.length ≤ vars.length ∧ J h' := by
  unfold store
  refine (Yields.forIn (I := fun rest h' => ∃ done post, values = done ++ post ∧
    rest = post.zipIdx done.length ∧
    Rows P (n + 1) O h' ∧ Facts.Held h'.body? O root R arr vars ∧
    Facts.Wrote h.body? h'.body? vars k done ∧
    k + done.length ≤ vars.length ∧ J h') ⟨[], values, rfl, rfl, g, held, .start, le, start⟩
    ?_).bind
      fun _ h' ⟨done, post, e, e', rest⟩ => .pure ?_
  · rintro ⟨c, i⟩ rest h₁ ⟨done, post, e, e', g₁, held₁, w, le₁, j⟩
    cases post with
    | nil => cases e'
    | cons v post =>
      obtain ⟨⟨rfl, rfl⟩, rfl⟩ : (c = v ∧ i = done.length) ∧
        rest = post.zipIdx (done.length + 1) := by
        simpa using e'
      refine .read fun x asked => ?_
      have hx := finds g₁.sound held₁ le₁ asked
      have row := g₁.windowed.arrays held₁.row rfl
      obtain ⟨type, old, was⟩ := row.elements x (List.mem_of_getElem? hx)
      refine ((Variable.setValue_reports g₁.reports).and
        (step j (List.mem_of_getElem? hx) (by simp [e]))).bind
        fun _ h₂ ⟨⟨own, D, hD, tag, sub⟩, j⟩ => ?_
      obtain rfl := Option.some_inj.1 (hD.symm.trans was)
      have held₂ := held₁.stays own g₁.sound.body?_nil hD tag sub
      refine .pure ⟨rfl, done ++ [c], post, by simp [e], by simp, ?_, held₂, ?_, ?_, j⟩
      · exact g₁.spares own ((Facts.Spares.put hD rfl).then_sub sub)
      · exact w.next row.nodup hx was sub fun y hy =>
          (own.exact.closed_body _ _ y held₂.row hy).resolve_left
          ((row.elements y hy).ne_nil g₁.sound.body?_nil)
      · have := (List.getElem?_eq_some_iff.1 hx).1
        simp
        omega
  · obtain rfl : post = [] := by simpa using e'.symm
    rw [List.append_nil] at e
    exact e ▸ rest

end Slice
end GoMachine
