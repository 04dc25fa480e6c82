import GoMachine.Proofs.Atomic.Values
import GoMachine.Proofs.Slices.Store
/-!
# Appending

Values that are appended to a slice come after those that it has. If the capacity allows, they are
stored in the row behind the slice, in the variables right after its window, and no other variable
changes. Otherwise a new row is made, of variables that are new as well, and nothing changes that
was there.

* `Slice.Appends`: what the slice, the new slice and the other records are like afterwards.
* `Slice.append_rows`: appending to a slice or to nil.
-/
namespace GoMachine

open Heap (Reports Owns Raised Under)

variable {P B O O' : Multiset Address} {n k : Nat} {h₀ h h' : Heap} {F F' : Facts} {ρ : Address → ℚ}
  {x v a s t arr elem structs : Address} {w : Window} {vars values olds : List Address}

/-! ## Windows and rows -/

namespace Facts

/-- A window on a row of variables, or one of no variables. -/
structure Over (F : Facts) (w : Window) (vars : List Address) : Prop where
  inside : w.offset + w.cap ≤ vars.length
  row : w.array = .nil ∧ vars = [] ∨ F w.array = some ⟨.array, [], vars⟩
  nodup : vars.Nodup
  elements : ∀ x ∈ vars, F.IsVariable x

/-- A slice with its window and the row behind it. -/
structure Overlooks (F : Facts) (s : Address) (w : Window) (elem : Address) (vars : List Address) :
    Prop
    extends Over F w vars where
  here : ∃ size cap offset : UInt64, F s = some ⟨.slice, [size, cap, offset], [w.array, elem]⟩ ∧
    w = ⟨size.toNat, cap.toNat, offset.toNat, w.array⟩
  le : w.size ≤ w.cap

theorem shown_congr (same : ∀ x ∈ (vars.drop k).take n, F' x = F x) :
    F'.shown vars k n = F.shown vars k n :=
  List.map_congr_left fun x hx => by rw [value, value, same x hx]

theorem IsVariable.same (known : F.IsVariable x) (sub : F.Sub F') : F' x = F x := by
  obtain ⟨type, v, hx⟩ := known
  rw [hx, sub hx]

namespace Over

theorem mono (k : F.Over w vars) (sub : F.Sub F') : F'.Over w vars where
  inside := k.inside
  row := k.row.imp_right fun row => sub row
  nodup := k.nodup
  elements x hx := (k.elements x hx).mono sub

theorem shown_mono (k : F.Over w vars) (sub : F.Sub F') {i j : Nat} :
    F'.shown vars i j = F.shown vars i j :=
  shown_congr fun x hx => (k.elements x (List.mem_of_mem_drop (List.mem_of_mem_take hx))).same sub

theorem few (k : Facts.Over h.body? w vars) : vars.length ≤ Header.limit := by
  rcases k.row with ⟨-, rfl⟩ | row
  · exact Nat.zero_le _
  · exact Heap.children_le row

theorem there (k : F.Over w vars) (hx : x ∈ vars) : F x ≠ none := by
  obtain ⟨type, v, known⟩ := k.elements x hx
  simp [known]

end Over

namespace Overlooks

theorem mono (k : F.Overlooks s w elem vars) (sub : F.Sub F') : F'.Overlooks s w elem vars where
  toOver := k.toOver.mono sub
  here := by
    obtain ⟨size, cap, offset, hs, e⟩ := k.here
    exact ⟨size, cap, offset, sub hs, e⟩
  le := k.le

theorem window (k : Facts.Overlooks h.body? s w elem vars) (sound : h.Sound) :
    Slice.window s h = .ok w := by
  obtain ⟨size, cap, offset, hs, e⟩ := k.here
  rw [Slice.window_there sound hs, ← e]

/-- The values in the window. -/
theorem values_ok (k : Facts.Overlooks h.body? s w elem vars) (sound : h.Sound) :
    Slice.values s h = .ok (Facts.shown h.body? vars w.offset w.size) := by
  obtain ⟨size, cap, offset, hs, e⟩ := k.here
  have inside := k.inside
  have le := k.le
  rcases k.row with ⟨-, rfl⟩ | row
  · rw [e] at inside le ⊢
    simp only [List.length_nil] at inside le
    rw [Slice.values_nil sound hs (by omega)]
    simp [shown]
  · rw [e] at inside le ⊢
    exact Slice.values_there sound hs row k.elements (by simp only at inside le; omega)

theorem contents (k : Facts.Overlooks h.body? s w elem vars) (sound : h.Sound) :
    Slice.contents s h = .ok (Facts.shown h.body? vars w.offset w.size) := by
  obtain ⟨size, cap, offset, hs, -⟩ := k.here
  rw [Slice.contents_there sound hs, k.values_ok sound]

/-- The variables of the row. -/
theorem element (k : Facts.Overlooks h.body? s w elem vars) (sound : h.Sound) {i : Nat}
    (hx : vars[i]? = some x) :
    ArrayValue.element w.array i h = .ok x := by
  rcases k.row with ⟨-, rfl⟩ | row
  · cases hx
  · exact ArrayValue.element_there sound row hx

end Overlooks

/-- What a row shows after values have been stored in it. -/
theorem Wrote.shown {i j : Nat} (w : Wrote F F' vars (i + j) values) (nodup : vars.Nodup)
    (there : ∀ x ∈ vars, F' x ≠ none) :
    F'.shown vars i (j + values.length) = F.shown vars i j ++ values ∧
    F'.shown vars i j = F.shown vars i j := by
  have front : F'.shown vars i j = F.shown vars i j := by
    refine shown_congr fun x hx => ?_
    obtain ⟨m, lt, hx⟩ := List.mem_take_iff_getElem.1 hx
    have hx : vars[i + m]? = some x := by
      rw [List.getElem_drop] at hx
      exact List.getElem?_eq_some_iff.2 ⟨by simp at lt; omega, hx⟩
    obtain ⟨D, hD⟩ := Option.ne_none_iff_exists'.1 (there x (List.mem_of_getElem? hx))
    rw [hD, w.others hD fun l _ again => ?_]
    exact (List.nodup_iff_getElem?_ne_getElem?.1 nodup) (i + m) (i + j + l) (by omega)
      (List.getElem?_eq_some_iff.1 again).1 (hx.trans again.symm)
  refine ⟨?_, front⟩
  rw [← front, Facts.shown, List.take_add, List.map_append, ← Facts.shown]
  congr 1
  refine List.ext_getElem? fun m => ?_
  rw [List.drop_drop, List.getElem?_map, List.getElem?_take]
  split_ifs with lt
  · obtain ⟨x, type, old, hx, -, now⟩ := w.written (List.getElem?_eq_getElem lt)
    rw [List.getElem?_drop, hx]
    simp [value, now, lt]
  · rw [List.getElem?_eq_none (by omega)]
    rfl

end Facts

/-- A slice that is asked for. -/
theorem Rows.overlooks (g : Rows P n O h) (run : Slice.check s h = .ok ()) :
    ∃ w elem vars, Facts.Overlooks h.body? s w elem vars := by
  obtain ⟨size, cap, offset, arr, elem, hs, le, inside⟩ := g.slice run
  rcases inside with ⟨rfl, empty⟩ | ⟨vars, harr, inside⟩
  · exact ⟨⟨size.toNat, cap.toNat, offset.toNat, .nil⟩, elem, [],
      ⟨empty.le, .inl ⟨rfl, rfl⟩, List.nodup_nil, by simp⟩, ⟨_, _, _, hs, rfl⟩, le⟩
  · obtain ⟨-, nodup, elements⟩ := g.windowed.arrays harr rfl
    exact ⟨⟨size.toNat, cap.toNat, offset.toNat, arr⟩, elem, vars,
      ⟨inside, .inr harr, nodup, elements⟩,
      ⟨_, _, _, hs, rfl⟩, le⟩

namespace Slice

/-! ## In place -/

/-- Nothing can be stored where there is no row. -/
theorem store_nil {i : Nat} {size cap offset : UInt64} (sound : h.Sound)
    (hs : h.body? s = some ⟨.slice, [size, cap, offset], [.nil, elem]⟩) :
    Yields (store (fun j => slot s (i + j)) values) h fun _ h' => values = [] ∧ h' = h := by
  cases values with
  | nil => exact .pure ⟨rfl, rfl⟩
  | cons v values =>
    refine Yields.bind (Q := fun _ _ => False) ?_ fun _ _ no => no.elim
    rw [List.zipIdx_cons, List.forIn_cons]
    refine (Yields.read fun x asked => ?_).bind fun _ _ no => no
    obtain ⟨arr, asked', run⟩ := query_bind_ok.1 asked
    rw [backing_there sound hs] at asked'
    cases asked'
    obtain ⟨offset', -, run⟩ := query_bind_ok.1 run
    obtain ⟨len, run, -⟩ := query_bind_ok.1 run
    obtain ⟨_, run, -⟩ := query_bind_ok.1 run
    obtain ⟨D, hD, -⟩ := sound.require_tag run (by decide)
    cases sound.body?_nil.symm.trans hD

/-- A new window on a row. -/
theorem create_overlooks {size : Nat} (g : Rows P (n + 1) O h) (k : Facts.Over h.body? w vars)
    (le : size ≤ w.cap) : Yields (create w.array elem w.offset size w.cap) h fun t h' =>
    Rows P (n + 1) (t ::ₘ O) h' ∧
      Facts.Overlooks h'.body? t { w with size } elem vars ∧ Facts.Sub h.body? h'.body? ∧
      h.body? t = none ∧
      ∀ a ≠ t, h'.body? a = h.body? a := by
  have inside := k.inside
  have inside' : w.array = .nil ∧ w.offset + w.cap = 0 ∨
      ∃ vars, h.body? w.array = some ⟨.array, [], vars⟩ ∧ w.offset + w.cap ≤ vars.length :=
    k.row.imp (fun ⟨absent, e⟩ => ⟨absent, by simpa [e] using inside⟩)
      fun row => ⟨vars, row, inside⟩
  refine (create_rows g le inside').mono fun t h' ⟨new, g', body⟩ => ?_
  have few := k.few
  simp only [Header.limit] at few
  have sub : Facts.Sub h.body? h'.body? := body ▸ (Gains.one new).sub
  refine ⟨g', { k.mono sub with here := ⟨_, _, _, by rw [body, Function.update_self], ?_⟩, le },
    sub, new, fun a ne => ?_⟩
  · rw [toUInt64_toNat (by omega), toUInt64_toNat (by omega), toUInt64_toNat (by omega)]
  · rw [body, Function.update_of_ne ne]

/-- What the slice and the new slice are like after values have been appended in place. -/
structure InPlace (h h' : Heap) (s t : Address) (w : Window) (elem : Address)
    (vars values : List Address) : Prop where
  old : Facts.Overlooks h'.body? s w elem vars
  new : Facts.Overlooks h'.body? t { w with size := w.size + values.length } elem vars
  shows : Facts.shown h'.body? vars w.offset (w.size + values.length) =
    Facts.shown h.body? vars w.offset w.size ++ values
  still : Facts.shown h'.body? vars w.offset w.size = Facts.shown h.body? vars w.offset w.size
  others : ∀ {a D}, h'.body? a = some D → D.tag = .variable →
    (∀ j < values.length, vars[w.offset + w.size + j]? ≠ some a) → h.body? a = some D

theorem inPlace_rows {needed : Nat} (g : Rows P (n + 1) O h) (mine : s ∈ O)
    (k : Facts.Overlooks h.body? s w elem vars)
    (sum : needed = (w.size + values.length).toUInt64.toNat) (le : needed ≤ w.cap) :
    Yields (do
      store (fun i => slot s (w.size + i)) values
      let array ← backing s
      let offset ← offset s
      create array elem offset needed w.cap : Action Address) h fun t h' =>
      Rows P (n + 1) (t ::ₘ O) h' ∧
        w.size + values.length ≤ w.cap ∧ InPlace h h' s t w elem vars values := by
  have inside := k.inside
  have few := k.few
  simp only [Header.limit] at few
  have stored : Yields (store (fun i => slot s (w.size + i)) values) h fun _ h₁ =>
    Rows P (n + 1) O h₁ ∧
      Facts.Overlooks h₁.body? s w elem vars ∧
      Facts.Wrote h.body? h₁.body? vars (w.offset + w.size) values ∧
      w.offset + w.size + values.length ≤ vars.length := by
    obtain ⟨size, cap, offset, hs, e⟩ := id k.here
    rcases k.row with ⟨absent, rfl⟩ | row
    · refine (store_nil g.sound (absent ▸ hs)).mono ?_
      rintro _ _ ⟨rfl, rfl⟩
      exact ⟨g, k, .start, by have := k.le; simp at inside ⊢; omega⟩
    · have held : Facts.Held h.body? O s
        ⟨.slice, [size, cap, offset], [w.array, elem]⟩ w.array vars :=
        ⟨mine, hs, rfl, .inr (by simp), row⟩
      refine (store_rows (J := fun _ => True) (k := w.offset + w.size) g held trivial
        (by have := k.le; omega)
        (fun {h₁ i x} sound held le asked => ?_) fun _ _ _ => .any).mono fun _ h₁ stored => ?_
      · have := slot_within (i := w.size + i) sound held.here held.row
          (by rw [e] at le ⊢; simp only at le ⊢; omega) asked
        rwa [← Nat.add_assoc, show offset.toNat = w.offset by rw [e]] at this
      · obtain ⟨g₁, held₁, wrote, le, -⟩ := stored
        obtain ⟨-, nodup, elements⟩ := g₁.windowed.arrays held₁.row rfl
        exact ⟨g₁, ⟨⟨k.inside, .inr held₁.row, nodup, elements⟩, ⟨size, cap, offset, held₁.here, e⟩,
          k.le⟩, wrote, le⟩
  refine stored.bind fun _ h₁ found => ?_
  obtain ⟨g₁, k₁, wrote, fits⟩ := found
  obtain rfl : needed = w.size + values.length := by rw [sum, toUInt64_toNat (by omega)]
  obtain ⟨size, cap, offset, hs, e⟩ := id k₁.here
  refine .read fun array asked => .read fun offset' asked' => ?_
  rw [backing_there g₁.sound hs] at asked
  rw [offset_there g₁.sound hs, show offset.toNat = w.offset by rw [e]] at asked'
  cases asked
  cases asked'
  refine (create_overlooks g₁ k₁.toOver le).mono ?_
  rintro t h₂ ⟨g₂, k₂, sub, new, rest⟩
  refine ⟨g₂, le, k₁.mono sub, k₂, ?_, ?_, ?_⟩
  · rw [k₁.shown_mono sub]
    exact (wrote.shown k.nodup fun _ => k₁.there).1
  · rw [k₁.shown_mono sub]
    exact (wrote.shown k.nodup fun _ => k₁.there).2
  · intro a D ha tag away
    refine wrote.others ((rest a ?_).symm.trans ha) away
    rintro rfl
    obtain ⟨_, _, _, ht, -⟩ := k₂.here
    obtain rfl := Option.some_inj.1 (ht.symm.trans ha)
    cases tag

/-! ## On a new row -/

/-- What the new slice is like after all values have been stored on a new row. -/
structure Anew (h h' : Heap) (t elem : Address) (size cap : Nat) (shows : List Address) : Prop where
  place : ∃ arr row, Facts.Overlooks h'.body? t ⟨size, cap, 0, arr⟩ elem row ∧ row.length = cap ∧
    Facts.shown h'.body? row 0 size = shows ∧ h.body? arr = none ∧ ∀ x ∈ row, h.body? x = none

theorem setValue_raised (g : Raised P B h₀ ρ (n + 1) O h) (dead : h₀.isLive x = false)
    (old : Old h₀ v) :
    Yields (Variable.setValue x v) h fun _ h' => Raised P B h₀ ρ (n + 1) O h' :=
  .read fun _ _ => (g.setChild dead old.under).heap.mono fun _ _ k => k.1

/-- The values that a slice shows and those that are appended are as many as the new one is to
have. -/
theorem length_shown (k : Facts.Overlooks F s w elem vars) :
    w.size + values.length = (Facts.shown F vars w.offset w.size ++ values).length := by
  have inside := k.inside
  have le := k.le
  rw [List.length_append, Facts.shown, List.length_map, List.length_take, List.length_drop]
  omega

/-- What an array with its own row is like for a slice over it, until the slice owns it. -/
structure Filled (P B : Multiset Address) (h₀ : Heap) (ρ : Address → ℚ) (n : Nat)
    (O : Multiset Address) (elem arr : Address) (row all : List Address) (size cap : Nat)
    (t : Address) (h' : Heap) : Prop where
  rows : Rows P (n + 1) (t ::ₘ arr ::ₘ (O + B)) h'
  joins : ∃ h₂, Combines P B h₀ ρ h₂ 0 (n + 1) (arr ::ₘ O) t h' ∧ Refers h₀ ρ h₂ 0 arr
  overlooks : Facts.Overlooks h'.body? t ⟨size, cap, 0, arr⟩ elem row
  shows : Facts.shown h'.body? row 0 size = all
  size_eq : size = all.length

/-- All values are written to the variables of a new array, and the slice over it is made. -/
theorem fill_rows {arr : Address} {row all : List Address} {size cap : Nat}
    (g : Rows P (n + 1) (arr ::ₘ (O + B)) h) (raised : Raised P B h₀ ρ (n + 1) (arr ::ₘ O) h)
    (under : Under h₀ ρ 0 arr) (array : h.body? arr = some ⟨.array, [], row⟩)
    (len : row.length = cap) (fresh : ∀ x ∈ row, h₀.isLive x = false) (he : Old h₀ elem)
    (old : ∀ v ∈ all, Old h₀ v) (sum : size = all.length.toUInt64.toNat) (le : size ≤ cap) :
    Yields (do
        store (fun i => ArrayValue.element arr i) all
        create arr elem 0 size cap : Action Address) h fun t h' =>
      Filled P B h₀ ρ n O elem arr row all size cap t h' := by
  have held : Facts.Held h.body? (arr ::ₘ (O + B)) arr ⟨.array, [], row⟩ arr row :=
    ⟨Multiset.mem_cons_self .., array, rfl, .inl rfl, array⟩
  refine (store_rows (J := Raised P B h₀ ρ (n + 1) (arr ::ₘ O)) g held raised (Nat.zero_le _)
    ?finds fun raised hx hv => setValue_raised raised (fresh _ hx) (old _ hv)).bind
    fun _ h₁ stored => ?_
  case finds =>
    intro h i x sound held le asked
    simpa using (ArrayValue.element_within sound held.row asked).2.2
  obtain ⟨g₁, held₁, wrote, fits, raised₁⟩ := stored
  obtain ⟨-, nodup, elements⟩ := g₁.windowed.arrays held₁.row rfl
  have k₁ : Facts.Over h₁.body? ⟨size, cap, 0, arr⟩ row :=
    ⟨by simp [len], .inr held₁.row, nodup, elements⟩
  have refers := raised₁.refers (Multiset.mem_cons_self ..) under
  have few := k₁.few
  simp only [Header.limit] at few
  obtain rfl : size = all.length := by rw [sum, toUInt64_toNat (by omega)]
  refine ((create_overlooks g₁ k₁ le).and
    (create_joins raised₁ refers (he.refers raised₁)).yields).mono ?_
  rintro t h₂ ⟨⟨g₂, k₂, sub, -⟩, joins⟩
  refine ⟨g₂, ⟨h₁, joins, refers⟩, k₂, ?_, rfl⟩
  rw [k₁.shown_mono sub]
  have shows := (Facts.Wrote.shown (i := 0) (j := 0) wrote nodup fun _ => k₁.there).1
  simpa [Facts.shown] using shows

/-- The array is the slice's now. -/
theorem Filled.release {arr t : Address} {row all : List Address} {size cap : Nat}
    (filled : Filled P B h₀ ρ n O elem arr row all size cap t h) :
    Yields (HeapM.free arr) h fun _ h' => h'.body? = h.body? ∧
      ∃ ρ', Raised P B h₀ ρ' (n + 1) (t ::ₘ O) h' := by
  have backed : Heap.Backed (t ::ₘ (O + B)) h.body? arr := by
    obtain ⟨_, _, _, ht, -⟩ := filled.overlooks.here
    exact .inr (.inr ⟨t, _, ht, by simp⟩)
  obtain ⟨h₂, joins, refers⟩ := filled.joins
  refine ((filled.rows.reports.swap.free backed).yields.and (joins.drops refers).yields).mono
    fun _ h' ⟨g, joins'⟩ => ?_
  obtain ⟨-, -, ρ', -, -, -, raised⟩ := joins'
  exact ⟨g.body, ρ', raised⟩

theorem anew_rows {size cap : Nat} (raised : Raised P B h₀ ρ (n + 1) O h)
    (windowed : Facts.Windowed h.body?)
    (hs : Old h₀ structs) (he : Old h₀ elem) (k : Facts.Overlooks h.body? s w elem vars)
    (old : ∀ v ∈ Facts.shown h.body? vars w.offset w.size ++ values, Old h₀ v)
    (sum : size = (w.size + values.length).toUInt64.toNat) (le : size ≤ cap) :
    Yields (do
      let array ← ArrayValue.zeroed structs elem cap
      Action.releasing array do
        let old ← Slice.values s
        store (fun i => ArrayValue.element array i) (old ++ values)
        create array elem 0 size cap : Action Address) h fun t h' => size = w.size + values.length ∧
      Facts.Windowed h'.body? ∧ (∃ ρ', Raised P B h₀ ρ' (n + 1) (t ::ₘ O) h') ∧
      Anew h h' t elem size cap (Facts.shown h.body? vars w.offset w.size ++ values) := by
  have g : Rows P (n + 1) (O + B) h := ⟨raised.owns, windowed⟩
  refine ((ArrayValue.zeroed_sturdy g.reports .refl).and
    (ArrayValue.zeroed_raises hs he 0 raised).yields).bind
    fun arr h₁ found => ?_
  obtain ⟨⟨F₁, parts, g₁, gains, made⟩, ρ₁, under, above, raised₁⟩ := found
  obtain ⟨row, array, len, fresh⟩ := made.row
  have body := g₁.body
  subst body
  have windowed₁ : Facts.Windowed h₁.body? := g.windowed.gains gains made.sturdy
  have new : ∀ x ∈ parts, h₀.isLive x = false := by
    intro x hx
    by_contra live
    have there := g.reports.isLive.1 (raised.live (Bool.not_eq_false _ ▸ live))
    exact there (gains.new x hx).1
  rw [length_shown k] at sum ⊢
  refine Yields.afterwards (Q := fun t h' => Filled P B h₀ ρ₁ n O elem arr row
    (Facts.shown h.body? vars w.offset w.size ++ values) size cap t h') ?filled ?released
  case filled =>
    refine .read fun olds asked => ?_
    rw [(k.mono gains.sub).values_ok g₁.sound, k.shown_mono gains.sub] at asked
    cases asked
    exact fill_rows ⟨g₁.owns, windowed₁⟩ raised₁ under array len (fun x hx => new x (fresh x hx))
      he old sum le
  case released =>
    intro t h₂ filled
    refine filled.release.mono fun _ h₃ ⟨same, raised'⟩ => ?_
    refine ⟨filled.size_eq, same ▸ filled.rows.windowed, raised', arr, row,
      same ▸ filled.overlooks, len, same ▸ filled.shows, ?_, fun x hx => ?_⟩
    · exact (gains.new arr made.itself).1
    · exact (gains.new x (fresh x hx)).1

/-! ## Both ways -/

/-- What has become of a slice and of everything else when values have been appended to it. -/
structure Appends (h h' : Heap) (s t : Address) (values : List Address) : Prop where
  contents : ∃ vs, contents s h = .ok vs ∧ Slice.contents t h' = .ok (vs ++ values) ∧
  Slice.contents s h' = .ok vs
  place : ∃ w, window s h = .ok w ∧
    if w.size + values.length ≤ w.cap then
      window t h' = .ok { w with size := w.size + values.length } ∧
      ∀ x D, h'.body? x = some D → D.tag = .variable →
        (∀ j < values.length, ArrayValue.element w.array (w.offset + w.size + j) h ≠ .ok x) →
        h.body? x = some D
    else ∃ arr, window t h' = .ok ⟨w.size + values.length,
    max (max (2 * w.cap) (w.size + values.length)) 4, 0, arr⟩ ∧
      ArrayValue.size arr h' = .ok (max (max (2 * w.cap) (w.size + values.length)) 4) ∧
      h.body? arr = none ∧
      (∀ i x, ArrayValue.element arr i h' = .ok x → h.body? x = none) ∧ ∀ a D, h.body? a = some D →
      h'.body? a = some D

theorem InPlace.appends (k : Facts.Overlooks h.body? s w elem vars)
    (did : InPlace h h' s t w elem vars values)
    (sound : h.Sound) (sound' : h'.Sound) (le : w.size + values.length ≤ w.cap) :
    Appends h h' s t values := by
  refine ⟨⟨_, k.contents sound, ?_, ?_⟩, w, k.window sound, ?_⟩
  · rw [did.new.contents sound', did.shows]
  · rw [did.old.contents sound', did.still]
  · rw [if_pos le]
    refine ⟨did.new.window sound', fun x D hx tag away => did.others hx tag fun j lt again =>
      away j lt ?_⟩
    exact k.element sound again

theorem Anew.appends {size cap : Nat} (hc : Slice.contents s h = .ok olds)
    (hc' : Slice.contents s h' = .ok olds)
    (hw : window s h = .ok w) (did : Anew h h' t elem size cap (olds ++ values))
    (sub : Facts.Sub h.body? h'.body?)
    (sound' : h'.Sound) (sum : size = w.size + values.length) (more : w.cap < size)
    (room : cap = max (max (2 * w.cap) size) 4) : Appends h h' s t values := by
  obtain ⟨arr, row, k', len, shows, fresh, fresh'⟩ := did.place
  refine ⟨⟨olds, hc, by rw [k'.contents sound', shows], hc'⟩, w, hw, ?_⟩
  subst sum
  rw [if_neg (by omega), ← room]
  have placed : h'.body? arr = some ⟨.array, [], row⟩ := by
    refine k'.row.resolve_left fun ⟨_, e⟩ => ?_
    rw [e, List.length_nil] at len
    omega
  refine ⟨arr, k'.window sound', by
    rw [ArrayValue.size_there sound' placed, len], fresh, fun i x asked => ?_, fun a D => @sub a D⟩
  exact fresh' x (List.mem_of_getElem? (ArrayValue.element_within sound' placed asked).2.2)

/-- Values are appended to a slice that the client owns. The heap may hold other things already that
have been made on top of another heap. -/
theorem appendTo_rows (raised : Raised P B h₀ ρ (n + 1) O h) (windowed : Facts.Windowed h.body?)
    (mine : s ∈ O + B)
    (hs : Old h₀ structs) (k : Facts.Overlooks h.body? s w elem vars) (he : Old h₀ elem)
    (old : ∀ v ∈ Facts.shown h.body? vars w.offset w.size ++ values, Old h₀ v) :
    Yields (appendTo structs s values) h fun t h' => Rows P (n + 1) (t ::ₘ (O + B)) h' ∧
      (w.size + values.length ≤ w.cap ∧ InPlace h h' s t w elem vars values ∨
        w.cap < w.size + values.length ∧ (∃ ρ', Raised P B h₀ ρ' (n + 1) (t ::ₘ O) h') ∧
          Anew h h' t elem (w.size + values.length)
          (max (max (2 * w.cap) (w.size + values.length)) 4)
            (Facts.shown h.body? vars w.offset w.size ++ values)) := by
  have g : Rows P (n + 1) (O + B) h := ⟨raised.owns, windowed⟩
  obtain ⟨size, cap, offset, here, e⟩ := id k.here
  refine .read fun _ asked => ?_
  rw [size_there g.sound here, show size.toNat = w.size by rw [e]] at asked
  cases asked
  refine .read fun _ asked => ?_
  rw [cap_there g.sound here, show cap.toNat = w.cap by rw [e]] at asked
  cases asked
  refine .read fun _ asked => ?_
  rw [elemType_there g.sound here] at asked
  cases asked
  extract_lets needed newCap
  split
  · next le =>
      refine (inPlace_rows g mine k rfl le).mono ?_
      rintro t h' ⟨g', le, did⟩
      exact ⟨g', .inl ⟨le, did⟩⟩
  · next more =>
    have few := k.few
    have inside := k.inside
    simp only [Header.limit] at few
    obtain cap_eq : newCap = max (max (2 * w.cap) needed) 4 := by
      simp only [newCap]
      rw [toUInt64_toNat (by omega), minGrow]
    refine (anew_rows raised windowed hs he k old rfl (by rw [cap_eq]; omega)).mono
      fun t h' found => ?_
    obtain ⟨size_eq, windowed', ⟨ρ', raised'⟩, did⟩ := found
    change needed = _ at size_eq
    rw [cap_eq, size_eq, show (w.size + values.length).toUInt64.toNat = _ from size_eq] at did
    rw [size_eq] at more
    refine ⟨⟨Multiset.cons_add t O B ▸ raised'.owns, windowed'⟩,
      .inr ⟨by omega, ⟨ρ', raised'⟩, did⟩⟩

end Slice

theorem Heap.Raised.body_sub (raised : Raised P B h₀ ρ n O h) : Facts.Sub h₀.body? h.body? := by
  intro a D hD
  obtain ⟨c, hc, rfl⟩ := Heap.body?_eq_some.1 hD
  obtain ⟨count, hc'⟩ := raised.cells hc
  exact Heap.body?_eq_some.2 ⟨_, hc', rfl⟩

/-- A slice that is owned is still there when records have gone away, and so is the row behind it.
-/
theorem Facts.Overlooks.kept (k : F.Overlooks s w elem vars) (own : Owns P n O h) (mine : s ∈ O)
    (dead : F .nil = none)
    (sub : Facts.Sub h.body? F) : Facts.Overlooks h.body? s w elem vars ∧
      ∀ i j, Facts.shown h.body? vars i j = F.shown vars i j := by
  have still {a : Address} {D : Body} (hD : F a = some D) (there : h.body? a ≠ Option.none) :
    h.body? a = some D := by
    obtain ⟨D', hD'⟩ := Option.ne_none_iff_exists'.1 there
    rw [hD', ← sub hD', hD]
  have known {a : Address} {D : Body} (hD : F a = some D) : a ≠ .nil := by
    rintro rfl
    cases dead.symm.trans hD
  obtain ⟨size, cap, offset, hs, e⟩ := id k.here
  have here : h.body? s = some ⟨.slice, [size, cap, offset], [w.array, elem]⟩ := by
    have live := own.exact.isLive_of_mem mine (known hs)
    exact still hs (by simp [Heap.body?, Heap.cell?_eq_some.2 ⟨live, rfl⟩])
  have row : w.array = .nil ∧ vars = [] ∨ h.body? w.array = some ⟨.array, [], vars⟩ :=
    k.row.imp_right fun row =>
    still row ((own.exact.closed_body _ _ w.array here (by simp)).resolve_left (known row))
  have same : ∀ x ∈ vars, h.body? x = F x := by
    intro x hx
    obtain ⟨type, v, var⟩ := k.elements x hx
    rcases row with ⟨-, rfl⟩ | row
    · cases hx
    · rw [var, still var ((own.exact.closed_body _ _ x row hx).resolve_left (known var))]
  refine ⟨⟨⟨k.inside, row, k.nodup, fun x hx => ?_⟩, ⟨size, cap, offset, here, e⟩, k.le⟩, fun i j =>
    ?_⟩
  · obtain ⟨type, v, var⟩ := k.elements x hx
    exact ⟨type, v, (same x hx).trans var⟩
  · exact shown_congr fun x hx => same x (List.mem_of_mem_drop (List.mem_of_mem_take hx))

namespace Slice

/-- Values are appended to a slice that the client owns. -/
theorem append_slice_rows (g : Rows P (n + 1) O h) (mine : s ∈ O)
    (k : Facts.Overlooks h.body? s w elem vars)
    (hs : Old h structs) (old : ∀ v ∈ values, Old h v) :
    Yields (appendTo structs s values) h fun t h' => Rows P (n + 1) (t ::ₘ O) h' ∧
    Appends h h' s t values := by
  have closed := g.owns.exact.closed_body
  have there {a : Address} (k : a = .nil ∨ h.body? a ≠ none) : Old h a :=
    k.imp_right g.reports.isLive.2
  have he : Old h elem := by
    obtain ⟨size, cap, offset, here, -⟩ := k.here
    exact there (closed _ _ elem here (by simp))
  have olds : ∀ v ∈ Facts.shown h.body? vars w.offset w.size ++ values, Old h v := by
    intro v hv
    rcases List.mem_append.1 hv with hv | hv
    · obtain ⟨x, hx, rfl⟩ := List.mem_map.1 hv
      obtain ⟨type, known⟩ := (k.elements x (List.mem_of_mem_drop (List.mem_of_mem_take hx))).value
      exact there (closed _ _ _ known (by simp))
    · exact old v hv
  have start : Raised P O h (fun _ => 0) (n + 1) 0 h := .start g.owns
  refine (appendTo_rows start g.windowed (by simpa using mine) hs k he olds).mono
    fun t h' ⟨g', did⟩ => ?_
  rw [zero_add] at g'
  refine ⟨g', ?_⟩
  rcases did with ⟨le, did⟩ | ⟨more, ⟨ρ', raised'⟩, did⟩
  · exact did.appends k g.sound g'.sound le
  · have sub := raised'.body_sub
    have still := (k.mono sub).contents g'.sound
    rw [k.shown_mono sub] at still
    exact did.appends (k.contents g.sound) still (k.window g.sound) sub g'.sound rfl more rfl

/-- Values are appended to nil. -/
theorem append_nil_rows (g : Rows P (n + 1) O h) (hs : Old h structs)
    (old : ∀ v ∈ values, Old h v) :
    Yields (append structs .nil values) h fun t h' => Rows P (n + 1) (t ::ₘ O) h' ∧
    Appends h h' .nil t values := by
  have lies : Facts.Over h.body? ⟨0, 0, 0, .nil⟩ [] :=
    ⟨le_rfl, .inl ⟨rfl, rfl⟩, List.nodup_nil, by simp⟩
  have start : Raised P O h (fun _ => 0) (n + 1) 0 h := .start g.owns
  refine ((create_overlooks g lies (le_refl 0)).and
    (create_raises (.inl rfl) (.inl rfl) 0 start).yields).bind
      fun s h₁ found => ?_
  obtain ⟨⟨g₁, k₁, sub₁, new, rest⟩, ρ₁, _, _, raised₁⟩ := found
  have none₁ {a : Address} (dead : h₁.body? a = none) : h.body? a = none := by
    by_contra known
    obtain ⟨D, hD⟩ := Option.ne_none_iff_exists'.1 known
    cases dead.symm.trans (sub₁ hD)
  refine (appendTo_rows raised₁ g₁.windowed (by simp) hs k₁ (.inl rfl)
    (by simpa [Facts.shown] using old)).afterwards
    fun t h₂ found => ?_
  obtain ⟨g₂, did⟩ := found
  rw [Multiset.cons_add, zero_add] at g₂
  have drops := g₂.reports.swap.drops
  rcases did with ⟨le, did⟩ | ⟨more, ⟨ρ', raised'⟩, did⟩
  · obtain rfl : values = [] := List.eq_nil_of_length_eq_zero (by simpa using le)
    refine drops.yields.mono fun _ h₃ found => ?_
    obtain ⟨own, sub⟩ := found
    obtain ⟨k₃, -⟩ := did.new.kept own (Multiset.mem_cons_self ..) g₂.sound.body?_nil sub
    have g₃ : Rows P (n + 1) (t ::ₘ O) h₃ :=
      ⟨own, g₂.windowed.spares (.of_sub sub) own.exact.closed_body g₂.sound.body?_nil⟩
    refine ⟨g₃, ⟨[], rfl, by simpa [Facts.shown] using k₃.contents g₃.sound, rfl⟩, ⟨0, 0, 0, .nil⟩,
      rfl, ?_⟩
    refine ⟨k₃.window g₃.sound, fun x D hx tag _ => ?_⟩
    have hx₁ := did.others (sub hx) tag (by simp)
    rw [← hx₁, rest x]
    rintro rfl
    obtain ⟨_, _, _, here, -⟩ := k₁.here
    obtain rfl := Option.some_inj.1 (here.symm.trans hx₁)
    cases tag
  · refine (drops.yields.and raised'.swap.free.yields).mono fun _ h₃ found => ?_
    obtain ⟨⟨own, sub⟩, raised₃, _⟩ := found
    obtain ⟨arr, row, k₂, len, shows, fresh, fresh'⟩ := did.place
    obtain ⟨k₃, same⟩ := k₂.kept own (Multiset.mem_cons_self ..) g₂.sound.body?_nil sub
    have g₃ : Rows P (n + 1) (t ::ₘ O) h₃ :=
      ⟨own, g₂.windowed.spares (.of_sub sub) own.exact.closed_body g₂.sound.body?_nil⟩
    have did₃ : Anew h h₃ t .nil values.length (max (max (2 * 0) values.length) 4) ([] ++ values) :=
      ⟨arr, row, by simpa using k₃, by simpa using len, by
        simpa [Facts.shown] using (same 0 _).trans shows,
        none₁ fresh, fun x hx => none₁ (fresh' x hx)⟩
    exact ⟨g₃, did₃.appends (w := ⟨0, 0, 0, .nil⟩) rfl rfl rfl raised₃.body_sub g₃.sound
      (Nat.zero_add _).symm
      (by simpa using more) rfl⟩

/-- Values are appended to a slice that the client owns, or to nil. -/
theorem append_rows (g : Rows P (n + 1) O h) (mine : s = .nil ∨ s ∈ O) (hs : Old h structs)
    (old : ∀ v ∈ values, Old h v) :
    Yields (append structs s values) h fun t h' => Rows P (n + 1) (t ::ₘ O) h' ∧
    Appends h h' s t values := by
  by_cases absent : s = .nil
  · exact absent ▸ append_nil_rows g hs old
  · unfold append
    rw [if_neg (by simpa [Address.isNil_iff] using absent)]
    intro t h' run
    obtain ⟨_, _, asked, -⟩ := bind_ok.1 run
    obtain ⟨asked, -⟩ := lift_query_ok.1 asked
    obtain ⟨_, checked, -⟩ := query_bind_ok.1 asked
    obtain ⟨w, elem, vars, k⟩ := g.overlooks checked
    exact append_slice_rows g (mine.resolve_left absent) k hs old t h' run

end Slice
end GoMachine
