import GoMachine.Proofs.Slices.Windows
/-!
# What slices show

`Slice.window` asks for the window of a slice and `Slice.contents` for the values in it; nil stands
for an empty slice. Where the records of a slice, of the array behind it and of its elements are
known, so are the answers.
-/
namespace GoMachine

open Heap (body?_eq_some)

/-- The window of a slice. -/
structure Window where
  size : Nat
  cap : Nat
  offset : Nat
  array : Address
  deriving DecidableEq

namespace Slice

/-- Length, capacity, position and array of a slice. -/
def window (s : Address) : Query Window := do
  if s.isNil then return ⟨0, 0, 0, .nil⟩
  return ⟨← size s, ← cap s, ← offset s, ← backing s⟩

/-- The values of a slice. -/
def contents (s : Address) : Query (List Address) := do
  if s.isNil then return []
  values s

end Slice

variable {h : Heap} {F : Facts} {a s arr elem x v type : Address} {D : Body} {t : Tag} {i : Nat}
    {w : UInt64}
  {size cap offset : UInt64} {vars : List Address} {expected : String}

/-! ## Answers -/

namespace Heap.Sound

theorem field_there (sound : h.Sound) (ha : h.body? a = some D) (hi : D.fields[i]? = some w) :
    Query.field a D.tag i h = .ok w := by
  obtain ⟨c, hc, rfl⟩ := body?_eq_some.1 ha
  exact ofHeap_ok.2 (sound.field_ok.2 ⟨c, hc, rfl, hi⟩)

theorem child_there (sound : h.Sound) (ha : h.body? a = some D) (hi : D.children[i]? = some x) :
    Query.child a D.tag i h = .ok x := by
  obtain ⟨c, hc, rfl⟩ := body?_eq_some.1 ha
  exact ofHeap_ok.2 (sound.child_ok.2 ⟨c, hc, rfl, hi⟩)

theorem tag_there (sound : h.Sound) (ha : h.body? a = some D) : Query.tag a h = .ok D.tag := by
  obtain ⟨c, hc, rfl⟩ := body?_eq_some.1 ha
  exact ofHeap_ok.2 (sound.tag_ok.2 (.inr ⟨c, hc, rfl⟩))

theorem require_there (sound : h.Sound) (ha : h.body? a = some D) :
    Query.require a D.tag expected h = .ok () :=
  query_bind_ok.2 ⟨D.tag, sound.tag_there ha, by simp [query_pure_ok]⟩

/-- What is required to have a tag is nil or has it. -/
theorem require_tag (sound : h.Sound) (run : Query.require a t expected h = .ok ())
    (ht : t ≠ .nil) :
    ∃ D, h.body? a = some D ∧ D.tag = t := by
  obtain ⟨found, tagged, run⟩ := query_bind_ok.1 run
  split at run
  · next e =>
    subst e
    rcases sound.tag_read tagged with ⟨-, rfl⟩ | known
    · exact absurd rfl ht
    · exact known
  · exact (query_throw_ok.1 run).elim

end Heap.Sound

theorem Heap.children_le (ha : h.body? a = some D) : D.children.length ≤ Header.limit := by
  obtain ⟨c, hc, rfl⟩ := body?_eq_some.1 ha
  obtain ⟨-, rfl⟩ := Heap.cell?_eq_some.1 hc
  rw [show (h.cellAt a).body.children = (h.cellAt a).children from rfl, Heap.length_children]
  have := (h.headerAt a).children.toNat_lt
  unfold Header.limit
  omega

theorem Variable.value_there (sound : h.Sound) (hx : h.body? x = some ⟨.variable, [], [type, v]⟩) :
    Variable.value x h = .ok v :=
  query_bind_ok.2 ⟨(), sound.require_there hx, sound.child_there (i := 1) hx rfl⟩

namespace ArrayValue

theorem size_there (sound : h.Sound) (harr : h.body? arr = some ⟨.array, [], vars⟩) :
    ArrayValue.size arr h = .ok vars.length := by
  refine query_bind_ok.2 ⟨(), sound.require_there harr, ?_⟩
  obtain ⟨c, hc, e⟩ := body?_eq_some.1 harr
  exact ofHeap_ok.2 (sound.numChildren_ok.2 (.inr ⟨c, hc, congrArg (·.children.length) e⟩))

theorem element_there (sound : h.Sound) (harr : h.body? arr = some ⟨.array, [], vars⟩)
    (hi : vars[i]? = some x) :
    element arr i h = .ok x := by
  obtain ⟨lt, -⟩ := List.getElem?_eq_some_iff.1 hi
  refine query_bind_ok.2 ⟨_, size_there sound harr, ?_⟩
  rw [if_neg (by omega)]
  exact sound.child_there harr hi

/-- An element is asked for that is there. -/
theorem element_within {j : Int} (sound : h.Sound) (harr : h.body? arr = some ⟨.array, [], vars⟩)
    (run : element arr j h = .ok x) : 0 ≤ j ∧ j < vars.length ∧ vars[j.toNat]? = some x := by
  obtain ⟨len, asked, run⟩ := query_bind_ok.1 run
  obtain rfl : len = vars.length := by
    rw [size_there sound harr] at asked
    cases asked
    rfl
  split at run
  · obtain ⟨_, failed, -⟩ := query_bind_ok.1 run
    exact (query_throw_ok.1 failed).elim
  · next inside =>
    exact ⟨by omega, by omega, (sound.child_of_body harr run).2⟩

end ArrayValue

namespace Slice

variable (sound : h.Sound) (hs : h.body? s = some ⟨.slice, [size, cap, offset], [arr, elem]⟩)

include sound hs

theorem dimension_there (hi : [size, cap, offset][i]? = some w) : dimension s i h = .ok w.toNat :=
  query_bind_ok.2 ⟨(), sound.require_there hs, query_bind_ok.2 ⟨w, sound.field_there hs hi, rfl⟩⟩

theorem size_there : Slice.size s h = .ok size.toNat := dimension_there sound hs rfl

theorem cap_there : Slice.cap s h = .ok cap.toNat := dimension_there sound hs rfl

theorem offset_there : Slice.offset s h = .ok offset.toNat := dimension_there sound hs rfl

theorem backing_there : backing s h = .ok arr :=
  query_bind_ok.2 ⟨(), sound.require_there hs, sound.child_there (i := 0) hs rfl⟩

theorem elemType_there : elemType s h = .ok elem :=
  query_bind_ok.2 ⟨(), sound.require_there hs, sound.child_there (i := 1) hs rfl⟩

theorem isNil_there : s.isNil = false := by
  by_contra absent
  obtain rfl := Address.isNil_iff.1 (by simpa using absent)
  rw [sound.body?_nil] at hs
  cases hs

theorem window_there : window s h = .ok ⟨size.toNat, cap.toNat, offset.toNat, arr⟩ := by
  unfold window
  rw [if_neg (by simp [isNil_there sound hs])]
  exact query_bind_ok.2 ⟨_, size_there sound hs, query_bind_ok.2 ⟨_, cap_there sound hs,
    query_bind_ok.2 ⟨_, offset_there sound hs, query_bind_ok.2 ⟨_, backing_there sound hs, rfl⟩⟩⟩⟩

theorem slot_there (harr : h.body? arr = some ⟨.array, [], vars⟩)
    (hi : vars[offset.toNat + i]? = some x) :
    slot s i h = .ok x := by
  obtain ⟨lt, -⟩ := List.getElem?_eq_some_iff.1 hi
  have few := Heap.children_le harr
  simp only [Header.limit] at few
  refine query_bind_ok.2 ⟨_, backing_there sound hs, query_bind_ok.2 ⟨_, offset_there sound hs, ?_⟩⟩
  rw [Int64.toInt_ofNat_of_lt (by omega)]
  exact ArrayValue.element_there sound harr hi

/-- A slot is asked for that is there, if those in front of it are. -/
theorem slot_within (harr : h.body? arr = some ⟨.array, [], vars⟩)
    (le : offset.toNat + i ≤ vars.length)
    (run : slot s i h = .ok x) : vars[offset.toNat + i]? = some x := by
  obtain ⟨arr', asked, run⟩ := query_bind_ok.1 run
  rw [backing_there sound hs] at asked
  cases asked
  obtain ⟨k, asked, run⟩ := query_bind_ok.1 run
  rw [offset_there sound hs] at asked
  cases asked
  have few := Heap.children_le harr
  simp only [Header.limit] at few
  rw [Int64.toInt_ofNat_of_lt (by omega)] at run
  simpa only [Int.toNat_natCast] using (ArrayValue.element_within sound harr run).2.2

end Slice

/-! ## Values -/

namespace Facts

/-- The value of a variable. -/
def value (F : Facts) (x : Address) : Address := (F x).elim .nil fun D => D.children.getD 1 .nil

theorem IsVariable.value (k : F.IsVariable x) : ∃ type,
    F x = some ⟨.variable, [], [type, F.value x]⟩ := by
  obtain ⟨type, v, known⟩ := k
  exact ⟨type, by simp [known, Facts.value]⟩

/-- The values in the window of a slice. -/
def shown (F : Facts) (vars : List Address) (offset size : Nat) : List Address :=
  ((vars.drop offset).take size).map F.value

end Facts

namespace Slice

variable (sound : h.Sound) (hs : h.body? s = some ⟨.slice, [size, cap, offset], [arr, elem]⟩)

include sound hs

theorem valuesFrom_there (harr : h.body? arr = some ⟨.array, [], vars⟩)
    (elements : ∀ x ∈ vars, Facts.IsVariable h.body? x)
    (inside : offset.toNat + size.toNat ≤ vars.length) : ∀ n i, i + n ≤ size.toNat →
      valuesFrom s i n h = .ok (Facts.shown h.body? vars (offset.toNat + i) n)
  | 0, _, _ => by
    rw [Facts.shown, List.take_zero]
    rfl
  | n + 1, i, le => by
    have lt : offset.toNat + i < vars.length := by omega
    have at_i : vars[offset.toNat + i]? = some vars[offset.toNat + i] := List.getElem?_eq_getElem lt
    obtain ⟨type, known⟩ := (elements _ (List.getElem_mem lt)).value
    have there : element s i h = .ok vars[offset.toNat + i] := by
      refine query_bind_ok.2 ⟨_, size_there sound hs, ?_⟩
      rw [if_neg (by omega)]
      exact slot_there sound hs harr at_i
    have rest := valuesFrom_there harr elements inside n (i + 1) (by omega)
    rw [Facts.shown, List.drop_eq_getElem_cons lt, List.take_succ_cons, List.map_cons]
    exact query_bind_ok.2 ⟨_, there, query_bind_ok.2 ⟨_, Variable.value_there sound known,
      query_bind_ok.2 ⟨_, rest, rfl⟩⟩⟩

/-- The values of a slice on an array. -/
theorem values_there (harr : h.body? arr = some ⟨.array, [], vars⟩)
    (elements : ∀ x ∈ vars, Facts.IsVariable h.body? x)
    (inside : offset.toNat + size.toNat ≤ vars.length) :
    values s h = .ok (Facts.shown h.body? vars offset.toNat size.toNat) := by
  have few := Heap.children_le harr
  simp only [Header.limit] at few
  refine query_bind_ok.2 ⟨_, size_there sound hs, ?_⟩
  rw [Int64.toNatClampNeg_ofNat_of_lt (by omega)]
  exact valuesFrom_there sound hs harr elements inside _ 0 (by omega)

theorem values_nil (empty : size.toNat = 0) : values s h = .ok [] := by
  refine query_bind_ok.2 ⟨_, size_there sound hs, ?_⟩
  rw [empty]
  rfl

theorem contents_there : contents s h = values s h := by
  unfold contents
  rw [if_neg (by simp [isNil_there sound hs])]

end Slice
end GoMachine
