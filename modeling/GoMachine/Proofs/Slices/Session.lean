import GoMachine.Proofs.Heap.Client
import GoMachine.Proofs.Slices.Append
/-!
# Users of slices

A user of slices gets them in all ways that there are, one after another, in a heap where there may
be anything else. In between, it uses the heap as any client does: it may give up slices, write
their elements, keep them in other records, sweep. All that it must not do is write into arrays and
slices.

* `Machine.composite_rows`: literals of arrays and slices.
* `Slicer.Reached.rows`: windows lie inside of arrays all the time.
* `Slicer.regular`: what can be said of all slices of a user, and of what is appended to them.
-/
namespace GoMachine

open Heap (Client Exact Op Owns)

/-! ## Literals -/

section Composite

variable {P O : Multiset Address} {n : Nat} {s : Turn} {type : Address} {values : List Address}

/-- A literal of an array or a slice. -/
theorem Machine.composite_rows (g : Rows P (n + 1) O s.heap) :
    Yields (composite type values) s fun v s' => Rows P (n + 1) (v ::ₘ O) s'.heap := by
  refine .ofThread fun structs _ => .look fun tag _ => ?_
  split
  · refine .look fun elem _ => .look fun size _ => .guard fun _ => ?_
    refine (ArrayValue.zeroed_sturdy g.reports .refl).turn.bind
      fun arr s₁ ⟨F₁, parts, g₁, gains, made⟩ => ?_
    obtain ⟨vars, harr, -⟩ := made.row
    have body := g₁.body
    subst body
    have held : Facts.Held s₁.heap.body? (arr ::ₘ O) arr ⟨.array, [], vars⟩ arr vars :=
      ⟨Multiset.mem_cons_self .., harr, rfl, .inl rfl, harr⟩
    refine (Slice.store_rows (J := fun _ => True)
      (.of g₁ (g.windowed.gains gains made.sturdy)) held trivial
      (Nat.zero_le _) (fun sound held _ asked => ?_) fun _ _ _ => .any).turn.bind fun _ _ ⟨g₂, _⟩ =>
      .pure g₂
    simpa using (ArrayValue.element_within sound held.row asked).2.2
  · refine .look fun elem _ => ?_
    refine (ArrayValue.ofValues_sturdy g.reports .refl).turn.bind
      fun arr s₁ ⟨F₁, parts, g₁, gains, made⟩ => ?_
    obtain ⟨vars, harr, len, -⟩ := made.row
    refine Yields.turn ?_
    exact (Slice.over_rows (.of g₁ (g.windowed.gains gains made.sturdy)) le_rfl (g₁.body ▸ harr)
      (by omega)).mono
      fun _ _ k => k.1
  · exact .throw

end Composite

/-! ## Users -/

/-- What gives a slice, or something with slices and arrays in it. -/
inductive SliceSource where
  | make (structs elem : Address) (size cap : Int)
  | zero (structs type : Address)
  | literal (type : Address) (values : List Address)
  | ofArray (array : Address) (low high : Int)
  | reslice (s : Address) (low high : Int)
  | append (structs s : Address) (values : List Address)

namespace SliceSource

/-- How it is obtained, in a turn of a thread. -/
def run : SliceSource → TurnM Address
  | make structs elem size cap => Slice.make structs elem size cap
  | zero structs type => zeroValue structs type
  | literal type values => Machine.composite type values
  | ofArray array low high => Slice.ofArray array low high
  | reslice s low high => Slice.reslice s low high
  | append structs s values => Slice.append structs s values

/-- What is appended and the table of structs are there, and the slice is one that the user owns. -/
def Allowed (k : Client) : SliceSource → Prop
  | append structs s values =>
    (s = .nil ∨ s ∈ k.owned) ∧ Old k.heap structs ∧ ∀ v ∈ values, Old k.heap v
  | _ => True

theorem rows {src : SliceSource} {k : Client} {P : Multiset Address} {n : Nat} {s : Turn}
    (same : s.heap = k.heap)
    (g : Rows P (n + 1) k.owned k.heap) (allowed : src.Allowed k) :
    Yields src.run s fun v s' => Rows P (n + 1) (v ::ₘ k.owned) s'.heap := by
  rw [← same] at g
  cases src with
  | make => exact (Slice.make_rows g).turn
  | zero => exact (Grows.rows (fun _ => zeroValue_sturdy) g).turn
  | literal => exact Machine.composite_rows g
  | ofArray => exact (Slice.ofArray_rows g).turn
  | reslice => exact (Slice.reslice_rows g).turn
  | append structs a values =>
    obtain ⟨mine, hs, old⟩ := allowed
    exact ((Slice.append_rows g mine (same ▸ hs) (same ▸ old)).mono fun _ _ k => k.1).turn

end SliceSource

/-- A client of the heap that uses slices. -/
structure Slicer where
  client : Client
  /-- There is room for a reference that is taken in between. -/
  room : ∀ a, a ≠ .nil → client.owned.count a + 1 ≤ Heap.limit

namespace Slicer

variable {k k' : Slicer}

abbrev heap (k : Slicer) : Heap := k.client.heap

/-- What a user does. -/
inductive Step (k k' : Slicer) : Prop
  /-- It gets a slice, or something else that may have slices in it. -/
  | got {src : SliceSource} {t t' : Turn} {v : Address} : src.Allowed k.client →
      src.run t = .ok v t' →
      t.heap = k.heap → t'.heap = k'.heap → k'.client.owned = v ::ₘ k.client.owned →
      k'.client.pins = k.client.pins → Step k k'
  /-- It uses the heap for something else. -/
  | other {op : Op} {r : Except HeapError Heap.Reply} : Client.Step k.client op r k'.client →
      op.Entitled k.client.owned → op.Apart → Step k k'

/-- A user that starts in any heap with exact counts that has no arrays and slices yet. -/
inductive Reached : Slicer → Prop
  | start {k : Slicer} : Exact k.client.pins k.client.owned k.heap →
      (∀ a D, k.heap.body? a = some D → D.tag.isRow = false) → Reached k
  | step {k k' : Slicer} : Reached k → Step k k' → Reached k'

theorem owns {k : Slicer} (x : Exact k.client.pins k.client.owned k.heap) :
    Owns k.client.pins (0 + 1) k.client.owned k.heap :=
  ⟨x, by decide, k.room⟩

end Slicer

/-- An operation of a client on anything else leaves arrays and slices alone, be it that it fails.
-/
theorem Heap.Client.Step.spares {k k' : Client} {op : Op} {r : Except HeapError Reply}
    (did : Client.Step k op r k')
    (entitled : op.Entitled k.owned) (x : Exact k.pins k.owned k.heap) (apart : op.Apart) :
    Facts.Spares k.heap.body? k'.heap.body? := by
  have outcome := (Client.owns x).outcome entitled
  cases did with
  | done run => exact (outcome.done _ _ run).1.spares apart
  | failed run =>
    have same : k'.heap.body? = k.heap.body? := by
      change Records.facts k'.heap.cell? = Records.facts k.heap.cell?
      rw [(outcome.failed _ _ run).1]
      cases op <;> first | rfl | exact Records.facts_gain
    exact .of_sub (same ▸ .refl)

namespace Slicer

variable {k k' : Slicer}

/-- Each step keeps windows inside of their arrays. -/
theorem Step.rows (did : Step k k') (g : Rows k.client.pins (0 + 1) k.client.owned k.heap) :
    Rows k'.client.pins (0 + 1) k'.client.owned k'.heap := by
  cases did with
  | got allowed run here there owned pins =>
    have g' : Rows _ _ _ _ := SliceSource.rows here g allowed _ _ run
    rwa [there, ← owned, ← pins] at g'
  | other did entitled apart =>
    have own := owns (did.exact entitled g.owns.exact)
    exact ⟨own, g.windowed.spares
      (did.spares entitled g.owns.exact apart) own.exact.closed_body g.sound.body?_nil⟩

theorem Reached.rows (reached : Reached k) : Rows k.client.pins (0 + 1) k.client.owned k.heap := by
  induction reached with
  | start x rowless =>
    refine ⟨owns x, fun ha array => ?_, fun hs slice => ?_⟩
    · cases (rowless _ _ ha).symm.trans (congrArg Tag.isRow array)
    · cases (rowless _ _ hs).symm.trans (congrArg Tag.isRow slice)
  | step _ did ih => exact did.rows ih

/-! ## Windows and what is appended -/

/-- Windows lie inside of arrays, and values are appended behind what a slice shows. -/
structure Regular (k : Slicer) : Prop where
  windows : ∀ s, Slice.check s k.heap = .ok () → ∃ w, Slice.window s k.heap = .ok w ∧
  w.size ≤ w.cap ∧
    (w.array = .nil ∧ w.offset + w.cap = 0 ∨
      ∃ len, ArrayValue.size w.array k.heap = .ok len ∧ w.offset + w.cap ≤ len)
  appends : ∀ structs s values t h', (s = .nil ∨ s ∈ k.client.owned) → Old k.heap structs →
    (∀ v ∈ values, Old k.heap v) → Slice.append structs s values k.heap = .ok t h' →
    Slice.Appends k.heap h' s t values

/-- However a user has got its slices, they are regular. -/
theorem regular (reached : Reached k) : k.Regular := by
  have g := reached.rows
  refine ⟨fun s checked => ?_, fun structs s values t h' mine hs old run => ?_⟩
  · obtain ⟨w, elem, vars, lies⟩ := g.overlooks checked
    refine ⟨w, lies.window g.sound, lies.le, ?_⟩
    rcases lies.row with ⟨absent, rfl⟩ | row
    · exact .inl ⟨absent, Nat.le_zero.1 lies.inside⟩
    · exact .inr ⟨vars.length, ArrayValue.size_there g.sound row, lies.inside⟩
  · exact (Slice.append_rows g mine hs old t h' run).2

theorem roomy {O : Multiset Address} (small : O.card ≤ 3) (a : Address) (_ : a ≠ .nil) :
    O.count a + 1 ≤ Heap.limit := by
  have := (Multiset.count_le_card a O).trans small
  simp only [Heap.limit]
  omega

/-- The calls of a user that makes a slice with room for one more value, and appends it. -/
def appendedRun : Bool :=
  match Heap.new 64 with
  | .error _ => false
  | .ok h₀ => match (Op.allocate .typeInt32 0 0).run h₀ with
    | .ok (.address a) h₁ => match Slice.make .nil a 1 2 h₁ with
      | .error _ _ => false
      | .ok s h₂ => match Slice.append .nil s [a] h₂ with
        | .error _ _ => false
        | .ok t h => match Slice.backing s h with
          | .error _ => false
          | .ok arr => h₂.isLive a ∧ arr ≠ .nil ∧ Slice.window s h = .ok ⟨1, 2, 0, arr⟩ ∧
            Slice.window t h = .ok ⟨2, 2, 0, arr⟩
    | _ => false

/-- A user that has made a slice with one element and room for another one, and has appended a value
to it: both slices are windows on one array. -/
theorem regular_appended : ∃ k : Slicer, Reached k ∧ (∃ s t arr, arr ≠ .nil ∧
    Slice.window s k.heap = .ok ⟨1, 2, 0, arr⟩ ∧ Slice.window t k.heap = .ok ⟨2, 2, 0, arr⟩) ∧
    k.Regular := by
  have ran : appendedRun = true := by decide +kernel
  unfold appendedRun at ran
  split at ran
  · cases ran
  next h₀ made =>
  split at ran
  case h_2 => cases ran
  next a h₁ ran₁ =>
  split at ran
  · cases ran
  next s h₂ ran₂ =>
  split at ran
  · cases ran
  next t h ran₃ =>
  split at ran
  · cases ran
  next arr backed =>
  obtain ⟨live, there, shows, shows'⟩ := of_decide_eq_true ran
  have empty : ∀ a D, h₀.body? a = some D → D.tag.isRow = false := by
    obtain ⟨p, -, e⟩ := except_bind_ok.1 made
    obtain rfl := except_pure_ok.1 e
    intro a D ha
    simp [Heap.body?, Heap.cell?, Heap.isLive] at ha
  let k₀ : Slicer := ⟨⟨h₀, 0, 0, Client.count_le_limit (by simp)⟩, roomy (by simp)⟩
  let k₁ : Slicer := ⟨⟨h₁, {a}, 0, Client.count_le_limit (by simp)⟩, roomy (by simp)⟩
  let k₂ : Slicer := ⟨⟨h₂, {s, a}, 0, Client.count_le_limit (by simp)⟩, roomy (by simp)⟩
  have few : ∀ b, b ≠ .nil → Multiset.count b {t, s, a} ≤ Heap.limit := fun b hb =>
    (Nat.le_succ _).trans (roomy (by simp) b hb)
  let k : Slicer := ⟨⟨h, {t, s, a}, 0, few⟩, roomy (by simp)⟩
  let turn (h : Heap) : Turn := ⟨h, ⟨0⟩, #[], .nil, .nil⟩
  have reached : Reached k₀ := .start (.new made) empty
  have reached : Reached k₁ := reached.step (.other (.done ran₁ rfl rfl) trivial rfl)
  have makes : (SliceSource.make .nil a 1 2).run (turn h₁) = .ok s (turn h₂) := by
    simp [SliceSource.run, liftM, monadLift, MonadLift.monadLift, turn, ran₂]
  have appends : (SliceSource.append .nil s [a]).run (turn h₂) = .ok t (turn h) := by
    simp [SliceSource.run, liftM, monadLift, MonadLift.monadLift, turn, ran₃]
  have free : (SliceSource.make .nil a 1 2).Allowed k₁.client := trivial
  have reached : Reached k₂ := reached.step (.got free makes rfl rfl rfl rfl)
  have allowed : (SliceSource.append .nil s [a]).Allowed k₂.client :=
    ⟨.inr (by simp [k₂]), .inl rfl, by simpa [Old, k₂] using .inr live⟩
  have reached : Reached k := reached.step (.got allowed appends rfl rfl rfl rfl)
  exact ⟨k, reached, ⟨s, t, arr, there, shows, shows'⟩, regular reached⟩

end Slicer
end GoMachine
