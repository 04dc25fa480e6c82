import GoMachine.Proofs.Heap.Copy
/-!
# Clients of the heap

A client starts with an empty heap and asks for one operation after another. It gives up and moves
only what it owns, keeps count of its pins, and names all that it owns as roots when it sweeps.
Operations may fail; the client goes on with the next one.

* `Owns.outcome`: how any operation of such a client ends.
* `Client.refines`: the words of the pool stand for a finite map of records, and the operations do
  to that map what `Does` says.
* `Client.balanced`: the counts are exact, and without cycles the records are those that the client
  can reach.
-/
namespace GoMachine
namespace Heap

variable {P O : Multiset Address} {h h' : Heap} {a b : Address} {op : Op}

/-- A sweep from roots that cover what is owned goes well. -/
theorem Owns.sweep (own : Owns P 0 O h) {roots : List Address}
    (cover : ∀ a ∈ O, a ≠ .nil → a ∈ roots) : Gives (HeapM.markAndSweep roots) h fun n h' =>
      Does h.cell? (.sweep roots) (.number n) h'.cell? ∧ Exact P O h' := by
  have real : ∀ a, a ≠ .nil → (O.filter (· ≠ .nil)).count a = O.count a := fun a ha =>
    Multiset.count_filter_of_pos ha
  have cover : ∀ a ∈ O.filter (· ≠ .nil), a ∈ roots := fun a ha =>
    cover a (Multiset.mem_filter.1 ha).1 (Multiset.mem_filter.1 ha).2
  obtain ⟨h', run, x, -, h₁, s₁, cells, drained⟩ := (own.exact.congr real).markAndSweep cover
  have unreached : ∀ a : Address, a.index ∈ h.unreached h.live (h.pinned ++ roots) ↔
      (h.cell? a).isSome ∧ ¬Records.Kept h.cell? roots a := by
    intro a
    rw [mem_unreached, isSome_cell?]
    simp only [List.mem_append, mem_pinned, or_comm]
    rfl
  generalize h.unreached h.live (h.pinned ++ roots) = garbage at *
  let gone := garbage.toList.map Address.mk
  have mem : ∀ a : Address, a ∈ gone ↔ a.index ∈ garbage := by
    rintro ⟨i⟩
    simp [gone]
  have loose : h.outgoing garbage =
      gone.flatMap fun a => ((h.cell? a).elim [] Cell.children).filter (· ∉ gone) := by
    rw [outgoing, List.flatMap_map]
    refine List.flatMap_congr fun i hi => ?_
    obtain ⟨hs, -⟩ := (unreached ⟨i⟩).1 (Std.TreeSet.mem_toList.1 hi)
    rw [isSome_cell?] at hs
    rw [cell?_eq_some.2 ⟨hs, rfl⟩]
    refine List.filter_congr fun b _ => ?_
    simp [mem, ← Std.TreeSet.contains_iff_mem]
  have drops := s₁.drain_drops drained
  rw [show h₁.cell? = fun a => if a ∈ gone then none else h.cell? a by
    funext a
    simp only [cells, mem]] at drops
  refine ⟨_, h', run, ?_, x.congr fun a ha => (real a ha).symm⟩
  have size : garbage.size = gone.length := by rw [List.length_map, Std.TreeSet.length_toList]
  rw [size]
  exact .sweep ((nodup_toList garbage).map fun i j e => congrArg Address.index e)
    (fun a => by rw [mem, unreached]) ((List.reverse_perm _).trans (.of_eq loose)) drops

/-- How an operation of a client ends that gives up only what it owns. -/
theorem Owns.outcome (own : Owns P 0 O h) (entitled : op.Entitled O) : Outcome P O op h := by
  cases op with
  | read => exact own.read_outcome
  | allocate => exact own.allocate_outcome
  | setField => exact own.setField_outcome
  | setChild => exact own.setChild_outcome
  | setChildOwned => exact own.setChildOwned_outcome entitled
  | takeChild => exact own.takeChild_outcome
  | reference => exact own.reference_outcome
  | free => exact own.free_outcome entitled
  | copy => exact own.copy_outcome
  | pin => exact own.pin_outcome
  | unpin => exact own.unpin_outcome
  | sweep => exact .of_gives ((own.sweep entitled).bind fun _ _ done => .pure done)

/-- A client and its heap. -/
structure Client where
  heap : Heap
  /-- The references that the client owns. -/
  owned : Multiset Address
  /-- The records that it has pinned. -/
  pins : Multiset Address
  /-- An address takes four bytes: no memory holds more references to a record. -/
  few : ∀ a, a ≠ .nil → owned.count a ≤ limit

namespace Client

variable {k k' : Client} {r : Except HeapError Reply}

/-- An operation takes a client to its next state, and comes back with a reply or an error. -/
inductive Step (k : Client) (op : Op) : Except HeapError Reply → Client → Prop
  | done {r : Reply} {k' : Client} : op.run k.heap = .ok r k'.heap →
      k'.owned = op.owned k.owned r → k'.pins = op.pinned k.pins → Step k op (.ok r) k'
  | failed {e : HeapError} {k' : Client} : op.run k.heap = .error e k'.heap →
      k'.owned = op.stuck k.heap k.owned → k'.pins = k.pins → Step k op (.error e) k'

/-- A client that starts with an empty heap and gives up only what it owns. -/
inductive Reached : Client → Prop
  | new {words : Nat} {k : Client} : Heap.new words = .ok k.heap → k.owned = 0 → k.pins = 0 →
      Reached k
  | step {k k' : Client} {op : Op} {r : Except HeapError Reply} : Reached k → Step k op r k' →
      op.Entitled k.owned → Reached k'

theorem owns (x : Exact k.pins k.owned k.heap) : Owns k.pins 0 k.owned k.heap :=
  ⟨x, by decide, fun a ha => k.few a ha⟩

/-- One operation keeps the counts exact. -/
theorem Step.exact (step : Step k op r k') (entitled : op.Entitled k.owned)
    (x : Exact k.pins k.owned k.heap) : Exact k'.pins k'.owned k'.heap := by
  have outcome := (owns x).outcome entitled
  cases step with
  | done run owned pins => exact owned ▸ pins ▸ (outcome.done _ _ run).2
  | failed run owned pins => exact owned ▸ pins ▸ (outcome.failed _ _ run).2.1

theorem Reached.exact (reached : Reached k) : Exact k.pins k.owned k.heap := by
  induction reached with
  | new made owned pins => exact owned ▸ pins ▸ .new made
  | step _ step entitled ih => exact step.exact entitled ih

/-- Few references are few references to each record. -/
theorem count_le_limit {O : Multiset Address} (small : O.card ≤ 2) (a : Address) (_ : a ≠ .nil) :
    O.count a ≤ limit := (Multiset.count_le_card a O).trans (small.trans (by decide))

/-- The calls of a client that stores a number in a list. -/
def linkedRun : Bool :=
  match Heap.new 64 with
  | .error _ => false
  | .ok h₀ => match (Op.allocate .int32 1 0).run h₀ with
    | .ok (.address a) h₁ => match (Op.allocate .linkedList 0 2).run h₁ with
      | .ok (.address b) h₂ => match (Op.setChild b .linkedList 0 a).run h₂ with
        | .ok .done h => a ≠ .nil ∧ h.children b = .ok [a, .nil]
        | _ => false
      | _ => false
    | _ => false

/-- A client that has stored a number in a list. -/
theorem linked_client : ∃ k : Client, ∃ a b, Reached k ∧ k.owned = {b, a} ∧ a ≠ .nil ∧
    k.heap.children b = .ok [a, .nil] := by
  have ran : linkedRun = true := by decide +kernel
  unfold linkedRun at ran
  split at ran
  · cases ran
  next h₀ made =>
  split at ran
  case h_2 => cases ran
  next a h₁ ran₁ =>
  split at ran
  case h_2 => cases ran
  next b h₂ ran₂ =>
  split at ran
  case h_2 => cases ran
  next h ran₃ =>
  obtain ⟨there, linked⟩ := of_decide_eq_true ran
  let k₀ : Client := ⟨h₀, 0, 0, count_le_limit (by decide)⟩
  let k₁ : Client := ⟨h₁, {a}, 0, count_le_limit (by simp)⟩
  let k₂ : Client := ⟨h₂, {b, a}, 0, count_le_limit (by simp)⟩
  let k : Client := ⟨h, {b, a}, 0, count_le_limit (by simp)⟩
  have reached : Reached k₀ := .new made rfl rfl
  have reached : Reached k₁ := .step reached (.done ran₁ rfl rfl) trivial
  have reached : Reached k₂ := .step reached (.done ran₂ rfl rfl) trivial
  have reached : Reached k := .step reached (.done ran₃ rfl rfl) trivial
  exact ⟨k, a, b, reached, rfl, there, linked⟩

/-! ## The heap as a store -/

/-- The heap stands for a finite map of records, and operations are carried out on that map. -/
structure Refines (k : Client) : Prop where
  finite : {a | (k.heap.cell? a).isSome}.Finite
  nil : k.heap.cell? .nil = none
  done : ∀ op, op.Entitled k.owned → ∀ r h', op.run k.heap = .ok r h' →
    Does k.heap.cell? op r h'.cell? ∧
    ∀ b, op.subject r ≠ some b → Records.SameAt k.heap.cell? h'.cell? b
  /-- What cannot be done is refused, and nothing else but for want of memory. -/
  failed : ∀ op, op.Entitled k.owned → ∀ e h', op.run k.heap = .error e h' →
    h'.cell? = op.leftover k.heap.cell? ∧
    ((∃ words free, e = .outOfMemory words free ∧ op.Allocates) ∨ ∀ r m, ¬Does k.heap.cell? op r m)
  free : ∀ a ∈ k.owned, ∃ h', HeapM.free a k.heap = .ok () h'
  sweep : ∀ roots, (∀ a ∈ k.owned, a ≠ .nil → a ∈ roots) →
    ∃ n h', HeapM.markAndSweep roots k.heap = .ok n h'

theorem refines (reached : Reached k) : k.Refines := by
  have own := owns reached.exact
  refine ⟨?_, cell?_eq_none.2 own.exact.sound.not_isLive_nil, fun op entitled r h' run => ?_,
    fun op entitled e h' run => ?_, fun a ha => ?_, fun roots cover => ?_⟩
  · refine k.heap.records.finite_toSet.subset fun a ha => ?_
    exact mem_records.2 (isSome_cell? ▸ ha)
  · have does := ((own.outcome entitled).done r h' run).1
    exact ⟨does, fun b other => does.others other⟩
  · obtain ⟨left, -, why⟩ := (own.outcome entitled).failed e h' run
    exact ⟨left, why⟩
  · obtain ⟨h', run, -⟩ := (own.exact.split (.inr ha)).free
    exact ⟨h', run⟩
  · obtain ⟨n, h', run, -⟩ := own.sweep cover
    exact ⟨n, h', run⟩

/-- A client that has stored a number in a list. -/
theorem refined_after_link : ∃ k : Client, Reached k ∧
    (∃ a b, a ≠ .nil ∧ k.heap.children b = .ok [a, .nil]) ∧ k.Refines := by
  obtain ⟨k, a, b, reached, -, there, linked⟩ := linked_client
  exact ⟨k, reached, ⟨a, b, there, linked⟩, refines reached⟩

/-- A setter that is refused, for want of such a slot, has changed the count of a record. -/
theorem refused_setter_writes : ∃ h₀ h₁ h₂ h₃ a b, Heap.new 64 = .ok h₀ ∧
    HeapM.allocate .int32 1 0 h₀ = .ok a h₁ ∧ HeapM.allocate .linkedList 0 2 h₁ = .ok b h₂ ∧
    HeapM.setChild b .linkedList 2 a h₂ = .error (.childOutOfRange b .linkedList 2 2) h₃ ∧
    h₂.refCount a = .ok 1 ∧ h₃.refCount a = .ok 2 := by
  have ran : (match Heap.new 64 with
    | .error _ => false
    | .ok h₀ => match HeapM.allocate .int32 1 0 h₀ with
      | .error _ _ => false
      | .ok a h₁ => match HeapM.allocate .linkedList 0 2 h₁ with
        | .error _ _ => false
        | .ok b h₂ => match HeapM.setChild b .linkedList 2 a h₂ with
          | .ok _ _ => false
          | .error e h₃ => e = .childOutOfRange b .linkedList 2 2 ∧ h₂.refCount a = .ok 1 ∧
              h₃.refCount a = .ok 2) = true := by decide +kernel
  split at ran
  · cases ran
  next h₀ made =>
  split at ran
  · cases ran
  next a h₁ ran₁ =>
  split at ran
  · cases ran
  next b h₂ ran₂ =>
  split at ran
  · cases ran
  next e h₃ ran₃ =>
  obtain ⟨rfl, before, after⟩ := of_decide_eq_true ran
  exact ⟨h₀, h₁, h₂, h₃, a, b, made, ran₁, ran₂, ran₃, before, after⟩

/-! ## Exact counts -/

/-- What exact counts come to. -/
structure Balanced (k : Client) : Prop where
  /-- Each count is the number of references owned and of child slots that hold the address. -/
  refCount : ∀ a, k.heap.isLive a → ∃ w, k.heap.refCount a = .ok w ∧
    w.toNat = k.owned.count a + k.heap.edges.count a
  slots : ∀ a c b, k.heap.cell? a = some c → b ∈ c.children → b = .nil ∨ k.heap.isLive b
  idle : ∀ a, k.heap.isLive a → k.heap.refCount a = .ok 0 → k.heap.isPinned a = .ok true
  acyclic : (∀ a, ¬Relation.TransGen k.heap.Points a a) → ∀ a, k.heap.isLive a ↔
    a ≠ .nil ∧ ∃ b ∈ k.owned + k.pins, k.heap.Leads b a

theorem balanced (reached : Reached k) : k.Balanced := by
  have x := reached.exact
  have slots : ∀ a c b, k.heap.cell? a = some c → b ∈ c.children → b = .nil ∨ k.heap.isLive b :=
    fun a c b hc hb => x.closed (by simp [mem_edges.2 ⟨a, c, hc, hb⟩])
  refine ⟨fun a hl => ?_, slots, fun a hl unheld => ?_, fun acyclic a => ⟨fun hl => ?_, ?_⟩⟩
  · have hc := cell?_eq_some.2 ⟨hl, rfl⟩
    exact ⟨_, x.sound.refCount_ok.2 (.inr ⟨_, hc, rfl⟩), by rw [x.count hc, Multiset.count_add]⟩
  · rcases x.sound.refCount_ok.1 unheld with ⟨rfl, -⟩ | ⟨c, hc, h0⟩
    · exact absurd rfl (x.sound.ne_nil hl)
    · exact x.sound.isPinned_ok.2 (.inr ⟨c, hc, by simpa using x.idle hc h0⟩)
  · refine ⟨x.sound.ne_nil hl, ?_⟩
    by_contra lost
    obtain ⟨b, cycle, -⟩ := x.behind_cycle hl fun b hb leads => lost ⟨b, hb, leads⟩
    exact acyclic b cycle
  · rintro ⟨hn, b, hb, leads⟩
    have here : a = .nil ∨ k.heap.isLive a := by
      induction leads with
      | refl => exact x.closed (by grind)
      | tail _ points =>
        obtain ⟨c, hc, ha⟩ := points
        exact slots _ c _ hc ha
    exact here.resolve_left hn

/-- A client that has stored a number in a list. -/
theorem balanced_after_link : ∃ k : Client, Reached k ∧
    (∃ a b, k.owned = {b, a} ∧ a ≠ .nil ∧ k.heap.children b = .ok [a, .nil]) ∧ k.Balanced := by
  obtain ⟨k, a, b, reached, owned, there, linked⟩ := linked_client
  exact ⟨k, reached, ⟨a, b, owned, there, linked⟩, balanced reached⟩

/-- After a setter that is refused, as the record has another tag, one more reference to a record is
counted than there is: the client owns one, and the slots are as empty as before. -/
theorem refused_setter_unbalances : ∃ h₀ h₁ h₂ h₃ a b, Heap.new 64 = .ok h₀ ∧
    HeapM.allocate .int32 1 0 h₀ = .ok a h₁ ∧ HeapM.allocate .linkedList 0 2 h₁ = .ok b h₂ ∧
    HeapM.setChild b .queue 0 a h₂ = .error (.wrongTag b .queue .linkedList) h₃ ∧
    h₃.refCount a = .ok 2 ∧ h₃.liveObjects = [a, b] ∧ h₃.children a = .ok [] ∧
    h₃.children b = .ok [.nil, .nil] := by
  have ran : (match Heap.new 64 with
    | .error _ => false
    | .ok h₀ => match HeapM.allocate .int32 1 0 h₀ with
      | .error _ _ => false
      | .ok a h₁ => match HeapM.allocate .linkedList 0 2 h₁ with
        | .error _ _ => false
        | .ok b h₂ => match HeapM.setChild b .queue 0 a h₂ with
          | .ok _ _ => false
          | .error e h₃ => e = .wrongTag b .queue .linkedList ∧ h₃.refCount a = .ok 2 ∧
              h₃.liveObjects = [a, b] ∧ h₃.children a = .ok [] ∧
              h₃.children b = .ok [.nil, .nil]) = true := by decide +kernel
  split at ran
  · cases ran
  next h₀ made =>
  split at ran
  · cases ran
  next a h₁ ran₁ =>
  split at ran
  · cases ran
  next b h₂ ran₂ =>
  split at ran
  · cases ran
  next e h₃ ran₃ =>
  obtain ⟨rfl, after⟩ := of_decide_eq_true ran
  exact ⟨h₀, h₁, h₂, h₃, a, b, made, ran₁, ran₂, ran₃, after⟩

end Client
end Heap
end GoMachine
