import GoMachine.Machine
import GoMachine.Proofs.Atomic.Restores
import GoMachine.Proofs.Loading.Programs
/-!
# A main thread beside other things

The scheduler gives a new thread its number, and counts on. The thread and its stacks are new
records. When it is put on the run queue it has to get a link there, and once there is one nothing
can go wrong any more but against the rules of the heap.

* `Machine.start_bears`: if a main thread cannot be started, the ground is as it was but for the
  next number.
-/
namespace GoMachine

open Ground (Bears Left)
open Heap (Owns Exact Reports Within)

variable {P D O : Multiset Address} [Within D O] {F : Facts} {G G' : Ground} {n : Nat} {h h' : Heap}
  {a s t frame structs stack value next node : Address} {id : UInt64}

/-- One number more in the field of a scheduler, or none, and nothing else has changed. -/
structure Ground.Numbers (s : Address) (G G' : Ground) : Prop where
  refs : G'.refs = G.refs
  rest : (G.facts.without s).Sub G'.facts
  number : ∀ B, G.facts s = some B → G'.facts s = some B ∨ B.tag = .scheduler ∧
  ∃ w, B.fields[0]? = some w ∧
    G'.facts s = some { B with fields := B.fields.set 0 (w + 1) }

namespace Ground

theorem Numbers.refl : G.Numbers s G := ⟨rfl, Facts.without_sub, fun _ hB => .inl hB⟩

/-- A field of a record of the ground changes. -/
theorem Bears.writes {D : Body} {w : UInt64} {i : Nat} (b : G.Bears P n O h)
    (own : Owns P n (O + G.refs) h')
    (known : G.facts a ≠ none) (hD : h.body? a = some D)
    (body : h'.body? = Function.update h.body? a (some { D with fields := D.fields.set i w })) :
    ∃ G' : Ground, G'.refs = G.refs ∧ (G.facts.without a).Sub G'.facts ∧
      G'.facts a = some { D with fields := D.fields.set i w } ∧ G'.Bears P n O h' := by
  obtain ⟨B, hB⟩ := Option.ne_none_iff_exists'.1 known
  obtain rfl : D = B := Option.some_inj.1 (hD.symm.trans (b.body hB))
  have held := G.held.update (M := G.refs) (C := { D with fields := D.fields.set i w }) hB
    (fun _ hb => .inl hb)
    fun _ hb other => absurd hb other
  refine ⟨⟨_, G.refs, held⟩, rfl, fun c C hC => ?_, Function.update_self .., own, ?_⟩
  · obtain ⟨other, hC⟩ := Facts.without_some.1 hC
    exact Heap.known_update hC other
  · rw [body]
    exact b.body.update
end Ground

/-- The scheduler counts on. -/
theorem Scheduler.nextId_bears (b : G.Bears P n O h) (known : G.facts s ≠ none) :
    Crafts (G.Left P) D (nextId s) h fun _ h' => ∃ G', G.Numbers s G' ∧ G'.Bears P n O h' := by
  refine .read b.left fun id asked => ?_
  have tried : Crafts (G.Left P) D (HeapM.setField s .scheduler 0 (id + 1)) h fun _ _ => True :=
    Crafts.ask b.left fun _ _ => (Gives.modify (Q := fun _ _ => True) trivial).ends
  have wrote := tried.instead ((Reports.of b.owns).writes (a := s) (t := .scheduler) (i := 0)
    (w := id + 1))
  refine wrote.heap.bind fun _ h₁ ⟨B, hB, tagged, g⟩ => .pure ?_
  obtain ⟨G', refs, rest, here, b'⟩ := b.writes g.owns known hB g.body
  refine ⟨G', ⟨refs, rest, fun C hC => .inr ?_⟩, b'⟩
  obtain rfl := Option.some_inj.1 (hB.symm.trans (b.body hC))
  exact ⟨tagged, id, ((Reports.of b.owns).field hB asked), here⟩

/-! ## New threads -/

theorem Env.create_bears (b : G.Bears P (n + 1) O h) :
    Crafts (G.Left P) D (create frame structs) h fun e h' => G.Bears P (n + 1) (e ::ₘ O) h' :=
  b.allocate.heap.bind fun _ _ ⟨new, b⟩ => (b.setChild new).heap.bind fun _ _ b =>
  (b.setChild new).heap.bind
    fun _ _ b => .pure b

/-- A slot of a new record is filled with another one. -/
theorem Yields.stocks {α : Type} {x : Action Address} {y : PUnit → Action α} {i : Nat}
    {R : α → Heap → Prop} {tag : Tag}
    {fs : List UInt64} {cs : List Address} {made : Address → Body} (here : F a = some ⟨tag, fs, cs⟩)
    (empty : cs[i]? = some .nil) (hx : Yields x h fun b h' => F b = none ∧
      Reports P (n + 1) (b ::ₘ O) (Function.update F b (some (made b))) h')
    (hy : ∀ b F' h', F b = none → F' b = some (made b) → F' a = some ⟨tag, fs, cs.set i b⟩ →
    Reports P (n + 1) O F' h' →
      (∀ c, c ≠ a → c ≠ b → F' c = F c) → Yields (y ⟨⟩) h' R) :
    Yields (x >>= fun b => liftM (HeapM.setChildOwned a tag i b) >>= y) h R := by
  refine hx.bind fun b h₁ ⟨new, g₁⟩ => ?_
  have ne : a ≠ b := by
    rintro rfl
    cases new.symm.trans here
  refine (g₁.setChildOwned (Heap.known_update here ne) fun d hd => .inl ?_).heap.bind fun _ h₂ g₂ =>
    ?_
  · exact Option.some_inj.1 (hd.symm.trans empty)
  refine hy b _ h₂ new ?_ (Function.update_self ..) g₂ fun c hca hcb => ?_
  · rw [Function.update_of_ne ne.symm, Function.update_self]
  · rw [Function.update_of_ne hca, Function.update_of_ne hcb]

theorem Env.create_reports (g : Reports P (n + 1) O F h) :
    Yields (create frame structs) h fun e h' => F e = none ∧
      Reports P (n + 1) (e ::ₘ O) (Function.update F e (some ⟨.env, [], [frame, structs]⟩)) h' := by
  refine g.allocate.heap.bind fun e h₁ ⟨new, g⟩ => ?_
  refine (g.setChild (Function.update_self ..) fun d hd => .inl ?_).heap.bind fun _ h₂ g => ?_
  · simpa using hd.symm
  refine (g.setChild (Function.update_self ..) fun d hd => .inl ?_).heap.bind fun _ h₃ g => ?_
  · simpa using hd.symm
  rw [Function.update_idem, Function.update_idem] at g
  exact .pure ⟨new, g⟩

/-- The control stack of a new thread is new. -/
theorem Thread.create_reports (g : Reports P (n + 1) O F h) :
    Yields (create id frame structs) h fun t h' => ∃ c B, F c = none ∧ h'.body? t = some B ∧
    B.children[0]? = some c := by
  refine g.allocate.heap.bind fun t h₁ ⟨fresh, g⟩ => ?_
  refine (Yields.orRelease (Q := fun _ h' => ∃ c B, F c = none ∧ h'.body? t = some B ∧
    B.children[0]? = some c) ?_).bind
    fun _ _ made => .pure made
  refine (g.setField (Function.update_self ..)).heap.bind fun _ h₂ g => ?_
  rw [Function.update_idem] at g
  refine Yields.stocks (Function.update_self ..) rfl g.allocate.heap fun c F₁ h₃ new _ here g _ =>
    ?_
  refine Yields.stocks here rfl g.allocate.heap fun st F₂ h₄ _ _ here g _ => ?_
  refine (Env.create_reports g).bind fun e h₅ ⟨unknown, g⟩ => ?_
  have ne : t ≠ e := by
    rintro rfl
    cases unknown.symm.trans here
  refine (g.setChildOwned (Heap.known_update here ne) fun d hd => .inl ?_).heap.mono fun _ h₆ g =>
    ⟨c, _, ?_, g.body ▸ Function.update_self .., by simp⟩
  · simpa using hd.symm
  · rw [Function.update_apply] at new
    split at new
    · cases new
    · exact new

theorem Thread.create_bears (b : G.Bears P (n + 1) O h) :
    Crafts (G.Left P) D (create id frame structs) h fun t h' =>
    G.Bears P (n + 1) (t ::ₘ O) h' ∧ ∃ c B, G.facts c = none ∧ h'.body? t = some B ∧
    B.children[0]? = some c := by
  have made : Crafts (G.Left P) D (create id frame structs) h fun t h' =>
    G.Bears P (n + 1) (t ::ₘ O) h' := by
    refine b.allocate.heap.bind fun t h₁ ⟨new, b⟩ => ?_
    refine (Crafts.released (Q := fun _ h' => G.Bears P (n + 1) (t ::ₘ O) h') ?_).bind fun _ _ b =>
      .pure b
    refine (b.setField new).heap.bind fun _ h₂ b => ?_
    refine b.allocate.heap.bind fun c h₃ ⟨_, b⟩ => ?_
    refine (b.setChildOwned new).heap.bind fun _ h₄ b => ?_
    refine b.allocate.heap.bind fun st h₅ ⟨_, b⟩ => ?_
    refine (b.setChildOwned new).heap.bind fun _ h₆ b => ?_
    exact (Env.create_bears b).bind fun e h₇ b => (b.setChildOwned new).heap
  refine made.instead (made.yields.and
    ((create_reports (.of b.owns)).mono fun t h' ⟨c, B, unknown, here, slot⟩ =>
    ⟨c, B, ?_, here, slot⟩))
  cases known : G.facts c with
  | none => rfl
  | some B => cases unknown.symm.trans (b.body known)

/-! ## Links -/

/-- A reference moves into a new link of a chain. -/
theorem Chain.createOwned_bears (b : G.Bears P (n + 1) (value ::ₘ O) h) :
    Crafts (G.Left P) D (createOwned value next) h fun l h' => G.Bears P (n + 1) (l ::ₘ O) h' := by
  refine (Crafts.released b.allocate.heap).bind fun l h₁ ⟨new, b⟩ => ?_
  exact (b.swap.setChildOwned new).heap.bind fun _ h₂ b => (b.setChild new).heap.bind fun _ h₃ b =>
    .pure b

/-- A reference moves onto a new stack. -/
theorem Stack.pushOwned_bears (b : G.Bears P (n + 1) (value ::ₘ O) h) (new : G.facts stack = none) :
    Crafts (G.Left P) D (pushOwned stack value) h fun _ h' => G.Bears P (n + 1) O h' := by
  refine .read b.left fun tag _ => .read b.left fun top _ =>
    (Chain.createOwned_bears b).bind fun l h₁ b => ?_
  exact (b.setChildOwned new).heap.bind fun _ h₂ b => .read b.left fun size _ =>
    (b.setField new).heap

/-- A computation ends as `Q` says, or fails and leaves `E`, if it does not fail against the rules.
-/
def Tries {α : Type} (E : Heap → Prop) (x : Action α) (h : Heap) (Q : α → Heap → Prop) : Prop :=
  Ends (fun e h' => e.isProtocol = false → E h') x h Q

section

variable {α : Type} {E : Heap → Prop} {x : Action α} {Q : α → Heap → Prop}

theorem Crafts.tries {E' : Multiset Address → Heap → Prop} (hx : Crafts E' D x h Q)
    (left : ∀ h', E' D h' → E h') :
    Tries E x h Q :=
  hx.weaken fun _ h' failed _ => left h' failed

/-- A question in front of other things. -/
theorem Tries.read {β : Type} {q : Query α} {f : α → Action β} {R : β → Heap → Prop} (left : E h)
    (hf : ∀ a, q h = .ok a → Tries E (f a) h R) : Tries E (liftM q >>= f) h R := by
  cases asked : q h with
  | ok a => exact Ends.read asked (hf a asked)
  | error e =>
    refine .inr ⟨e, h, bind_error ?_, fun _ => left⟩
    simp only [liftM, monadLift, MonadLift.monadLift, asked]

/-- Who fails only against the rules may leave anything then. -/
theorem Lawful.tries (law : Lawful x) : Tries E x h fun _ _ => True := by
  cases run : x h with
  | ok a h' => exact .inl ⟨a, h', run, trivial⟩
  | error e h' => exact .inr ⟨e, h', run, fun other => nomatch (law h e h' run).symm.trans other⟩

end

/-- A link comes to a queue, or the ground is as it was. -/
theorem Queue.enqueue_tries {queue : Address} (b : G.Bears P (n + 2) O h) :
    Tries (G.Left P D) (enqueue queue value) h fun _ _ => True := by
  have referred : Crafts (G.Left P) D (HeapM.reference value) h fun _ h' =>
    G.Bears P (n + 1) (value ::ₘ O) h' :=
    b.reference.mono fun _ _ ⟨_, b⟩ => b
  refine Ends.bind (referred.heap.tries fun _ left => left) fun _ h₁ b => ?_
  have made : Crafts (G.Left P) D (Chain.createOwned value .nil) h₁ _ := Chain.createOwned_bears b
  refine Ends.bind (made.tries fun _ left => left) fun l h₂ _ =>
    Lawful.tries (.bind .child fun back => ?_)
  extract_lets rest
  have rest_lawful : Lawful (rest ⟨⟩) := .bind .setChildOwned fun _ => .bind .field fun _ =>
    .setField
  split
  · exact .bind .setChild fun _ => rest_lawful
  · exact .bind .setChild fun _ => rest_lawful

theorem Scheduler.enqueue_tries (b : G.Bears P (n + 2) O h) :
    Tries (G.Left P D) (enqueue s t) h fun _ _ => True :=
  Tries.read b.left fun _ _ => Queue.enqueue_tries b

/-! ## The main thread -/

/-- If a main thread cannot be started, the ground is as it was but for the next number. -/
theorem Machine.start_tries {scheduler globals : Address} (b : G.Bears P (n + 2) (node ::ₘ O) h)
    (known : G.facts scheduler ≠ none) :
    Tries (fun h' => ∃ G', G.Numbers scheduler G' ∧ G'.Left P D h')
    (start scheduler globals node) h fun _ _ => True := by
  have counted : Crafts (G.Left P) D (Scheduler.nextId scheduler) h _ :=
    Scheduler.nextId_bears b known
  refine Ends.bind (counted.tries fun _ left => ⟨G, .refl, left⟩) fun id h₁ ⟨G', numbers, b⟩ => ?_
  have made : Crafts (G'.Left P) D (Thread.create id globals globals) h₁ _ := Thread.create_bears b
  refine Ends.bind (made.tries fun _ left => ⟨G', numbers, left⟩)
    fun t h₂ ⟨b, c, B, new, here, slot⟩ => ?_
  have left {h' : Heap} (left : G'.Left P D h') : ∃ G', G.Numbers scheduler G' ∧ G'.Left P D h' :=
    ⟨G', numbers, left⟩
  refine Tries.read (left b.left) fun control asked => ?_
  obtain rfl := Option.some_inj.1 (((Reports.of b.owns).child here asked).symm.trans slot)
  have pushed : Crafts (G'.Left P) D (Stack.pushOwned control node) h₂ _ :=
    Stack.pushOwned_bears b.swap new
  refine Ends.bind (pushed.tries fun _ => left) fun _ h₃ b => ?_
  have linked : Tries (G'.Left P D) (Scheduler.enqueue scheduler t) h₃ _ :=
    Scheduler.enqueue_tries b
  exact Ends.bind (linked.weaken fun _ _ failed other => left (failed other)) fun _ h₄ _ =>
    .pure trivial

end GoMachine
