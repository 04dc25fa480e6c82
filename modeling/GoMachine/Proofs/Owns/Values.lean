import GoMachine.Proofs.Owns.Ledger
import GoMachine.Proofs.Queues
import GoMachine.Value.Chain
import GoMachine.Value.Cell
/-!
# Ownership of values

What each function on values does to the references that its caller owns: a function that makes a
record gives one reference to it, one whose name ends in `Owned` takes a reference over, one that
takes something out of a container gives the reference that was there, and all others neither give
nor take. So does each of them say in its docstring.
-/
namespace GoMachine

open Heap (Owns Capped Within)

variable {P F O : Multiset Address} [Within F O] {n : Nat} {h : Heap}
  {I : Nat → Multiset Address → Heap → Prop}

namespace Pays

variable [Account P I]

/-- The reference is dropped after the action. -/
theorem releasing {α : Type} {a : Address} {x : Action α} {K : α → Multiset Address}
    (hx : Pays P (a ::ₘ F) x h fun b h' => I n (a ::ₘ K b) h') :
    Pays P F (Action.releasing a x) h fun b h' => I n (K b) h' :=
  hx.afterwards fun _ _ own => Account.frees own

omit [Within F O] in
/-- References to the records of a list are dropped. -/
theorem freeAll {γ : Type} {l : List γ} {f : γ → Address}
    {body : γ → PUnit → Action (ForInStep PUnit)}
    (frees : ∀ c, body c ⟨⟩ = do HeapM.free (f c); Pure.pure (.yield ⟨⟩))
    (own : I n (Heap.laden (l.map f) O) h) :
    Pays P F (ForIn.forIn l PUnit.unit body) h fun _ h' => I n O h' := by
  refine forIn (I := fun rest h' => I n (Heap.laden (rest.map f) O) h') own ?_
  intro c rest h own
  rw [frees]
  have own : I n (f c ::ₘ Heap.laden (rest.map f) O) h := own
  exact (Account.free own).heap.bind fun _ _ own => .pure ⟨rfl, own⟩

end Pays

namespace Chain

theorem createOwned_owns [Queueing P I] {value next : Address} (own : I (n + 1) (value ::ₘ O) h) :
    Pays P F (createOwned value next) h fun node h' => I (n + 1) (node ::ₘ O) h' := by
  refine (Pays.orRelease (Queueing.allocate own).heap).bind fun node h₁ own => ?_
  refine (Queueing.setChildOwned rfl (Account.swap own)).heap.bind fun _ h₂ own => ?_
  exact (Queueing.setChild rfl own).heap.bind fun _ h₃ own => .pure own

end Chain

namespace Stack

theorem create_owns {tag : Tag} (own : Owns P n O h) :
    Pays P F (create tag) h fun stack h' => Owns P n (stack ::ₘ O) h' :=
  own.allocate.heap

theorem pushOwned_owns {stack value : Address} (own : Owns P (n + 1) (value ::ₘ O) h) :
    Pays P F (pushOwned stack value) h fun _ h' => Owns P (n + 1) O h' := by
  refine .read own fun tag _ => .read own fun top _ => ?_
  refine (Chain.createOwned_owns own).bind fun node h₁ own => ?_
  refine own.setChildOwned.heap.bind fun _ h₂ own => ?_
  exact .read own fun _ _ => own.setField.heap

theorem push_owns {stack value : Address} (own : Owns P (n + 2) O h) :
    Pays P F (push stack value) h fun _ h' => Owns P (n + 2) O h' := by
  refine own.reference.heap.bind fun _ h₁ ⟨_, owned⟩ => ?_
  exact (pushOwned_owns owned).mono fun _ h₂ owned => owned.tighten own.spare

theorem pop_owns {stack : Address} (own : Owns P (n + 3) O h) :
    Pays P F (pop stack) h fun value h' => Owns P (n + 2) (value ::ₘ O) h' := by
  refine .read own fun tag _ => own.takeChild.heap.bind fun top h₁ owned => ?_
  split
  · next e =>
    rw [Address.isNil_iff.1 e] at owned
    exact .pure owned
  refine owned.takeChild.heap.bind fun value h₂ owned => ?_
  refine owned.takeChild.heap.bind fun next h₃ owned => ?_
  refine owned.setChildOwned.heap.bind fun _ h₄ owned => ?_
  refine owned.swap.free.heap.bind fun _ h₅ owned => ?_
  refine .read owned fun _ _ => owned.setField.heap.bind fun _ h₆ owned => ?_
  exact .pure (owned.tighten own.spare.cons)

theorem pop_capped {stack : Address} {m : Nat} (cp : Capped P m O h) :
    Pays P F (pop stack) h fun value h' => Capped P m (value ::ₘ O) h' := by
  refine .read cp fun tag _ => cp.takeChild.heap.bind fun top h₁ cp => ?_
  split
  · next e =>
    rw [Address.isNil_iff.1 e] at cp
    exact .pure cp
  refine cp.takeChild.heap.bind fun value h₂ cp => ?_
  refine cp.takeChild.heap.bind fun next h₃ cp => ?_
  refine cp.setChildOwned.heap.bind fun _ h₄ cp => ?_
  rw [Multiset.cons_swap] at cp
  refine cp.free.heap.bind fun _ h₅ cp => ?_
  exact .read cp fun _ _ => cp.setField.heap.bind fun _ _ cp => .pure cp

end Stack

namespace Queue

theorem create_owns (own : Owns P n O h) :
    Pays P F create h fun queue h' => Owns P n (queue ::ₘ O) h' :=
  own.allocate.heap

variable [Queueing P I] {queue value : Address}

theorem enqueueOwned_owns (own : I (n + 1) (value ::ₘ O) h) :
    Pays P F (enqueueOwned queue value) h fun _ h' => I (n + 1) O h' := by
  refine enqueueOwned_ends (M := fun node _ h₁ => I (n + 1) (node ::ₘ O) h₁)
    (N := fun node h₁ => I (n + 1) (node ::ₘ O) h₁) ?made ?first ?behind ?closed
  case made =>
    exact (Chain.createOwned_owns own).mono fun node h₁ own => Pays.query own fun _ _ => own
  case first => exact fun own => (Queueing.setChild rfl own).heap
  case behind => exact fun _ own => (Queueing.setChild rfl own).heap
  case closed =>
    intro node h₁ own
    refine (Queueing.setChildOwned rfl own).heap.bind fun _ h₂ own => ?_
    exact .read own fun _ _ => (Queueing.setField rfl own).heap

theorem enqueue_owns (own : I (n + 2) O h) :
    Pays P F (enqueue queue value) h fun _ h' => I (n + 2) O h' := by
  refine (Account.reference own).heap.bind fun _ h₁ ⟨_, owned⟩ => ?_
  exact (enqueueOwned_owns owned).mono fun _ h₂ owned => Account.restore own owned

theorem dequeue_owns (own : I (n + 4) O h) :
    Pays P F (dequeue queue) h fun value h' => I (n + 3) (value ::ₘ O) h' := by
  refine dequeue_ends (A := fun front h₁ => I (n + 3) (front ::ₘ O) h₁)
    (B := fun front value next h₁ => I (n + 1) (next ::ₘ value ::ₘ front ::ₘ O) h₁)
    (C := fun front value next h₁ => I (n + 1) (next ::ₘ value ::ₘ front ::ₘ O) h₁)
    ?taken ?empty ?opened ?last ?more ?dropped
  case taken => exact (Queueing.takeChild rfl own).heap
  case empty => exact fun own => own
  case opened =>
    intro front h₁ _ own
    exact (Queueing.takeChild rfl own).heap.mono fun value h₂ own =>
      (Queueing.takeChild rfl own).heap
  case last => exact fun own => (Queueing.setChild rfl own).heap
  case more => exact fun _ own => own
  case dropped =>
    intro front value next h₁ owned
    refine (Queueing.setChildOwned rfl owned).heap.bind fun _ h₂ owned => ?_
    refine (Account.free (Account.swap owned)).heap.bind fun _ h₃ owned => ?_
    refine .read owned fun _ _ => (Queueing.setField rfl owned).heap.bind fun _ h₄ owned => ?_
    exact .pure (Queueing.resume own owned)

end Queue

variable [Ledger P I]

namespace Scalar

theorem new_owns {tag : Tag} {w : UInt64} (ht : tag.isScalar) (own : I n O h) :
    Pays P F (new tag w) h fun a h' => I n (a ::ₘ O) h' := by
  have value := Tag.isValue_of_isScalar ht
  refine (Ledger.allocate (Tag.ne_thread value) (Tag.slots_of_isScalar ht).le own).heap.bind
    fun a h₁ own => ?_
  exact (Ledger.setField value own).heap.bind fun _ h₂ own => .pure own

end Scalar

namespace Text

theorem create_owns {text : String} (own : I n O h) :
    Pays P F (create text) h fun s h' => I n (s ::ₘ O) h' := by
  refine (Ledger.allocate (by simp) (Nat.zero_le _) own).heap.bind fun s h₁ own => ?_
  refine (Ledger.setField rfl own).heap.bind fun _ h₂ own => ?_
  refine (Pays.forIn (I := fun _ h' => I n (s ::ₘ O) h') own ?_).bind fun _ h₃ own => .pure own
  intro ⟨c, i⟩ rest h own
  refine (Pays.orRelease (Scalar.new_owns (by rfl) own)).bind fun rune h₁ own => ?_
  exact (Ledger.setChildOwned (.inl rfl) own).heap.bind fun _ h₂ own => .pure ⟨rfl, own⟩

theorem ofRunes_owns {runes : List Address} (own : I (n + 1) O h) :
    Pays P F (ofRunes runes) h fun s h' => I (n + 1) (s ::ₘ O) h' := by
  refine (Pays.mapM own).bind fun cs h₁ e => ?_
  subst e
  refine (Ledger.allocate (by simp) (Nat.zero_le _) own).heap.bind fun s h₂ own => ?_
  refine (Ledger.setField rfl own).heap.bind fun _ h₃ own => ?_
  refine (Pays.forIn (I := fun _ h' => I (n + 1) (s ::ₘ O) h') own ?_).bind
    fun _ h₄ own => .pure own
  intro ⟨rune, i⟩ rest h own
  exact (Ledger.setChild (.inl rfl) own).heap.bind fun _ h₁ own => .pure ⟨rfl, own⟩

theorem concat_owns {a b : Address} (own : I (n + 1) O h) :
    Pays P F (concat a b) h fun s h' => I (n + 1) (s ::ₘ O) h' :=
  .read own fun _ _ => .read own fun _ _ => .read own fun _ _ => .read own fun _ _ =>
  ofRunes_owns own

theorem substring_owns {s : Address} {low high : Int} (own : I (n + 1) O h) :
    Pays P F (substring s low high) h fun s h' => I (n + 1) (s ::ₘ O) h' := by
  refine .read own fun size _ => .guard own fun _ => .guard own fun _ => ?_
  exact .read own fun runes _ => ofRunes_owns own

end Text

namespace Variable

theorem create_owns {type value : Address} (own : I (n + 1) O h) :
    Pays P F (create type value) h fun var h' => I (n + 1) (var ::ₘ O) h' := by
  refine (Ledger.allocate (by simp) le_rfl own).heap.bind fun var h₁ own => ?_
  refine (Ledger.setChild (.inl rfl) own).heap.bind fun _ h₂ own => ?_
  exact (Ledger.setChild (.inl rfl) own).heap.bind fun _ h₃ own => .pure own

theorem createOwned_owns {type value : Address} (own : I (n + 1) (value ::ₘ O) h) :
    Pays P F (createOwned type value) h fun var h' => I (n + 1) (var ::ₘ O) h' :=
  .releasing ((create_owns own).mono fun _ _ own => Account.swap own)

theorem setValue_owns {var value : Address} (own : I (n + 1) O h) :
    Pays P F (setValue var value) h fun _ h' => I (n + 1) O h' :=
  .read own fun _ _ => (Ledger.setChild (.inl rfl) own).heap

theorem setValueOwned_owns {var value : Address} (own : I n (value ::ₘ O) h) :
    Pays P F (setValueOwned var value) h fun _ h' => I n O h' := by
  refine (Pays.orRelease (Pays.query own fun _ _ => own)).bind fun _ h₁ own => ?_
  exact (Ledger.setChildOwned (.inl rfl) own).heap

end Variable

theorem Pointer.create_owns {target : Address} (own : I (n + 1) O h) :
    Pays P F (Pointer.create target) h fun p h' => I (n + 1) (p ::ₘ O) h' := by
  refine (Ledger.allocate (by simp) le_rfl own).heap.bind fun p h₁ own => ?_
  exact (Ledger.setChild (.inl rfl) own).heap.bind fun _ h₂ own => .pure own

theorem Closure.create_owns {literal frame : Address} (own : Owns P (n + 1) O h) :
    Pays P F (Closure.create literal frame) h fun f h' => Owns P (n + 1) (f ::ₘ O) h' := by
  refine own.allocate.heap.bind fun f h₁ own => ?_
  refine own.setChild.heap.bind fun _ h₂ own => ?_
  exact own.setChild.heap.bind fun _ h₃ own => .pure own

theorem BoundMethod.create_owns {callee receiver : Address} (own : Owns P (n + 1) O h) :
    Pays P F (BoundMethod.create callee receiver) h fun m h' => Owns P (n + 1) (m ::ₘ O) h' := by
  refine own.allocate.heap.bind fun m h₁ own => ?_
  refine own.setChild.heap.bind fun _ h₂ own => ?_
  exact own.setChild.heap.bind fun _ h₃ own => .pure own

theorem BuiltinRef.create_owns {name : String} (own : I n O h) :
    Pays P F (BuiltinRef.create name) h fun b h' => I n (b ::ₘ O) h' := by
  refine (Text.create_owns own).bind fun key h₁ own => ?_
  refine (Pays.orRelease (Ledger.allocate (by simp) (Nat.zero_le _) own).heap).bind fun b h₂ own =>
    ?_
  exact (Ledger.setChildOwned (.inl rfl) (Account.swap own)).heap.bind fun _ h₃ own => .pure own

end GoMachine
