import GoMachine.Machine.Turn
import GoMachine.Proofs.Gives
import GoMachine.Proofs.Heap.Exact
/-!
# What is left of an account

A computation that fails may leave references behind that nobody drops any more: the counts are too
high then, but never too low. `Leaks P F h` says that a client owns the references `F`, and somebody
or nobody owns some more. `Pays P F x s Q` says that a computation that ends well ends as `Q` says,
and that one that fails does not touch the references `F`.

What a computation may use is what its client owns beyond `F`. That it owns `F` at all is `Within F
O`, which is found from how `O` is written.

* `Pays.bind`, `Pays.read`, `Pays.throw`, `Pays.forIn`: computations in sequence.
* `Pays.orRelease`, `Pays.releasing`: references that are dropped when something fails.
-/
namespace GoMachine

/-- A state with a heap, and the addresses in it that stay. -/
class HasHeap (σ : Type) where
  heap : σ → Heap
  fixed : σ → List Address

export HasHeap (heap fixed)

instance : HasHeap Heap := ⟨id, fun _ => []⟩

instance : HasHeap Turn := ⟨Turn.heap, fun s => [s.scheduler, s.thread]⟩

@[simp]
theorem heap_heap {h : Heap} : heap h = h := rfl

@[simp]
theorem heap_turn {s : Turn} : heap s = s.heap := rfl

namespace Heap

/-- The counts are right for a client that owns the references, and maybe some more. -/
def Leaks (P F : Multiset Address) (h : Heap) : Prop := ∃ L, Exact P (L + F) h

/-- Some references are among others. -/
class Within (F O : Multiset Address) : Prop where
  le : F ≤ O

/-- What tells of a heap that its counts are exact for a client that owns some references, and maybe
others. -/
class Covers (P : outParam (Multiset Address)) (C : Multiset Address → Heap → Prop) : Prop where
  exact : ∀ {O h}, C O h → ∃ B, Exact P (B + O) h

/-- The references `O`, and then those to some records in turn, the last of them on top. -/
def stacked (O : Multiset Address) (as : List Address) : Multiset Address :=
  as.foldl (fun O a => a ::ₘ O) O

theorem stacked_eq {O : Multiset Address} {as : List Address} : stacked O as = as + O := by
  induction as generalizing O with
  | nil => simp [stacked]
  | cons a as ih =>
    rw [stacked, List.foldl_cons, ← stacked, ih, ← Multiset.cons_coe, Multiset.cons_add,
      Multiset.add_cons]

theorem stacked_append {O : Multiset Address} {as bs : List Address} :
    stacked O (as ++ bs) = stacked (stacked O as) bs := List.foldl_append

/-- References to some records in turn, the first of them on top, and then the references `O`. -/
def laden (as : List Address) (O : Multiset Address) : Multiset Address :=
  as.foldr (fun a O => a ::ₘ O) O

theorem laden_eq {O : Multiset Address} {as : List Address} : laden as O = as + O := by
  induction as with
  | nil => simp [laden]
  | cons a as ih => rw [laden, List.foldr_cons, ← laden, ih, ← Multiset.cons_coe, Multiset.cons_add]

theorem mem_laden {O : Multiset Address} {as : List Address} {b : Address} :
    b ∈ laden as O ↔ b ∈ as ∨ b ∈ O := by
  rw [laden_eq, Multiset.mem_add, Multiset.mem_coe]

theorem laden_append {O : Multiset Address} {as bs : List Address} :
    laden (as ++ bs) O = laden as (laden bs O) := List.foldr_append

theorem laden_comm {O : Multiset Address} {as bs : List Address} :
    laden as (laden bs O) = laden bs (laden as O) := by
  simp only [laden_eq]
  exact add_left_comm _ _ _

theorem laden_cons {O : Multiset Address} {a : Address} {as : List Address} :
    a ::ₘ laden as O = laden as (a ::ₘ O) :=
  show laden [a] (laden as O) = _ from laden_comm

theorem stacked_eq_laden {O : Multiset Address} {l : List Address} : stacked O l = laden l O := by
  rw [stacked_eq, laden_eq]

section Within

variable {F O : Multiset Address} {a : Address} {l : List Address}

instance : Within O O := ⟨le_rfl⟩

instance : Within 0 O := ⟨Multiset.zero_le O⟩

instance [Within F O] : Within F (a ::ₘ O) := ⟨Within.le.trans (Multiset.le_cons_self O a)⟩

instance [Within F O] : Within (a ::ₘ F) (a ::ₘ O) := ⟨Multiset.cons_le_cons a Within.le⟩

instance {M : Multiset Address} [Within F O] : Within F (M + O) :=
  ⟨Within.le.trans (Multiset.le_add_left O M)⟩

instance [Within F O] : Within F (stacked O l) :=
  ⟨Within.le.trans (stacked_eq (O := O) ▸ Multiset.le_add_left O l)⟩

instance [Within F O] : Within F (laden l O) :=
  ⟨Within.le.trans (laden_eq (O := O) ▸ Multiset.le_add_left O l)⟩

instance [within : Within F O] : Within (laden [] F) O := ⟨within.le⟩

instance [within : Within (laden l F) O] : Within (laden (a :: l) F) (a ::ₘ O) :=
  ⟨Multiset.cons_le_cons a within.le⟩

instance [Within F O] : Within (laden l F) (laden l O) := by
  refine ⟨?_⟩
  rw [laden_eq, laden_eq]
  exact add_le_add_right Within.le _

end Within

variable {P F F' O : Multiset Address} {h : Heap} {a : Address} {C : Multiset Address → Heap → Prop}

instance : Covers P (Exact P) := ⟨fun x => ⟨0, by rwa [zero_add]⟩⟩

namespace Leaks

theorem of [Covers P C] [Within F O] (own : C O h) : Leaks P F h := by
  obtain ⟨L, e⟩ := Multiset.le_iff_exists_add.1 (Within.le (F := F) (O := O))
  obtain ⟨B, x⟩ := Covers.exact own
  exact ⟨B + L, by rwa [add_assoc, add_comm L F, ← e]⟩

theorem anti (leaks : Leaks P F' h) (le : F ≤ F') : Leaks P F h := by
  obtain ⟨L, x⟩ := leaks
  obtain ⟨M, rfl⟩ := Multiset.le_iff_exists_add.1 le
  exact ⟨L + M, by rwa [add_assoc, add_comm M F]⟩

/-- A reference that is dropped. -/
theorem free (leaks : Leaks P (a ::ₘ F) h) : Gives (HeapM.free a) h fun _ h' => Leaks P F h' := by
  obtain ⟨L, x⟩ := leaks
  rw [Multiset.add_cons] at x
  obtain ⟨h', run, x, -⟩ := x.free
  exact ⟨(), h', run, L, x⟩

end Leaks
end Heap

open Heap (Leaks Within Covers laden)

/-- A computation ends as `Q` says, or fails and leaves the references `F` alone. -/
def Pays {ε σ α : Type} [HasHeap σ] (P F : Multiset Address) (x : EStateM ε σ α) (s : σ)
    (Q : α → σ → Prop) :
    Prop :=
  Ends (fun _ s' => Leaks P F (heap s')) x s Q

theorem Heap.Leaks.frees {P F : Multiset Address} {h : Heap} {a : Address}
    (leaks : Leaks P (a ::ₘ F) h) :
    Pays P F (HeapM.free a) h fun _ h' => Leaks P F h' :=
  leaks.free.ends

namespace Pays

section Basic

variable {ε σ α β γ : Type} [HasHeap σ] {P F F' O : Multiset Address} {x : EStateM ε σ α}
  {f : α → EStateM ε σ β} {s : σ} {Q Q' : α → σ → Prop} {R : β → σ → Prop}
  {C : Multiset Address → Heap → Prop}

theorem yields (hx : Pays P 0 x s Q) : Yields x s Q := Ends.yields hx

theorem mono (hx : Pays P F x s Q) (imp : ∀ a s', Q a s' → Q' a s') : Pays P F x s Q' :=
    Ends.mono hx imp

/-- What else is known of a computation that ends well. -/
theorem instead (hx : Pays P F x s Q) (hy : Yields x s Q') : Pays P F x s Q' := by
  rcases hx with ⟨a, s', run, -⟩ | failed
  · exact .inl ⟨a, s', run, hy a s' run⟩
  · exact .inr failed

/-- What leaves more alone. -/
theorem anti (hx : Pays P F' x s Q) (le : F ≤ F') : Pays P F x s Q := hx.weaken fun _ _ leaks =>
    leaks.anti le

theorem bind (hx : Pays P F x s Q) (hf : ∀ a s', Q a s' → Pays P F (f a) s' R) :
    Pays P F (x >>= f) s R :=
  Ends.bind hx hf

/-- Something that changes nothing in front of other things. -/
theorem quiet (hx : Pays P F x s fun _ s' => s' = s) (hf : ∀ a, Pays P F (f a) s R) :
    Pays P F (x >>= f) s R :=
  hx.bind fun a _ e => e ▸ hf a

theorem pure {a : α} (h : Q a s) : Pays P F (Pure.pure a : EStateM ε σ α) s Q := Ends.pure h

theorem get {g : σ → EStateM ε σ β} (h : Pays P F (g s) s R) :
    Pays P F (MonadState.get >>= g) s R :=
  Ends.get h

theorem modify {g : σ → σ} {Q : PUnit → σ → Prop} (h : Q ⟨⟩ (g s)) :
    Pays P F (modify g : EStateM ε σ PUnit) s Q := (Gives.modify h).ends

theorem modifyGet {g : σ → α × σ} (h : Q (g s).1 (g s).2) :
    Pays P F (MonadStateOf.modifyGet g : EStateM ε σ α) s Q := .inl ⟨_, _, rfl, h⟩

theorem fail {e : ε} (leaks : Leaks P F (heap s)) :
    Pays P F (MonadExcept.throw e : EStateM ε σ α) s Q := Ends.throw leaks

theorem throw [Covers P C] [Within F O] {e : ε} (own : C O (heap s)) :
    Pays P F (MonadExcept.throw e : EStateM ε σ α) s Q := fail (.of own)

/-- A check that fails ends the computation. -/
theorem guard [Covers P C] [Within F O] {c : Prop} [Decidable c] {e : ε} {y : EStateM ε σ β}
    (own : C O (heap s)) (hy : ¬c → Pays P F y s R) :
    Pays P F (if c then MonadExcept.throw e >>= f else y) s R := by
  split
  · exact Pays.bind (Q := fun _ _ => False) (throw own) fun _ _ h => h.elim
  · next h => exact hy h

/-- A loop over a list, with what holds when a part of the list is left. -/
theorem forIn {l : List γ} {body : γ → PUnit → EStateM ε σ (ForInStep PUnit)} {I : List γ → σ →
    Prop}
    (start : I l s)
    (turn : ∀ c rest s, I (c :: rest) s →
      Pays P F (body c ⟨⟩) s fun r s' => r = .yield ⟨⟩ ∧ I rest s') :
    Pays P F (ForIn.forIn l PUnit.unit body) s fun _ => I [] := by
  induction l generalizing s with
  | nil => exact pure start
  | cons c l ih =>
    rw [List.forIn_cons]
    refine (turn c l s start).bind fun r s' ⟨e, h⟩ => ?_
    subst e
    exact ih h

/-- An action for each value of a list. -/
theorem forM {l : List γ} {g : γ → EStateM ε σ PUnit} {I : σ → Prop} (start : I s)
    (turn : ∀ c ∈ l, ∀ s, I s → Pays P F (g c) s fun _ => I) : Pays P F (l.forM g) s fun _ =>
    I := by
  induction l generalizing s with
  | nil => exact pure start
  | cons c l ih =>
    refine (turn c List.mem_cons_self s start).bind fun _ s' h => ?_
    exact ih h fun d hd => turn d (List.mem_cons_of_mem c hd)

/-- References to the records of a list are dropped when something has failed. -/
theorem freeEach {l : List γ} {f : γ → Address} {body : γ → PUnit → EStateM ε σ (ForInStep PUnit)}
    {free : Address → EStateM ε σ PUnit}
    (same : ∀ c, body c ⟨⟩ = do free (f c); Pure.pure (.yield ⟨⟩))
    (frees : ∀ {F a s}, Leaks P (a ::ₘ F) (heap s) →
      Pays P F (free a) s fun _ s' => Leaks P F (heap s'))
    (leaks : Leaks P (laden (l.map f) F) (heap s)) :
    Pays P F (ForIn.forIn l PUnit.unit body) s fun _ s' => Leaks P F (heap s') := by
  refine forIn (I := fun rest s' => Leaks P (laden (rest.map f) F) (HasHeap.heap s')) leaks ?_
  intro c rest s leaks
  rw [same]
  have freed := frees (a := f c) (F := laden (rest.map f) F) leaks
  exact (freed.anti Within.le).bind fun _ _ leaks => pure ⟨rfl, leaks⟩

/-- What fails is as it was before. -/
theorem of_yields [Covers P C] [Within F O] (hx : Yields x s Q) (own : C O (heap s))
    (same : ∀ e s', x s = .error e s' → heap s' = heap s) : Pays P F x s Q := by
  cases run : x s with
  | ok a s' => exact .inl ⟨a, s', run, hx a s' run⟩
  | error e s' =>
    refine .inr ⟨e, s', run, ?_⟩
    show Leaks P F (heap s')
    rw [same e s' run]
    exact .of own

end Basic

section Lifted

variable {α β : Type} {P F O : Multiset Address} {h : Heap} {Q : α → Heap → Prop}
    {R : β → Heap → Prop}
  {C : Multiset Address → Heap → Prop}

theorem heap {x : HeapM α} (hx : Pays P F x h Q) : Pays P F (liftM x : Action α) h Q := Ends.heap hx

theorem query [Covers P C] [Within F O] {q : Query α} (own : C O h) (hq : ∀ a, q h = .ok a →
    Q a h) :
    Pays P F (liftM q : Action α) h Q := by
  refine of_yields (Yields.query hq) own fun e h' run => ?_
  simp only [liftM, monadLift, MonadLift.monadLift] at run
  split at run <;> cases run
  rfl

/-- A question in front of other things. -/
theorem read [Covers P C] [Within F O] {q : Query α} {f : α → Action β} (own : C O h)
    (hf : ∀ a, q h = .ok a → Pays P F (f a) h R) : Pays P F (liftM q >>= f) h R :=
  bind (query (Q := fun a h' => q h = .ok a ∧ h' = h) own fun _ e => ⟨e, rfl⟩)
    fun a _ ⟨e, same⟩ => same ▸ hf a e

theorem ask [Covers P C] [Within F O] {q : Heap → Except HeapError α} {f : α → HeapM β}
    (own : C O h)
    (hf : ∀ a, q h = .ok a → Pays P F (f a) h R) : Pays P F (HeapM.ask q >>= f) h R := by
  refine bind (Q := fun a h' => q h = .ok a ∧ h' = h) ?_ fun a _ ⟨e, same⟩ => same ▸ hf a e
  unfold Pays Ends Gives
  cases e : q h with
  | ok a => exact .inl ⟨a, h, by simp [HeapM.ask, e], rfl, rfl⟩
  | error e' => exact .inr ⟨e', h, by simp [HeapM.ask, e], .of own⟩

/-- Questions about each value of a list. -/
theorem mapM [Covers P C] [Within F O] {γ : Type} {q : γ → Query α} {l : List γ} (own : C O h) :
    Pays P F (l.mapM fun c => (liftM (q c) : Action α)) h fun _ h' => h' = h := by
  induction l with
  | nil => exact pure rfl
  | cons c l ih =>
    rw [List.mapM_cons]
    refine read own fun a _ => ih.bind fun as h' e => pure e

/-- The failure of an action is part of what it returns. -/
theorem attempted {x : Action α} {G : Multiset Address} {E : Except Fault α → Heap → Prop}
    (hx : Pays P G x h Q) (finished : ∀ a h', Q a h' → E (.ok a) h')
    (failed : ∀ e h', Leaks P G h' → E (.error e) h') : Pays P F x.attempt h E := by
  refine (Ends.attempt hx).ends.mono ?_
  rintro _ h' (⟨a, rfl, done⟩ | ⟨e, rfl, leaks⟩)
  · exact finished a h' done
  · exact failed e h' leaks

/-- An action whose failure is looked at. -/
theorem attempt {σ : Type} [HasHeap σ] {x : ActionOn σ α} {f : Except Fault α → ActionOn σ β}
    {s : σ}
    {G : Multiset Address} {Q : α → σ → Prop} {R : β → σ → Prop} (hx : Pays P G x s Q)
    (finished : ∀ a s', Q a s' → Pays P F (f (.ok a)) s' R)
    (failed : ∀ e s', Leaks P G (HasHeap.heap s') → Pays P F (f (.error e)) s' R) :
    Pays P F (x.attempt >>= f) s R := by
  refine (Ends.attempt hx).before ?_
  rintro _ s' (⟨a, rfl, done⟩ | ⟨e, rfl, leaks⟩)
  · exact finished a s' done
  · exact failed e s' leaks

theorem conclude_ok {σ : Type} [HasHeap σ] {a : α} {s : σ} {Q : α → σ → Prop} (h : Q a s) :
    Pays P F (ActionOn.conclude (.ok a) : ActionOn σ α) s Q := .inl ⟨a, s, rfl, h⟩

theorem conclude_error {σ : Type} [HasHeap σ] {e : Fault} {s : σ} {Q : α → σ → Prop}
    (leaks : Leaks P F (HasHeap.heap s)) :
    Pays P F (ActionOn.conclude (.error e) : ActionOn σ α) s Q :=
  .inr ⟨e, s, rfl, leaks⟩

theorem conclude [Covers P C] [Within F O] {σ : Type} [HasHeap σ] {r : Except Fault α} {s : σ}
    {Q : α → σ → Prop} (own : C O (HasHeap.heap s)) (h : ∀ a, r = .ok a → Q a s) :
    Pays P F (ActionOn.conclude r : ActionOn σ α) s Q := by
  cases r with
  | ok a => exact .inl ⟨a, s, rfl, h a rfl⟩
  | error e => exact .inr ⟨e, s, rfl, .of own⟩

/-- A reference is dropped only if an action fails. -/
theorem orRelease {a : Address} {x : Action α} (hx : Pays P (a ::ₘ F) x h Q) :
    Pays P F (Action.orRelease a x) h Q :=
  Ends.orRelease hx fun _ _ leaks => leaks.free

/-- An action, and then a reference is dropped. -/
theorem afterwards {a : Address} {x : Action α} {R : α → Heap → Prop} (hx : Pays P (a ::ₘ F) x h Q)
    (drop : ∀ b h', Q b h' → Gives (HeapM.free a) h' fun _ h'' => R b h'') :
    Pays P F (Action.releasing a x) h R :=
  Ends.releasing hx drop fun _ _ leaks => leaks.free

end Lifted
end Pays
end GoMachine
