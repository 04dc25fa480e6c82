import GoMachine.Proofs.Tasks.Knows
/-!
# The stacks of threads

What is put on a stack of a thread, or taken off it, is put on the list of what the thread has left
to do, or taken off that. A node that comes off a control stack is owned with the code that it has.
-/
namespace GoMachine

open Heap (Retains)

variable {k : Known} {σ : Address → Task} {n m : Nat} {O : Multiset Address} {h : Heap}
  {u a b v st : Address} {r : Role} {D : Body} {t : Tag} {fs : List UInt64} {cs : List Address}
  {c : Code}
  {p : Pile} {τ : Task}

theorem Pile.not_quiet : p.tag.keptByChains = false := by cases p <;> rfl

theorem Pile.tag_ne : p.tag ≠ .linkedList := by cases p <;> simp [Pile.tag]

namespace Knows

/-- A stack has no more on it than there are records. -/
theorem pile_le (g : Knows k σ n O h) {ρ : Roles} (seen : Sees ρ σ h.body?)
    (hu : h.body? u = some ⟨.thread, fs, cs⟩) (hst : cs[p.index]? = some st) (notNil : st ≠ .nil) :
    ((σ u).pile p).length ≤ 2 ^ 31 := by
  obtain ⟨top, -, lists, -⟩ := seen.pile hu hst notNil
  obtain ⟨ls, len, nodup, live, -⟩ := lists.links seen.dead
  rw [← len]
  refine (g.sound.length_le nodup fun l hl => ?_).2
  obtain ⟨D, hD⟩ := Option.ne_none_iff_exists'.1 (live l hl)
  obtain ⟨c, hc, -⟩ := Heap.body?_eq_some.1 hD
  exact (Heap.cell?_eq_some.1 hc).1

/-- Something is put on a stack. -/
theorem pushOwned [k.KeptByChains] (g : Knows k σ (n + 1) (v ::ₘ O) h)
    (hu : h.body? u = some ⟨.thread, fs, cs⟩) (hst : cs[p.index]? = some st)
    (takes : k.Finds σ h fun ρ => (v = .nil ∨ (p.kind u).Takes ρ v) ∧
      ∀ e ∈ τ.control, e ∈ (σ u).control ∨ e.node = v ∧ ρ v = .code e.code)
    (now : τ.pile p = v :: (σ u).pile p) (other : ∀ q, q ≠ p → τ.pile q = (σ u).pile q)
    (line : τ.line = (σ u).line) (place : (σ u).SamePlace τ) :
    Yields (Stack.pushOwned st v) h fun _ h' => Knows k (Function.update σ u τ) (n + 1) O h' := by
  obtain ⟨ρ, seen, noted, takes, codes⟩ := takes
  by_cases notNil : st = .nil
  · refine .read fun t _ => .read fun top read => ?_
    obtain ⟨D, hD, -⟩ := g.sound.child_read read
    simp [notNil, g.dead] at hD
  obtain ⟨top, ha, -⟩ := seen.pile hu hst notNil
  refine (Stack.pushOwned_retains g.toRetains ha (k.other Tag.keptByChains Pile.not_quiet)).mono
    fun _ h' ⟨g', node, nn, gone, sub⟩ => ?_
  obtain ⟨w, top', ew, et, seen'⟩ := seen.push g.closed hu hst ha gone nn takes
    (g.live_of_mem (by simp)) now other line codes place
  obtain ⟨rfl, rfl⟩ : _ = w ∧ top = top' := ⟨by simpa using ew, by simpa using et⟩
  refine ⟨g', g.kept, _, seen'.sub sub g'.closed, fun x hx => ?_⟩
  refine (Function.update_of_ne ?_ ..).trans (noted x hx)
  rintro rfl
  exact (g.live (g.kept x hx)).elim nn fun live => live gone

/-- A value is put on the stash of a thread that is known. -/
theorem pushStash [k.KeptByChains] (hu : k.facts u = some ⟨.thread, fs, cs⟩)
    (hst : cs[1]? = some st)
    (g : Knows k σ (n + 1) (v ::ₘ O) h) :
    Yields (Stack.pushOwned st v) h fun _ h' =>
      Knows k (Function.update σ u { σ u with stash := v :: (σ u).stash }) (n + 1) O h' := by
  obtain ⟨ρ, seen, noted⟩ := g.sees
  refine g.pushOwned (p := .stash) (g.body hu) hst ⟨ρ, seen, noted, .inr trivial, fun e he =>
    .inl he⟩ rfl
    (fun q hq => ?_) rfl ⟨rfl, rfl, rfl, subset_rfl, rfl⟩
  cases q <;> simp_all [Task.pile]

/-- The top of a stack is taken off, if there is any. No record changes its role. -/
theorem pop_finding [k.KeptByChains] {P : Roles → Prop} (g : Knows k σ n O h)
    (hu : h.body? u = some ⟨.thread, fs, cs⟩) (hst : cs[p.index]? = some st)
    (now : (σ u).pile p = v :: τ.pile p) (other : ∀ q, q ≠ p → τ.pile q = (σ u).pile q)
    (line : τ.line = (σ u).line) (codes : ∀ e ∈ τ.control, e ∈ (σ u).control)
    (place : (σ u).SamePlace τ)
    (holds : ∀ {ρ}, Sees ρ σ h.body? → P ρ) (room : m + 3 ≤ n) :
    Yields (Stack.pop st) h fun v' h' => v' = v ∧
    Knows k (Function.update σ u τ) (m + 2) (v ::ₘ O) h' ∧
      k.Finds (Function.update σ u τ) h' P := by
  by_cases notNil : st = .nil
  · exact (Stack.pop_there g.sound).mono fun _ _ there => absurd g.dead (notNil ▸ there)
  obtain ⟨ρ, seen, noted⟩ := g.sees
  obtain ⟨top, ha, lists, -⟩ := seen.pile hu hst notNil
  have small := g.pile_le seen hu hst notNil
  obtain ⟨w, top', next, ew, et, ht, seen'⟩ :=
    seen.pop hu hst ha now (by omega) other line codes place
  obtain ⟨rfl, rfl⟩ : _ = w ∧ top = top' := ⟨by simpa using ew, by simpa using et⟩
  refine (Stack.pop_retains (g.toRetains.weaken room) ha ht
    (k.other Tag.keptByChains Pile.not_quiet) (k.other Tag.keptByChains rfl)
    Pile.tag_ne (by cases p <;> simp [Pile.tag])).mono fun v' h' ⟨e, g', sub, _⟩ => ?_
  have seen' := seen'.sub sub g'.closed
  exact ⟨e, ⟨e ▸ g', g.kept, ρ, seen', noted⟩, ρ, seen', noted, holds seen⟩

/-- The top of a stack is taken off, if there is any. -/
theorem pop [k.KeptByChains] (g : Knows k σ (n + 3) O h)
    (hu : h.body? u = some ⟨.thread, fs, cs⟩) (hst : cs[p.index]? = some st)
    (now : (σ u).pile p = v :: τ.pile p) (other : ∀ q, q ≠ p → τ.pile q = (σ u).pile q)
    (line : τ.line = (σ u).line) (codes : ∀ e ∈ τ.control, e ∈ (σ u).control)
    (place : (σ u).SamePlace τ) :
    Yields (Stack.pop st) h fun v' h' => v' = v ∧
    Knows k (Function.update σ u τ) (n + 2) (v ::ₘ O) h' :=
  (g.pop_finding (P := fun _ => True) hu hst now other line codes place
  (fun _ => trivial) le_rfl).mono
    fun _ _ ⟨e, g, _⟩ => ⟨e, g⟩

/-- Nothing is taken off an empty stack. -/
theorem pop_nil [k.KeptByChains] (g : Knows k σ (n + 1) O h)
    (hu : h.body? u = some ⟨.thread, fs, cs⟩) (hst : cs[p.index]? = some st)
    (empty : (σ u).pile p = []) :
    Yields (Stack.pop st) h fun v h' => v = .nil ∧ Knows k σ n O h' := by
  by_cases notNil : st = .nil
  · exact (Stack.pop_there g.sound).mono fun _ _ there => absurd g.dead (notNil ▸ there)
  obtain ⟨ρ, seen, noted⟩ := g.sees
  obtain ⟨top, ha, lists, -⟩ := seen.pile hu hst notNil
  rw [empty] at lists
  obtain rfl : top = .nil := lists
  refine (Stack.pop_empty g.toRetains ha (k.other Tag.keptByChains Pile.not_quiet)).mono
    fun v h' ⟨e, g', same⟩ => ?_
  exact ⟨e, g.still g' fun _ seen _ => same ▸ seen⟩

/-- What is taken off a stack is no concern of other threads. -/
theorem pop_threads [k.KeptByChains] (g : Knows k σ (n + 3) O h)
    (hu : h.body? u = some ⟨.thread, fs, cs⟩)
    (hst : cs[p.index]? = some st) :
    Yields (Stack.pop st) h fun _ h' => Facts.SameThreads h.body? h'.body? := by
  by_cases notNil : st = .nil
  · exact (Stack.pop_there g.sound).mono fun _ _ there => absurd g.dead (notNil ▸ there)
  obtain ⟨ρ, seen, noted⟩ := g.sees
  obtain ⟨top, ha, lists, -⟩ := seen.pile hu hst notNil
  cases e : (σ u).pile p with
  | nil =>
    rw [e] at ha lists
    obtain rfl : top = .nil := lists
    exact (Stack.pop_empty (n := n + 2) g.toRetains ha
      (k.other Tag.keptByChains Pile.not_quiet)).mono
      fun _ _ ⟨_, _, same⟩ => same ▸ .refl
  | cons v vs =>
    rw [e] at lists
    obtain ⟨next, ht, -⟩ := lists
    exact (Stack.pop_retains g.toRetains ha ht (k.other Tag.keptByChains Pile.not_quiet)
      (k.other Tag.keptByChains rfl)
      Pile.tag_ne (by cases p <;> simp [Pile.tag])).mono fun _ _ ⟨_, _, _, same⟩ => same

theorem peek (g : Knows k σ n O h) (hu : h.body? u = some ⟨.thread, fs, cs⟩)
    (hst : cs[p.index]? = some st) (run : Stack.peek st h = .ok v) :
    v = ((σ u).pile p).headD .nil := by
  obtain ⟨t, tagged, run⟩ := query_bind_ok.1 run
  obtain ⟨top, read, run⟩ := query_bind_ok.1 run
  obtain ⟨D, hD, -, hi⟩ := g.sound.child_read read
  have notNil : st ≠ .nil := fun e => by simp [e, g.dead] at hD
  obtain ⟨ρ, seen, -⟩ := g.sees
  obtain ⟨top', ha, lists, -⟩ := seen.pile hu hst notNil
  obtain rfl := Option.some_inj.1 (hD.symm.trans ha)
  obtain rfl : top' = top := by simpa using hi
  split at run
  · next e =>
    obtain rfl := Address.isNil_iff.1 e
    obtain rfl := query_pure_ok.1 run
    cases hp : (σ u).pile p with
    | nil => rfl
    | cons w ws =>
      rw [hp] at lists
      obtain ⟨_, e, -⟩ := lists
      simp [g.dead] at e
  · next e =>
    cases hp : (σ u).pile p with
    | nil =>
      rw [hp] at lists
      exact absurd (Address.isNil_iff.2 lists) e
    | cons w ws =>
      rw [hp] at lists
      obtain ⟨next, hl, -⟩ := lists
      have := (g.sound.child_of_body hl run).2
      simpa using this.symm

theorem isEmpty {empty : Bool} (g : Knows k σ n O h) (hu : h.body? u = some ⟨.thread, fs, cs⟩)
    (hst : cs[p.index]? = some st) (run : Stack.isEmpty st h = .ok empty) :
    empty = ((σ u).pile p).isEmpty := by
  obtain ⟨size, sized, e⟩ := query_bind_ok.1 run
  obtain rfl := query_pure_ok.1 e
  obtain ⟨t, tagged, rest⟩ := query_bind_ok.1 sized
  obtain ⟨w, read, e⟩ := query_bind_ok.1 rest
  obtain rfl := query_pure_ok.1 e
  obtain ⟨D, hD, -, hw⟩ := g.sound.field_read read
  have notNil : st ≠ .nil := fun e => by simp [e, g.dead] at hD
  obtain ⟨ρ, seen, -⟩ := g.sees
  obtain ⟨top, ha, -⟩ := seen.pile hu hst notNil
  have small := g.pile_le seen hu hst notNil
  obtain rfl := Option.some_inj.1 (hD.symm.trans ha)
  obtain rfl : ((σ u).pile p).length.toUInt64 = w := by simpa using hw
  have : ((σ u).pile p).length.toUInt64.toNat = ((σ u).pile p).length :=
    Nat.mod_eq_of_lt (by omega)
  rw [this]
  cases (σ u).pile p <;> rfl

end Knows
end GoMachine
