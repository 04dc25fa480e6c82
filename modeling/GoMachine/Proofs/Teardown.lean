import GoMachine.Proofs.Counts
/-!
# Teardown

A machine may be used in any way before it is torn down: programs are loaded, steps are taken and
garbage is collected, and any of these calls may fail at any point. A call that fails may leave
references behind that nobody drops any more. So the counts of a used machine may be too high, but
they are right for the handles and whatever was left behind (`Used.leaks`), and that is enough to
drop the handles and to sweep the rest.

* `Call.spares`: what one call leaves alone, whether it succeeds or fails.
* `Used.teardown_empties`: a machine that is torn down has no records left, and all its words are
  free.
-/
namespace GoMachine

open Heap (Owns Exact Leaks maxSlots limit)

variable {m m' m₀ : Machine} {L : Multiset Address} {n : Nat}

namespace Machine

/-- What may be asked of a machine before it is torn down. -/
inductive Call where
  | load (program : Program)
  | step
  | run (budget : Nat)
  | collect

def Call.perform : Call → MachineM Unit
  | .load program => Machine.load program
  | .step => do let _ ← Machine.step
  | .run budget => do let _ ← Machine.run budget
  | .collect => do let _ ← Machine.collect

/-- No count is near the largest word. A count is a word and there may be any number of calls that
fail, so that it could run over; but no machine lives through `2 ^ 61` of them. -/
def Few (m : Machine) : Prop := ∀ a w, m.heap.refCount a = .ok w → w.toNat ≤ 2 ^ 61

/-- A machine after any calls, whether they succeeded or failed. -/
inductive Used : Machine → Prop
  | new {settings : Settings} {m : Machine} : Machine.new settings = .ok m → Used m
  | call {m m' : Machine} (c : Call) : Used m → m.Few →
    c.perform m = .ok () m' ∨ (∃ e, c.perform m = .error e m') → Used m'

/-- Where no count is near the largest word, there is room for whatever a call does. -/
theorem Few.has (few : m.Few) (x : Exact 0 (L + m.handles) m.heap) :
    ∃ n, maxSlots + 16 ≤ n ∧ Has m (n + 4) (L + m.handles) m := by
  have le : ∀ a, a ≠ .nil → (L + m.handles).count a ≤ 2 ^ 61 := by
    intro a ha
    by_cases owned : a ∈ L + m.handles
    · have hc := Heap.cell?_eq_some.2 ⟨x.isLive_of_mem owned ha, rfl⟩
      have count := x.count hc
      have := few a _ (x.sound.refCount_ok.2 (.inr ⟨_, hc, rfl⟩))
      rw [Multiset.count_add] at count
      omega
    · simp [Multiset.count_eq_zero_of_notMem owned]
  refine ⟨maxSlots + 16, le_rfl, rfl, rfl, rfl, x, by simp [maxSlots, limit], fun a ha => ?_⟩
  have := le a ha
  simp only [maxSlots, limit]
  omega

/-- Counts that nobody has lost anything of are not near the largest word. -/
theorem Accounted.few (acc : m.Accounted) : m.Few := by
  intro a w counted
  rcases acc.sound.refCount_ok.1 counted with ⟨-, rfl⟩ | ⟨c, hc, rfl⟩
  · decide
  · have count := acc.count hc
    have := m.handles.count_le_card a
    have := (Multiset.count_le_card a m.heap.edges).trans acc.sound.card_edges_le
    rw [Multiset.count_add] at count
    simp only [handles, Multiset.insert_eq_cons, Multiset.card_cons, Multiset.card_singleton,
      maxSlots] at *
    omega

/-! ## Calls -/

theorem Has.stepsAfter {budget : Nat} (has : Has m₀ (n + 4) (L + m₀.handles) m)
    (room : maxSlots + 16 ≤ n)
    {tried : Nat} : Spares m₀ m₀.handles (stepsAfter tried budget) m fun _ m' =>
      ∃ L' ≤ L, Has m₀ (n + 4) (L' + m₀.handles) m' := by
  induction budget generalizing L m tried with
  | zero => exact Ends.pure ⟨L, le_rfl, has⟩
  | succ budget ih =>
    refine Ends.bind (has.step room) fun more m₁ ⟨L', le, has⟩ => ?_
    split
    · exact Ends.mono (ih has) fun _ _ ⟨L'', le', has⟩ => ⟨L'', le'.trans le, has⟩
    · exact Ends.pure ⟨L', le, has⟩

theorem Has.advance {budget : Nat} (has : Has m₀ (n + 4) (L + m₀.handles) m)
    (room : maxSlots + 16 ≤ n) :
    Spares m₀ m₀.handles (advance budget) m fun _ m' => ∃ L' ≤ L,
    Has m₀ (n + 4) (L' + m₀.handles) m' :=
  has.stepsAfter room

theorem Has.run {budget : Nat} (has : Has m₀ (n + 4) (L + m₀.handles) m)
    (room : maxSlots + 16 ≤ n) :
    Spares m₀ m₀.handles (run budget) m fun _ m' => ∃ L' ≤ L,
    Has m₀ (n + 4) (L' + m₀.handles) m' := by
  refine Ends.get ?_
  extract_lets done rest
  have rest_spares : Spares m₀ m₀.handles (rest ⟨⟩) m
      fun _ m' => ∃ L' ≤ L, Has m₀ (n + 4) (L' + m₀.handles) m' := by
    refine Ends.bind (has.advance room) fun ⟨tried, more⟩ m₁ ⟨L', le, has⟩ => ?_
    dsimp only
    split
    · exact Ends.pure ⟨L', le, has⟩
    refine Ends.get (has.inspect fun control _ => has.inspect fun empty _ => ?_)
    split
    · exact Ends.bind (Q := fun _ _ => False) (Ends.throw has.spared) fun _ _ h => h.elim
    · exact Ends.pure ⟨L', le, has⟩
  split
  · exact Ends.bind (Q := fun _ _ => False) (Ends.throw has.spared) fun _ _ h => h.elim
  · exact rest_spares

theorem Has.leaks (has : Has m₀ n (L + m₀.handles) m) : Leaks 0 m.handles m.heap :=
  has.handles_eq ▸ ⟨L, has.owns.exact⟩

theorem Spared.leaks_handles (spared : Spared m₀ m₀.handles m) : Leaks 0 m.handles m.heap := by
  have same : m.handles = m₀.handles := by
    rw [handles, handles, spared.scheduler, spared.globals, spared.mainThread]
  exact same ▸ spared.leaks

/-- However a call ends, the counts are right for the handles and for what was left behind. -/
theorem Call.leaks {c : Call} (x : Leaks 0 m.handles m.heap) (few : m.Few) :
    Ends (fun _ m' => Leaks 0 m'.handles m'.heap) c.perform m fun _ m' =>
    Leaks 0 m'.handles m'.heap := by
  obtain ⟨L, x⟩ := x
  obtain ⟨n, room, has⟩ := few.has x
  have fails : ∀ e : Fault, ∀ m', Spared m m.handles m' → Leaks 0 m'.handles m'.heap :=
    fun _ _ spared =>
    spared.leaks_handles
  cases c with
  | load program => exact (has.load.weaken fails).mono fun _ _ has => has.leaks
  | step => exact Ends.bind (has.step room |>.weaken fails) fun _ _ ⟨_, _, has⟩ => .pure has.leaks
  | run budget =>
      exact Ends.bind (has.run room |>.weaken fails) fun _ _ ⟨_, _, has⟩ => .pure has.leaks
  | collect => exact Ends.bind has.collect.ends fun _ _ ⟨_, _, has⟩ => .pure has.leaks

theorem Used.leaks (used : Used m) : Leaks 0 m.handles m.heap := by
  induction used with
  | new made => exact ⟨0, by rw [zero_add]; exact new_accounted made⟩
  | call c used few run ih =>
    rcases Call.leaks (c := c) ih few with ⟨_, _, ended, x⟩ | ⟨_, _, failed, x⟩
    · rcases run with run | ⟨e, run⟩
      · rw [run] at ended
        cases ended
        exact x
      · rw [run] at ended
        cases ended
    · rcases run with run | ⟨e, run⟩
      · rw [run] at failed
        cases failed
      · rw [run] at failed
        cases failed
        exact x

/-! ## Teardown -/

/-- A machine that is torn down after any calls, whether they succeeded or failed, drops its handles
and is left without records, and all words of its pool are free. -/
theorem Used.teardown_empties (used : Used m) : ∃ m', teardown m = .ok () m' ∧
    (∀ a, m'.heap.isLive a = false) ∧ m'.heap.freeWords = m'.heap.capacity := by
  obtain ⟨L, x⟩ := used.leaks
  have order : L + m.handles = m.scheduler ::ₘ m.mainThread ::ₘ m.globals ::ₘ L := by
    simp only [handles, Multiset.insert_eq_cons, ← Multiset.singleton_add]
    abel
  rw [order] at x
  obtain ⟨h₁, freed₁, x, -⟩ := x.free
  obtain ⟨h₂, freed₂, x, -⟩ := x.free
  obtain ⟨h₃, freed₃, x, -⟩ := x.free
  obtain ⟨k, h₄, swept, dead, free⟩ := x.collects_all
  let m₀ : Machine := { m with scheduler := .nil, mainThread := .nil, globals := .nil }
  refine ⟨{ m₀ with heap := h₄ }, ?_, dead, free⟩
  refine bind_ok.2 ⟨m, m, get_ok.2 ⟨rfl, rfl⟩, bind_ok.2 ⟨⟨⟩, m₀, set_ok.2 rfl, ?_⟩⟩
  refine bind_ok.2 ⟨(), { m₀ with heap := h₁ }, liftHeap_ok freed₁, ?_⟩
  refine bind_ok.2 ⟨(), { m₀ with heap := h₂ }, liftHeap_ok freed₂, ?_⟩
  refine bind_ok.2 ⟨(), { m₀ with heap := h₃ }, liftHeap_ok freed₃, ?_⟩
  exact bind_ok.2 ⟨k, { m₀ with heap := h₄ }, liftHeap_ok swept, rfl⟩

/-- A program that does nothing. -/
def idleProgram : Program :=
  ⟨[], [.func { name := "main", params := [], result := none, body := [] }]⟩

/-- How much memory is missing where loading fails, and the records there are then. -/
def shortRun : Option (Nat × Nat × Nat) :=
  match new { heapWords := 256 } with
  | .error _ => none
  | .ok m₀ => match load idleProgram m₀ with
    | .error (.heap (.outOfMemory k free)) m₁ => some (k, free, m₁.heap.liveCount)
    | _ => none

/-- A machine without the memory for a program that does nothing: loading it fails when records of
the program have been made, and they are gone after teardown. -/
theorem emptied_after_failure : ∃ m₀ m₁ m₂ : Machine, new { heapWords := 256 } = .ok m₀ ∧
    load idleProgram m₀ = .error (.heap (.outOfMemory 3 0)) m₁ ∧ m₁.heap.liveCount = 32 ∧
    teardown m₁ = .ok () m₂ ∧ (∀ a, m₂.heap.isLive a = false) ∧
    m₂.heap.freeWords = m₂.heap.capacity := by
  have ran : shortRun = some (3, 0, 32) := by decide +kernel
  unfold shortRun at ran
  split at ran
  · cases ran
  next m₀ made =>
  split at ran
  next k free m₁ failed =>
    obtain ⟨rfl, rfl, live⟩ : k = 3 ∧ free = 0 ∧ m₁.heap.liveCount = 32 := by simpa using ran
    have used : Used m₁ := .call (.load idleProgram) (.new made) (new_accounted made).few
      (.inr ⟨_, failed⟩)
    obtain ⟨m₂, torn, dead, free⟩ := used.teardown_empties
    exact ⟨m₀, m₁, m₂, made, failed, live, torn, dead, free⟩
  · cases ran

end Machine
end GoMachine
