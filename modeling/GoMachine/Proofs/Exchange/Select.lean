import GoMachine.Proofs.Exchange.Operations
/-!
# What a select does

The cases are tried in an order. An attempt that fails may take stale instances off a queue, which
is not seen, so every case is tried on the same scene.

* `At.tryInOrder`: the first case that can proceed does.
* `At.select`: the outcome of a `select` and the scene after it.
-/
namespace GoMachine

variable {σ : Parties} {place : Part → Address} {I : Stage} {X Y : List Address}
  {O : Multiset Address} {n : Nat} {h : Heap} {t w structs : Address} {c : Case} {cases : List Case}

/-- Nobody waits to receive while there are values. -/
def Scene.Drained (M : Scene) : Prop := ∀ ch, (M.channel ch).receivers ≠ [] →
    (M.channel ch).buffer = []

namespace At

theorem tryCase (stands : At σ place I X Y (n + 8) O h) (knows : σ.Knows c.channel)
    (ht : t ∈ σ.threads)
    (drained : I.scene.Drained) :
    Yields (Select.tryCase t structs σ.scheduler c) h fun r h' =>
    ∃ J, At σ place J X Y (n + 8) O h' ∧
      ((r = true ∧ I.scene.Ready c ∧ ∃ zero, J.scene = I.scene.complete t zero c) ∨
        (r = false ∧ ¬I.scene.Ready c ∧ J.scene = I.scene)) := by
  rcases knows with absent | hc
  · have idle : Select.tryCase t structs σ.scheduler c = pure false := by
      cases c <;> exact if_pos absent
    rw [idle]
    exact .pure ⟨I, stands, .inr ⟨rfl, fun ready => ready.1 absent, rfl⟩⟩
  · have real := stands.channel_ne_nil hc
    have is_real : ¬c.channel.isNil = true := by simp [real]
    cases c with
    | send ch v body =>
      replace real : ch.isNil = false := real
      unfold Select.tryCase
      simp only [real, Bool.false_eq_true, if_false]
      refine (stands.trySend hc (drained ch)).bind fun r h₁ ⟨_, J, at₁, came⟩ => .pure ⟨J, at₁, ?_⟩
      rcases came with ⟨rfl, can, seen⟩ | ⟨rfl, cannot, seen⟩
      · exact .inl ⟨by simp, ⟨is_real, can⟩, .nil, seen⟩
      · exact .inr ⟨by simp, fun ready => cannot ready.2, seen⟩
    | receive ch body =>
      replace real : ch.isNil = false := real
      unfold Select.tryCase
      simp only [real, Bool.false_eq_true, if_false]
      refine (stands.tryRecv hc ht).bind fun r h₁ ⟨J, at₁, came⟩ => .pure ⟨J, at₁, ?_⟩
      rcases came with ⟨rfl, can, seen⟩ | ⟨rfl, cannot, seen⟩
      · exact .inl ⟨by simp, ⟨is_real, can⟩, seen⟩
      · exact .inr ⟨by simp, fun ready => cannot ready.2, seen⟩

theorem tryInOrder (known : ∀ c ∈ cases, σ.Knows c.channel) (ht : t ∈ σ.threads)
    {order : List Nat} :
    ∀ {I h}, At σ place I X Y (n + 8) O h → I.scene.Drained →
    Yields (Select.tryInOrder cases t structs σ.scheduler order) h fun r h' =>
      ∃ J, At σ place J X Y (n + 8) O h' ∧
      ((∃ i c zero, r = some i ∧ i ∈ order ∧ cases[i]? = some c ∧ I.scene.Ready c ∧
          J.scene = I.scene.complete t zero c) ∨
        (r = none ∧ (∀ i ∈ order, ∀ c, cases[i]? = some c → ¬I.scene.Ready c) ∧
        J.scene = I.scene)) := by
  induction order with
  | nil => exact fun stands _ => .pure ⟨_, stands, .inr ⟨rfl, by simp, rfl⟩⟩
  | cons i order ih =>
    intro I h stands drained
    unfold Select.tryInOrder
    cases hc : cases[i]? with
    | none =>
      refine (ih stands drained).mono fun r h' ⟨J, at₁, came⟩ => ⟨J, at₁, ?_⟩
      rcases came with ⟨j, c, zero, e, hj, rest⟩ | ⟨e, stuck, seen⟩
      · exact .inl ⟨j, c, zero, e, List.mem_cons_of_mem i hj, rest⟩
      · exact .inr ⟨e, List.forall_mem_cons.2 ⟨by simp [hc], stuck⟩, seen⟩
    | some c =>
      refine (stands.tryCase (known c (List.mem_of_getElem? hc)) ht drained).bind
        fun r h₁ ⟨J, at₁, came⟩ => ?_
      rcases came with ⟨rfl, ready, zero, seen⟩ | ⟨rfl, cannot, seen⟩
      · exact .pure ⟨J, at₁, .inl ⟨i, c, zero, rfl, by simp, hc, ready, seen⟩⟩
      · refine (ih at₁ (seen ▸ drained)).mono fun r h' ⟨J', at₂, came⟩ => ⟨J', at₂, ?_⟩
        rw [seen] at came
        rcases came with ⟨j, c', zero, e, hj, rest⟩ | ⟨e, stuck, seen'⟩
        · exact .inl ⟨j, c', zero, e, List.mem_cons_of_mem i hj, rest⟩
        · refine .inr ⟨e, List.forall_mem_cons.2 ⟨fun c' hc' => ?_, stuck⟩, seen'⟩
          rw [hc, Option.some_inj] at hc'
          exact hc' ▸ cannot

/-- A thread is left to the queue of a case. -/
theorem leave (stands : At σ place I X Y (n + 1) O h) (hw : w ∈ Y)
    (awake : (I.thread w).isNil = false)
    (knows : σ.Knows c.channel) :
    Yields (Select.register w c) h fun _ h' => ∃ J, At σ place J X Y (n + 1) O h' ∧
      J.thread = I.thread ∧ J.scene = I.scene.register w (I.thread w) c := by
  rcases knows with absent | hc
  · have idle : Select.register w c = pure () ∧ I.scene.register w (I.thread w) c = I.scene := by
      cases c <;> exact ⟨if_pos absent, if_pos absent⟩
    rw [idle.1, idle.2]
    exact .pure ⟨I, stands, rfl, rfl⟩
  · have real := stands.channel_ne_nil hc
    have hp : σ.Has c.part := by
      cases c <;> exact hc
    have hq : ∀ l, c.part.shape l = .queue l := by
      cases c <;> exact fun _ => rfl
    have an := stands.choose_spec.2.2
    have left_ : Yields (do
      Queue.enqueueOwned (place c.part) (← Waiting.create w c.value c.body) : Action Unit)
        h fun _ h' => ∃ J, At σ place J X Y (n + 1) O h' ∧ J.thread = I.thread ∧
        J.scene = I.scene.register w (I.thread w) c := by
      refine (stands.newInstance hw).bind fun i h₁ ⟨fresh, at₁⟩ => ?_
      refine (at₁.enqueueOwned hp hq (fun _ => by simp) (List.subset_cons_self i X) an).mono
        fun _ _ at₂ => ⟨_, at₂, rfl, ?_⟩
      exact Stage.scene_register real (fun p hp hi => fresh i (stands.tracks hi hp) rfl) awake
    cases c with
    | send ch v body =>
      replace real : ch.isNil = false := real
      unfold Select.register
      simp only [real, Bool.false_eq_true, if_false]
      exact .known (stands.slots hc).2.1 left_
    | receive ch body =>
      replace real : ch.isNil = false := real
      unfold Select.register
      simp only [real, Bool.false_eq_true, if_false]
      exact .known (stands.slots hc).2.2 left_

theorem leaveAll (hw : w ∈ Y) : ∀ {cases : List Case} {I h}, At σ place I X Y (n + 1) O h →
    (I.thread w).isNil = false → (∀ c ∈ cases, σ.Knows c.channel) →
    Yields (cases.forM (Select.register w)) h fun _ h' => ∃ J, At σ place J X Y (n + 1) O h' ∧
      J.scene = I.scene.park w (I.thread w) cases
  | [], I, h, stands, awake, known => .pure ⟨I, stands, rfl⟩
  | c :: cases, I, h, stands, awake, known => by
    refine (stands.leave hw awake (known c (by simp))).bind fun _ h₁ ⟨J, at₁, same, seen⟩ => ?_
    refine (leaveAll hw at₁ (same ▸ awake) fun c hc => known c (by simp [hc])).mono
      fun _ _ ⟨J', at₂, seen'⟩ => ⟨J', at₂, ?_⟩
    rw [seen', seen, same]
    rfl

/-- Running a `select`. -/
theorem select (stands : At σ place I X Y (n + 8) O h) (known : ∀ c ∈ cases, σ.Knows c.channel)
    (ht : t ∈ σ.threads) (drained : I.scene.Drained) {order : List Nat}
    (all : ∀ i, i < cases.length → i ∈ order) {hasDefault : Bool} :
    Yields (Select.run cases order hasDefault t structs σ.scheduler) h fun r h' =>
      ∃ J, At σ place J X Y (n + 8) O h' ∧
      ((∃ i c zero, r = .ready i ∧ cases[i]? = some c ∧ I.scene.Ready c ∧
          J.scene = I.scene.complete t zero c) ∨
        ((∀ c ∈ cases, ¬I.scene.Ready c) ∧ ((hasDefault = true ∧ r = .default ∧ J.scene = I.scene) ∨
          (hasDefault = false ∧ r = .blocked ∧ ∃ w, I.scene.Unused w ∧
            J.scene = I.scene.park w t cases)))) := by
  have room := stands.spare
  have an := stands.choose_spec.2.2
  refine (tryInOrder known ht stands drained).bind fun r h₁ ⟨J, at₁, came⟩ => ?_
  rcases came with ⟨i, c, zero, rfl, -, hc, ready, seen⟩ | ⟨rfl, stuck, seen⟩
  · exact .pure ⟨J, at₁, .inl ⟨i, c, zero, rfl, hc, ready, seen⟩⟩
  · have unready : ∀ c ∈ cases, ¬I.scene.Ready c := by
      intro c hc
      obtain ⟨i, lt, rfl⟩ := List.getElem_of_mem hc
      exact stuck i (all i lt) _ (List.getElem?_eq_getElem lt)
    cases hasDefault with
    | true => exact .pure ⟨J, at₁, .inr ⟨unready, .inl ⟨rfl, rfl, seen⟩⟩⟩
    | false =>
      simp only [Bool.false_eq_true, if_false]
      refine (at₁.newWaker ht).bind fun w h₂ ⟨fresh, at₂⟩ => ?_
      obtain ⟨same, unused⟩ := at₁.scene_addWaker (t := t) fresh
      have thread : (J.addWaker w t).thread w = t := Function.update_self ..
      refine Yields.bind (Q := fun _ h₃ => ∃ J', At σ place J' X Y (n + 8) O h₃ ∧
        J'.scene = J.scene.park w t cases) ?_ fun _ h₃ ⟨J', at₃, seen'⟩ =>
          .pure ⟨J', at₃, .inr ⟨unready, .inr ⟨trivial, rfl, w, seen ▸ unused, seen ▸ seen'⟩⟩⟩
      refine (leaveAll (w := w) (by simp) at₂
        (thread.symm ▸ stands.thread_ne_nil ht) known).afterwards
        fun _ h₃ ⟨J', at₃, seen'⟩ => ?_
      rw [thread, same] at seen'
      exact (at₃.free (List.Subset.refl X) (List.subset_cons_self w Y) an).mono
        fun _ _ at₄ => ⟨J', at₄, seen'⟩

end At
end GoMachine
