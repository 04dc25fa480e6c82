import GoMachine.Proofs.Tasks.Channels
/-!
# Locks

A lock is led to by pointers and variables, which are known on the way (`Knows.follow`) so that the
lock does not go away before its queue is used.
-/
namespace GoMachine

/-- The tags of records that stay as they are while a lock is used: those that no turn writes, and
those that lead to the lock. -/
def Tag.keptByLocks (t : Tag) : Bool := t.keptByTurns || t ∈ [.pointer, .variable]

abbrev Known.KeptByLocks := Known.Only Tag.keptByLocks

variable {ρ : Roles} {k : Known} {σ σ' : Address → Task} {n m : Nat} {O : Multiset Address}
  {h h' : Heap} {a b l q t s : Address} {D : Body} {fs : List UInt64} {cs : List Address} {i : Nat}
  {x : LockKind}

instance [k.KeptByTurns] : k.KeptByLocks where
  only h := by
    have := Known.Only.only (p := Tag.keptByTurns) h
    simp [Tag.keptByLocks, this]

instance [k.KeptByLocks] : k.KeptByWaking where
  only h := by
    have := Known.Only.only (p := Tag.keptByLocks) h
    simp only [Tag.keptByLocks, Bool.or_eq_true, decide_eq_true_eq, List.mem_cons, List.not_mem_nil,
      or_false] at this
    rcases this with fixed | e | e
    · simp only [Tag.keptByTurns, Tag.keptByValues, Bool.and_eq_true] at fixed
      exact fixed.1.1.1.1
    · rw [e]
      rfl
    · rw [e]
      rfl

theorem Known.Keeps.mono {k' : Known} (kept : k.Keeps a) (within : k.Within k')
    (stays : k'.stays = k.stays) :
    k'.Keeps a := by
  rcases kept with rfl | kept | ⟨d, D, hd, hm⟩
  · exact .inl rfl
  · exact .inr (.inl (stays ▸ kept))
  · exact .inr (.inr ⟨d, D, within.facts hd, hm⟩)

namespace Knows

/-- What pointers and variables lead to is kept when they are known. -/
theorem followTo : ∀ {m : Nat} {k : Known} {a : Address}, k.KeptByLocks → Knows k σ n O h →
    k.Keeps a →
    Pointer.followTo m a h = .ok b → ∃ k' : Known, k'.KeptByLocks ∧ Knows k' σ n O h ∧ k.Within k' ∧
      k'.stays = k.stays ∧ k'.Keeps b
  | 0, k, a, leads, g, kept, run => by
    obtain rfl := query_pure_ok.1 run
    exact ⟨k, leads, g, ⟨.refl, List.Subset.refl _⟩, rfl, kept⟩
  | m + 1, k, a, leads, g, kept, run => by
    have step : ∀ {tag i c}, Query.child a tag i h = .ok c → tag ∈ [Tag.pointer, .variable] →
        Pointer.followTo m c h = .ok b → ∃ k' : Known, k'.KeptByLocks ∧ Knows k' σ n O h ∧
        k.Within k' ∧
          k'.stays = k.stays ∧ k'.Keeps b := by
      intro tag i c read here run
      obtain ⟨D, hD, rfl, hc⟩ := g.sound.child_read read
      have within := g.within_learn hD
      obtain ⟨k', leads', g', within', stays, kept'⟩ :=
        followTo (.learn (by simp [Tag.keptByLocks, here]))
        (g.learn hD kept) (.inr (.inr ⟨a, D, by simp [Known.learn], List.mem_of_getElem? hc⟩)) run
      exact ⟨k', leads', g', ⟨within.facts.trans within'.facts, fun x hx =>
        within'.notes (within.notes hx)⟩, stays,
        kept'⟩
    obtain ⟨tag, tagged, run⟩ := query_bind_ok.1 run
    split at run
    · obtain ⟨c, read, run⟩ := query_bind_ok.1 run
      obtain ⟨_, tagged', read⟩ := query_bind_ok.1 read
      rw [tagged, Except.ok.injEq] at tagged'
      subst tagged'
      exact step read (by simp) run
    · obtain ⟨c, read, run⟩ := query_bind_ok.1 run
      obtain ⟨_, -, read⟩ := query_bind_ok.1 read
      exact step read (by simp) run
    · obtain rfl := query_pure_ok.1 run
      exact ⟨k, leads, g, ⟨.refl, List.Subset.refl _⟩, rfl, kept⟩

section

variable [k.KeptByLocks]

/-- The queue of a lock stays what it is while the lock is known. -/
theorem waiters (hx : x.tag.isLock) {α : Type} {y : Action α} {K : α → Multiset Address} {N : Nat}
    {Q : α → (Address → Task) → Prop} (g : Knows k σ n O h) (kept : k.Keeps l)
    (read : x.waiters l h = .ok q)
    (hy : ∀ {k' : Known}, k'.KeptByWaking → k.Within k' → k'.stays = k.stays → k'.Serves q .wakers →
    Knows k' σ n O h →
      Yields y h fun r h' => ∃ σ', Knows k' σ' N (K r) h' ∧ Q r σ') :
    Yields y h fun r h' => ∃ σ', Knows k σ' N (K r) h' ∧ Q r σ' := by
  obtain ⟨D, hD, tag, hq⟩ := g.sound.child_read read
  refine g.knowing (Q := fun r σ' _ => Q r σ') hD kept fun g' =>
    hy (.learn ?_) (g.within_learn hD) rfl ⟨l, D, 0, by
      simp [Known.learn], ?_, hq, fun ρ slot => ?_⟩ g'
  · rw [tag]
    revert hx
    cases x.tag <;> intro hx <;> first | rfl | cases hx
  · rw [tag]
    exact Tag.isPlain_of_isLock hx
  · rw [tag] at slot
    revert hx slot
    cases x.tag <;> intro hx slot <;> first | exact slot | cases hx

variable (ht : k.facts t = some ⟨.thread, fs, cs⟩) (kept' : k.Keeps t) (free : (σ t).place = none)

include ht kept' free

/-- The running thread is left to the queue of a lock. -/
theorem park (hx : x.tag.isLock) (g : Knows k σ (n + 2) O h) (kept : k.Keeps l) :
    Yields (x.park l t) h fun _ h' => ∃ σ', Knows k σ' (n + 2) O h' ∧
      ∃ τ, σ' = Function.update σ t τ ∧ (σ t).Settles .turn τ := by
  refine .read fun q read => g.waiters hx kept read fun {k'} byWaking within stays serves g' => ?_
  refine Yields.bind (Q := fun _ h' => ∃ w, Knows k' (Function.update σ t ((σ t).parked .turn w))
    (n + 2) O h') ?_
    fun _ h₁ ⟨w, g₁⟩ => .pure ⟨_, g₁, _, rfl, .parks⟩
  refine ((g'.weaken (Nat.le_succ _)).waker (y := .turn) (kept'.mono within stays)
    (g'.thread (within.facts ht))
    free).bind fun w h₁ ⟨within', g₁⟩ => ?_
  have serves : (k'.withWaker w .turn t).Serves q .wakers := by
    obtain ⟨a, D, i, ha, rest⟩ := serves
    exact ⟨a, D, i, within'.facts ha, rest⟩
  obtain ⟨ρ, seen, noted, role⟩ := g₁.serves serves
  refine ((g₁.unwaker within' g'.wf).enqueueOwned (c := .wakers) rfl (by simp) ⟨ρ, seen,
    fun x hx => noted x (List.mem_cons_of_mem _ hx), role, .inr ?_⟩).mono fun _ _ g₂ =>
    ⟨w, g'.restore g₂⟩
  exact noted (w, _) (List.mem_cons_self ..)

omit kept' in
/-- The running thread goes on. -/
theorem grant (g : Knows k σ (n + 2) O h) :
    Yields (LockKind.grant t s) h fun _ h' => ∃ σ', Knows k σ' (n + 2) O h' ∧
      ∃ τ, σ' = Function.update σ t τ ∧ (σ t).Settles .turn τ :=
  (g.enqueue (g.thread ht) free).bind fun _ _ ⟨_, g'⟩ => .pure ⟨_, g', _, rfl, .goes⟩

theorem lock_mutex (g : Knows k σ (n + 2) O h) (kept : k.Keeps l) :
    Yields (Mutex.lock l t s) h fun _ h' => ∃ σ', Knows k σ' (n + 2) O h' ∧
      ∃ τ, σ' = Function.update σ t τ ∧ (σ t).Settles .turn τ := by
  refine .read fun locked _ => ?_
  split
  · exact g.park ht kept' free rfl kept
  · refine (g.setField rfl (k.other Tag.keptByLocks rfl)).heap.bind fun _ h₁ g₁ => g₁.grant ht free

theorem wait_group (g : Knows k σ (n + 2) O h) (kept : k.Keeps l) :
    Yields (WaitGroup.wait l t s) h fun _ h' => ∃ σ', Knows k σ' (n + 2) O h' ∧
      ∃ τ, σ' = Function.update σ t τ ∧ (σ t).Settles .turn τ := by
  refine .read fun count _ => ?_
  split
  · exact g.grant ht free
  · exact g.park ht kept' free rfl kept

omit ht kept' free

/-- The first thread that waits for a lock is woken. -/
theorem unlock_mutex (g : Knows k σ (n + 4) O h) (kept : k.Keeps l) :
    Yields (Mutex.unlock l s) h fun _ h' => ∃ σ', Knows k σ' (n + 4) O h' ∧ Passes σ σ' := by
  refine .read fun locked _ => .guard fun _ => .read fun q read => ?_
  refine (g.waiters (x := LockKind.mutex) (Q := fun _ σ' => Passes σ σ') rfl kept read
    fun byWaking _ _ serves g' => g'.wakeOne serves).bind fun woken h₁ ⟨σ', g₁, passes⟩ => ?_
  split
  · exact (g₁.setField rfl (k.other Tag.keptByLocks rfl)).heap.mono fun _ _ g₂ => ⟨σ', g₂, passes⟩
  · exact .pure ⟨σ', g₁, passes⟩

/-- The threads that wait for a group are woken when nothing is left. -/
theorem add_group {delta : Int64} (g : Knows k σ (n + 4) O h) (kept : k.Keeps l) :
    Yields (WaitGroup.add l delta s) h fun _ h' => ∃ σ', Knows k σ' (n + 4) O h' ∧ Passes σ σ' := by
  refine .read fun count _ => .guard fun _ =>
    (g.setField rfl (k.other Tag.keptByLocks rfl)).heap.bind fun _ h₁ g₁ => ?_
  split
  · refine .read fun q read =>
      (g₁.waiters (x := LockKind.waitGroup) (Q := fun _ σ' => Passes σ σ') rfl kept read
      fun byWaking _ _ serves g' => g'.wakeAll serves).bind fun _ h₂ e => .pure e
  · exact .pure ⟨σ, g₁, .refl⟩

end

end Knows
end GoMachine
