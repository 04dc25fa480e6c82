import GoMachine.Proofs.Tasks.Waits
/-!
# Waking

A queue that stands in the slot of a record which is known stays what it is (`Known.Serves`). What
is taken off such a queue is woken, or gets what it waits for.

* `Knows.deliver`: what the thread of a waiting instance gets when its operation completes.
* `Knows.wakeAll`: what becomes of threads that wait for a lock.
-/
namespace GoMachine

variable {ρ : Roles} {k : Known} {σ σ' : Address → Task} {n : Nat} {O : Multiset Address}
  {h : Heap} {a b q t v w s inst : Address} {B D E : Body} {c : Class} {y : Wait} {j : Side}
  {r : Role}

/-- A queue of some class stands in a record that is known. -/
def Known.Serves (k : Known) (q : Address) (c : Class) : Prop :=
  ∃ a D i, k.facts a = some D ∧ D.tag.isPlain ∧ D.children[i]? = some q ∧
    ∀ ρ : Roles, LooseSlot ρ q D.tag i → ρ q = .holder c

/-- How many values a thread gets. -/
def Side.values : Side → Nat
  | .send => 0
  | .receive => 1

/-- What becomes of a thread whose operation completes. -/
theorem Completes.woken {body i z : Address} {vs : List Address} (completes : Completes ρ w body j)
    (values : vs.length = j.values) : ∃ y es, ρ w = .waker y ∧
    (body = .nil ∧ es = [] ∨ ∃ c, es = [⟨body, c⟩]) ∧
      (∀ e ∈ es, ρ e.node = .code e.code) ∧ ∀ {τ : Task} {x}, τ.waits = some y →
        (i, z, body) ∈ τ.offers →
        τ.Woken { τ with
          control := es ++ τ.control, stash := vs ++ τ.stash
          waits := none, place := some x, queued := true } := by
  cases j with
  | send =>
    obtain rfl : vs = [] := List.length_eq_zero_iff.1 values
    rcases completes with ⟨absent, role⟩ | ⟨role, c, role', runs⟩
    · exact ⟨_, [], role, .inl ⟨absent, rfl⟩, by simp, fun h _ => .turn h⟩
    · exact ⟨_, [⟨body, c⟩], role, .inr ⟨c, rfl⟩, by simpa, fun h => .sent h runs⟩
  | receive =>
    obtain ⟨v, rfl⟩ := List.length_eq_one_iff.1 values
    rcases completes with ⟨absent, role⟩ | ⟨role, c, role', runs⟩
    · exact ⟨_, [], role, .inl ⟨absent, rfl⟩, by simp, fun h offers => .value h (absent ▸ offers)⟩
    · exact ⟨_, [⟨body, c⟩], role, .inr ⟨c, rfl⟩, by simpa, fun h => .received h runs⟩

namespace Knows

theorem serves (g : Knows k σ n O h) (hq : k.Serves q c) :
    k.Finds σ h fun ρ => q = .nil ∨ ρ q = .holder c := by
  obtain ⟨a, D, i, ha, plain, hi, served⟩ := hq
  obtain ⟨ρ, seen, noted⟩ := g.sees
  have conf := seen.conforms (g.body ha)
  have slot := conf.slot hi
  rw [conf.loose plain] at slot
  exact ⟨ρ, seen, noted, slot.imp_right (served ρ)⟩

theorem within_learn (g : Knows k σ n O h) (ha : h.body? a = some D) : k.Within (k.learn a D) := by
  refine ⟨fun b B hb => ?_, List.Subset.refl _⟩
  by_cases e : b = a
  · subst e
    obtain rfl : D = B := by simpa [ha] using g.body hb
    simp [Known.learn]
  · simpa [Known.learn, Function.update_of_ne e] using hb

/-! ## Threads that wait for locks -/

theorem wakeAmong [k.KeptByWaking] (hq : k.Serves q .wakers) :
    ∀ {m : Nat} {σ : Address → Task} {h : Heap},
    Knows k σ (n + 4) O h → Yields (Waker.wakeAmong q s m) h fun _ h' =>
      ∃ σ', Knows k σ' (n + 4) O h' ∧ Passes σ σ'
  | 0, σ, _, g => .pure ⟨σ, g, .refl⟩
  | m + 1, σ, h, g => by
    refine (g.dequeue rfl (by simp) (g.serves hq)).bind fun w h₁ came => ?_
    rcases came with ⟨rfl, g₁⟩ | ⟨notNil, g₁, takes⟩
    · exact .pure ⟨σ, g.restore g₁, .refl⟩
    rw [if_neg (by rwa [Address.isNil_iff])]
    refine (Yields.afterwards (R := fun _ h' => ∃ σ', Knows k σ' (n + 4) O h' ∧ Passes σ σ')
      (g₁.wake takes)
      fun _ h₂ ⟨D, t, _, _, woken⟩ => ?_).bind fun woken h₂ ⟨σ', g₂, passes⟩ => ?_
    · rcases woken with ⟨-, g₂⟩ | ⟨-, waits, x, g₂⟩
      · exact g₂.free.mono fun _ _ g₃ => ⟨σ, g.restore g₃, .refl⟩
      · exact g₂.free.mono fun _ _ g₃ => ⟨_, g.restore g₃, .update (.inr (.turn waits))⟩
    · split
      · exact .pure ⟨σ', g₂, passes⟩
      · exact (wakeAmong hq g₂).mono fun _ _ ⟨σ'', g₃, passes'⟩ => ⟨σ'', g₃, passes.trans passes'⟩

theorem wakeOne [k.KeptByWaking] (hq : k.Serves q .wakers) (g : Knows k σ (n + 4) O h) :
    Yields (Waker.wakeOne q s) h fun _ h' => ∃ σ', Knows k σ' (n + 4) O h' ∧ Passes σ σ' :=
  .get (g.wakeAmong hq)

theorem wakeUpTo [k.KeptByWaking] (hq : k.Serves q .wakers) :
    ∀ {m : Nat} {σ : Address → Task} {h : Heap},
    Knows k σ (n + 4) O h → Yields (Waker.wakeUpTo q s m) h fun _ h' =>
      ∃ σ', Knows k σ' (n + 4) O h' ∧ Passes σ σ'
  | 0, σ, _, g => .pure ⟨σ, g, .refl⟩
  | m + 1, σ, h, g => by
    refine (g.wakeOne hq).bind fun woken h₁ ⟨σ₁, g₁, passes⟩ => ?_
    split
    · refine (wakeUpTo hq g₁).bind fun _ h₂ ⟨σ₂, g₂, passes'⟩ =>
        .pure ⟨σ₂, g₂, passes.trans passes'⟩
    · exact .pure ⟨σ₁, g₁, passes⟩

theorem wakeAll [k.KeptByWaking] (hq : k.Serves q .wakers) (g : Knows k σ (n + 4) O h) :
    Yields (Waker.wakeAll q s) h fun _ h' => ∃ σ', Knows k σ' (n + 4) O h' ∧ Passes σ σ' :=
  .get (g.wakeUpTo hq)

/-! ## Threads that wait for channels -/

/-- The value that waits to be sent is taken out of its instance. -/
theorem takeValue [k.KeptByWaking] (g : Knows k σ (n + 1) O h)
    (role : (inst, .waiting j) ∈ k.notes) :
    Yields (Waiting.takeValue inst) h fun v h' => Knows k σ n (v ::ₘ O) h' := by
  refine (g.toRetains.takeChild (k.other Tag.keptByWaking rfl)).heap.mono
    fun v h' ⟨g', D, ha, tag, hv, e⟩ =>
    g.still g' fun ρ seen noted => ?_
  have role : ρ inst = _ := noted _ role
  have conf := seen.conforms ha
  have whole := conf.whole
  rw [role] at whole
  obtain ⟨w, value, body, kids, completes⟩ := whole
  rw [e]
  refine seen.write_still ha (conf.set (.inl rfl) ?_) (by rw [role]; rfl) (by simp [role])
    (by simp [role, Role.IsQueue])
    (.inl (List.getElem?_set_ne (by decide))) ⟨fun _ _ => ⟨?_, ?_⟩, by simp [role]⟩
  · rw [role]
    exact ⟨w, .nil, body, by rw [kids]; rfl, completes⟩
  all_goals exact List.getElem?_set_ne (by decide)

/-- The first instance whose thread waits still, if there is any. -/
theorem firstAmong [k.KeptByChains] (hq : k.Serves q (.waiting j)) : ∀ {m : Nat} {h : Heap},
    Knows k σ (n + 4) O h → Yields (Waiting.firstAmong q m) h fun inst h' =>
      inst = .nil ∧ Knows k σ (n + 3) O h' ∨
        inst ≠ .nil ∧ Knows (k.own inst (.waiting j)) σ (n + 3) O h'
  | 0, _, g => .pure (.inl ⟨rfl, g.weaken (Nat.le_succ _)⟩)
  | m + 1, h, g => by
    refine (g.dequeue rfl (by simp) (g.serves hq)).bind fun inst h₁ came => ?_
    rcases came with ⟨rfl, g₁⟩ | ⟨notNil, g₁, takes⟩
    · exact .pure (.inl ⟨rfl, g₁⟩)
    rw [if_neg (by rwa [Address.isNil_iff])]
    refine .read fun stale _ => ?_
    split
    · exact .pure (.inr ⟨notNil, g₁.own takes⟩)
    · exact g₁.free.heap.bind fun _ h₂ g₂ => firstAmong hq (g.restore g₂)

theorem firstLive [k.KeptByChains] (hq : k.Serves q (.waiting j)) (g : Knows k σ (n + 4) O h) :
    Yields (Waiting.firstLive q) h fun inst h' => inst = .nil ∧ Knows k σ (n + 3) O h' ∨
      inst ≠ .nil ∧ Knows (k.own inst (.waiting j)) σ (n + 3) O h' :=
  .get (firstAmong hq g)

/-- What is known of the thread of a waker. -/
theorem waiter (g : Knows k σ n O h) (hw : k.facts w = some E) (role : (w, .waker y) ∈ k.notes)
    (ht : E.children[0]? = some t) (notNil : t ≠ .nil) :
    (∃ fs cs, h.body? t = some ⟨.thread, fs, cs⟩) ∧ (σ t).waits = some y := by
  obtain ⟨ρ, seen, noted⟩ := g.sees
  have role : ρ w = _ := noted _ role
  have hw := g.body hw
  have slot := ((seen.conforms hw).slot ht).resolve_left notNil
  rw [role] at slot
  have thread : ρ t = .thread := slot
  obtain ⟨T, hT⟩ := Option.ne_none_iff_exists'.1
    ((g.closed w E t hw (List.mem_of_getElem? ht)).resolve_left notNil)
  have tagged := (seen.conforms hT).tagged
  rw [thread] at tagged
  refine ⟨⟨T.fields, T.children, ?_⟩, (seen.place hw ht notNil (by rw [role]; rfl)).2⟩
  rw [hT, ← show T.tag = .thread from tagged]

/-- What is known besides `k` of an instance whose operation completes: what it and its waker say,
what the waker is for, and which entries come from the body. -/
structure Completing (k k' : Known) (inst w body t : Address) (y : Wait) (es : List Entry) :
    Prop where
  within : k.Within k'
  stays : k'.stays = k.stays
  wf : k.Wf
  record : ∃ D v, k'.facts inst = some D ∧ D.children = [w, v, body]
  waker : ∃ E, k'.facts w = some E ∧ E.children[0]? = some t
  noted : (w, .waker y) ∈ k'.notes
  runs : body = .nil ∧ es = [] ∨ ∃ c, es = [⟨body, c⟩] ∧ (body, .code c) ∈ k'.notes

/-- An instance that waits is known together with its waker and its body, and if its thread is still
there it waits for what is done now. -/
theorem completing [k.KeptByWaking] {vs : List Address} (g : Knows k σ n O h)
    (role : (inst, .waiting j) ∈ k.notes) (values : vs.length = j.values)
    (readW : Waiting.waker inst h = .ok w) (readT : Waker.thread w h = .ok t) :
    ∃ k' body y es, k'.KeptByChains ∧ Knows k' σ n O h ∧ Completing k k' inst w body t y es ∧
      (t ≠ .nil → ∀ x, (σ t).Woken { σ t with
        control := es ++ (σ t).control, stash := vs ++ (σ t).stash
        waits := none, place := some x, queued := true }) := by
  obtain ⟨D, hD, tagD, hi⟩ := g.sound.child_read readW
  obtain ⟨E, hE, tagE, hj⟩ := g.sound.child_read readT
  obtain ⟨ρ, seen, noted⟩ := id g.sees
  have roleI : ρ inst = _ := noted _ role
  have whole := (seen.conforms hD).whole
  rw [roleI] at whole
  obtain ⟨w', v, body, kids, completes⟩ := whole
  obtain rfl : w' = w := by simpa [kids] using hi
  obtain ⟨y, es, roleW, es_nodes, es_codes, woken⟩ := completes.woken (i := inst) (z := w') values
  have apart : inst ≠ w' := by
    rintro rfl
    rw [roleI] at roleW
    cases roleW
  let k' := (((k.learn inst D).learn w' E).note w' (.waker y)).note body (ρ body)
  have factI : k'.facts inst = some D := by
    simp [k', Known.note, Known.learn, Function.update_of_ne apart]
  have factW : k'.facts w' = some E := by simp [k', Known.note, Known.learn]
  have noteW : (w', .waker y) ∈ k'.notes := List.mem_cons_of_mem _ (List.mem_cons_self ..)
  have byChains : k'.KeptByChains := by
    have : (k.learn inst D).KeptByChains := .learn (by rw [tagD]; rfl)
    have : ((k.learn inst D).learn w' E).KeptByChains := .learn (by rw [tagE]; rfl)
    infer_instance
  have g₁ : Knows (k.learn inst D) σ _ _ h := g.learn hD (g.kept _ role)
  have g₂ := g₁.learn hE (.inr (.inr ⟨inst, D, by simp [Known.learn], by simp [kids]⟩))
  have g₃ := g₂.note (a := w') (.inr (.inr ⟨inst, D, factI, by simp [kids]⟩))
    ⟨ρ, seen, noted, roleW⟩
  have g₄ : Knows k' σ n O h := g₃.note (a := body) (.inr (.inr ⟨inst, D, factI, by simp [kids]⟩))
    ⟨ρ, seen, fun x hx => (List.mem_cons.1 hx).elim (fun e => e ▸ roleW) (noted x), rfl⟩
  refine ⟨k', body, y, es, byChains, g₄, ⟨⟨?_, fun x hx => ?_⟩, rfl, g.wf, ⟨D, v, factI, kids⟩,
    ⟨E, factW, hj⟩, noteW, ?_⟩, fun notNil x => ?_⟩
  · exact (g.within_learn hD).facts.trans (g₁.within_learn hE).facts
  · exact List.mem_cons_of_mem _ (List.mem_cons_of_mem _ hx)
  · refine es_nodes.imp_right ?_
    rintro ⟨c, e⟩
    have roleB : ρ body = .code c := es_codes ⟨body, c⟩ (by simp [e])
    exact ⟨c, e, roleB ▸ List.mem_cons_self ..⟩
  · refine woken (g₄.waiter factW noteW hj notNil).2 (seen.offered ?_)
    exact ⟨⟨j, roleI⟩, ⟨y, roleW⟩, ⟨D, hD, by rw [kids]; rfl, by rw [kids]; rfl⟩, ⟨E, hE, hj⟩,
      notNil⟩

namespace Completing

variable {k' : Known} {body : Address} {es : List Entry} {i : Nat}

/-- The thread is there as long as something of it can be read, and it waits. -/
theorem alive (c : Completing k k' inst w body t y es) (g : Knows k' σ n O h)
    (read : Query.child t .thread i h = .ok a) :
    t ≠ .nil ∧ ∃ fs cs, h.body? t = some ⟨.thread, fs, cs⟩ ∧ cs[i]? = some a := by
  have notNil : t ≠ .nil := by
    rintro rfl
    obtain ⟨T, hT, -⟩ := g.sound.child_read read
    simp [g.dead] at hT
  obtain ⟨E, factW, hj⟩ := c.waker
  obtain ⟨⟨fs, cs, hT⟩, -⟩ := g.waiter factW c.noted hj notNil
  exact ⟨notNil, fs, cs, hT, (g.sound.child_of_body hT read).2⟩

/-- The value goes on top of the stash. -/
theorem push_value [k'.KeptByChains] (c : Completing k k' inst w body t y es)
    (g : Knows k' σ (n + 1) (v ::ₘ O) h) (read : Thread.stash t h = .ok a) :
    Yields (Stack.pushOwned a v) h fun _ h' => t ≠ .nil ∧
      Knows k' (Function.update σ t { σ t with stash := v :: (σ t).stash }) (n + 1) O h' := by
  obtain ⟨notNil, fs, cs, hT, hst⟩ := c.alive g read
  obtain ⟨ρ, seen, noted⟩ := id g.sees
  refine (g.pushOwned (p := .stash) (τ := { σ t with stash := v :: (σ t).stash }) hT hst
    ⟨ρ, seen, noted, .inr trivial, fun e he => .inl he⟩ rfl (fun q hq => ?_) rfl
    ⟨rfl, rfl, rfl, subset_rfl, rfl⟩).mono fun _ h₁ g₁ => ⟨notNil, g₁⟩
  cases q <;> simp_all [Task.pile]

/-- The body goes on top of the control. -/
theorem push_body [k'.KeptByChains] (c : Completing k k' inst w body t y es)
    (g : Knows k' σ (n + 2) O h) (read : Thread.control t h = .ok a) (there : body ≠ .nil) :
    Yields (Stack.push a body) h fun _ h' => t ≠ .nil ∧
      Knows k' (Function.update σ t { σ t with control := es ++ (σ t).control }) (n + 2) O h' := by
  obtain ⟨b, rfl, noteB⟩ := c.runs.resolve_left fun e => there e.1
  obtain ⟨notNil, fs, cs, hT, hst⟩ := c.alive g read
  refine g.reference.heap.bind fun _ h₁ ⟨_, g₁, same⟩ => ?_
  obtain ⟨ρ, seen, noted⟩ := id g₁.sees
  have roleB : ρ body = .code b := noted _ noteB
  refine (g₁.pushOwned (p := .control) (τ := { σ t with control := [⟨body, b⟩] ++ (σ t).control })
    (same ▸ hT) hst ⟨ρ, seen, noted, .inr ⟨b, roleB⟩, fun e he => ?_⟩ rfl (fun q hq => ?_) rfl
    ⟨rfl, rfl, rfl, subset_rfl, rfl⟩).mono fun _ h₂ g₂ => ⟨notNil, g.restore g₂⟩
  · rcases List.mem_cons.1 he with rfl | he
    · exact .inr ⟨rfl, roleB⟩
    · exact .inl he
  · cases q <;> simp_all [Task.pile]

/-- The thread of the waker is made runnable, and what was known besides is not needed any more. -/
theorem wake [k.KeptByWaking] (c : Completing k k' inst w body t y es)
    (g : Knows k' σ (n + 3) O h) :
    Yields (Waker.wake w s) h fun _ h' => ∃ σ', Knows k σ' (n + 3) O h' ∧
      (t = .nil ∧ σ' = σ ∨ t ≠ .nil ∧ ∃ x, σ' = Function.update σ t
        { σ t with waits := none, place := some x, queued := true }) := by
  obtain ⟨ρ, seen, noted⟩ := id g.sees
  obtain ⟨E, factW, hj⟩ := c.waker
  refine ((g.forget c.within c.stays c.wf).wake (y := y)
    ⟨ρ, seen, fun x hx => noted x (c.within.notes hx), noted _ c.noted⟩).mono fun _ h' found => ?_
  obtain ⟨E', t', hE', ht', woken⟩ := found
  obtain rfl := Option.some_inj.1 (hE'.symm.trans (g.body factW))
  obtain rfl := Option.some_inj.1 (ht'.symm.trans hj)
  rcases woken with ⟨absent, g₁⟩ | ⟨notNil, -, x, g₁⟩
  · exact ⟨σ, g₁, .inl ⟨absent, rfl⟩⟩
  · exact ⟨_, g₁, .inr ⟨notNil, x, rfl⟩⟩

/-- Behind the value, the body is scheduled if there is one, and the thread goes on. -/
theorem go_on [k.KeptByWaking] [k'.KeptByChains] (c : Completing k k' inst w body t y es)
    (g : Knows k' σ (n + 3) O h) :
    Yields (do
        let body ← Waiting.body inst
        if !body.isNil then
          Stack.push (← Thread.control t) body
        let _ ← Waker.wake w s : Action Unit) h fun _ h' =>
      ∃ σ', Knows k σ' (n + 3) O h' ∧ (t = .nil ∧ σ' = σ ∨ t ≠ .nil ∧ ∃ x,
        σ' = Function.update σ t { σ t with
          control := es ++ (σ t).control, waits := none, place := some x, queued := true }) := by
  obtain ⟨D, v, factI, kids⟩ := c.record
  refine .read fun body' readB => ?_
  obtain rfl : body = body' := by
    have said := (g.sound.child_of_body (g.body factI) readB).2
    simpa [kids] using said
  split
  · next there =>
    refine .read fun a readC => ?_
    refine (c.push_body g readC (by simpa [← Address.isNil_iff] using there)).bind
      fun _ h₁ ⟨notNil, g₁⟩ => (c.wake g₁).bind fun _ h₂ ⟨σ', g₂, e⟩ => .pure ⟨σ', g₂, .inr ?_⟩
    obtain ⟨-, x, rfl⟩ := e.resolve_left fun e => notNil e.1
    exact ⟨notNil, x, by simp⟩
  · next there =>
    have isNil : body = .nil := by simpa [← Address.isNil_iff] using there
    obtain ⟨-, rfl⟩ | ⟨b, -, noteB⟩ := c.runs
    · exact (c.wake g).bind fun _ h₁ woke => .pure (by simpa using woke)
    · obtain ⟨ρ, seen, noted⟩ := id g.sees
      have roleB : ρ body = .code b := noted _ noteB
      simp [isNil, seen.nil] at roleB

end Completing

/-- The operation of an instance completes: its thread gets the value if it receives, and goes on
with the body if there is one. -/
theorem deliver [k.KeptByWaking] {v : Option Address} (g : Knows k σ (n + 3) (v.elim 0 ({·}) + O) h)
    (role : (inst, .waiting j) ∈ k.notes) (values : v.toList.length = j.values) :
    Yields (Waiting.deliver inst v s) h fun _ h' =>
      ∃ σ', Knows k σ' (n + 3) O h' ∧ Passes σ σ' := by
  refine .read fun w readW => .read fun t readT => ?_
  obtain ⟨k', body, y, es, _, g', c, woken⟩ := g.completing role values readW readT
  cases v with
  | none =>
    have g' : Knows k' σ (n + 3) O h := by simpa using g'
    refine (c.go_on g').mono fun _ h₁ ⟨σ', g₁, e⟩ => ⟨σ', g₁, ?_⟩
    rcases e with ⟨-, rfl⟩ | ⟨notNil, x, rfl⟩
    · exact .refl
    · exact .update (.inr (woken notNil x))
  | some v =>
    refine .read fun st readS => ?_
    refine (c.push_value g' readS).bind fun _ h₁ ⟨notNil, g₁⟩ =>
      (c.go_on g₁).mono fun _ h₂ ⟨σ', g₂, e⟩ => ⟨σ', g₂, ?_⟩
    obtain ⟨-, x, rfl⟩ := e.resolve_left fun e => notNil e.1
    simpa using Passes.update (.inr (woken notNil x))

end Knows
end GoMachine
