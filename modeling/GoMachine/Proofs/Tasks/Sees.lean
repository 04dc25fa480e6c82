import GoMachine.Proofs.Tasks.Tells
/-!
# The run queue

The run queue is a chain of links, which nothing else writes. What is done to other records leaves
it as it is, and links go away only with the queue.

* `Lined.keep`: the run queue stays as it is.
* `Queues.snoc`, `Queues.tail`: a link comes to the back of a queue, and the first one is taken off.
* `Sees.sub` and the like: the changes of `Tells` that leave the run queue alone.
-/
namespace GoMachine

/-- Whether a record is part of the run queue. -/
def Role.IsQueue (r : Role) : Prop := r = .holder .runnable ∨ r = .link .runnable

variable {ρ ρ' : Roles} {σ σ' : Address → Task} {F F' : Facts} {a b q u v x node : Address}
    {B D : Body}
  {r : Role} {line vs ts : List Address} {τ : Task}

namespace Queues

theorem lists (k : Queues F a b vs) : Lists F a vs := by
  induction vs generalizing a with
  | nil => exact k.1
  | cons v vs ih =>
    obtain ⟨next, ha, ⟨rfl, rfl, -⟩ | ⟨-, k⟩⟩ := k
    · exact ⟨.nil, ha, rfl⟩
    · exact ⟨next, ha, ih k⟩

/-- The last link of a queue has nothing behind it. -/
theorem last (k : Queues F a b (v :: vs)) : ∃ w, F b = some ⟨.linkedList, [], [w, .nil]⟩ := by
  induction vs generalizing a v with
  | nil =>
    obtain ⟨next, ha, ⟨-, rfl, rfl⟩ | ⟨ne, -⟩⟩ := k
    · exact ⟨v, ha⟩
    · exact absurd rfl ne
  | cons w vs ih =>
    obtain ⟨next, -, ⟨emptied, -⟩ | ⟨-, k⟩⟩ := k
    · cases emptied
    · exact ih k

/-- Nothing is in a queue without a last link. -/
theorem eq_nil (k : Queues F a .nil vs) (dead : F .nil = none) : a = .nil ∧ vs = [] := by
  cases vs with
  | nil => exact ⟨k.1, rfl⟩
  | cons v vs =>
    obtain ⟨w, e⟩ := k.last
    simp [dead] at e

theorem congr (k : Queues F a b vs) (same : ∀ {y D}, F y = some D → D.tag = .linkedList → y ≠ x →
    F' y = F y)
    (apart : ∀ ws, Lists F x ws → vs.length < ws.length) : Queues F' a b vs := by
  induction vs generalizing a with
  | nil => exact k
  | cons v vs ih =>
    have ne : a ≠ x := by
      rintro rfl
      exact absurd (apart _ k.lists) (lt_irrefl _)
    obtain ⟨next, ha, k⟩ := k
    refine ⟨next, (same ha rfl ne).trans ha, k.imp_right (.imp_right fun k => ih k fun ws hws =>
      ?_)⟩
    have := apart ws hws
    simp at this
    omega

/-- A new link comes to the back. -/
theorem snoc (k : Queues F a b vs) (dead : F .nil = none) (notNil : b ≠ .nil)
    (hb : F' b = (F b).map fun E => { E with children := E.children.set 1 node })
    (hn : F' node = some ⟨.linkedList, [], [v, .nil]⟩) (same : ∀ {y D}, F y = some D →
    D.tag = .linkedList → y ≠ b → F' y = F y) :
    Queues F' a node (vs ++ [v]) := by
  induction vs generalizing a with
  | nil => exact absurd k.2 notNil
  | cons w vs ih =>
    obtain ⟨next, ha, ⟨rfl, rfl, rfl⟩ | ⟨ne, k⟩⟩ := k
    · exact ⟨node, by rw [hb, ha]; rfl, .inr ⟨by simp, .nil, hn, .inl ⟨rfl, rfl, rfl⟩⟩⟩
    · have apart : a ≠ b := by
        rintro rfl
        obtain ⟨_, vs', e⟩ : ∃ x y, vs = x :: y := List.exists_cons_of_ne_nil ne
        rw [e] at k
        obtain ⟨_, last⟩ := k.last
        obtain ⟨rfl, rfl⟩ : w = _ ∧ next = .nil := by simpa [ha] using last
        obtain ⟨_, e, -⟩ := k
        simp [dead] at e
      exact ⟨next, (same ha rfl apart).trans ha, .inr ⟨by simp, ih k⟩⟩

/-- The first link is taken off. -/
theorem tail {G : Facts} (k : Queues F a b (v :: vs)) (dead : F .nil = none)
    (same : ∀ {y D}, F y = some D → D.tag = .linkedList → y ≠ a → G y = F y) :
    ∃ next, F a = some ⟨.linkedList, [], [v, next]⟩ ∧
    Queues G next (if next = .nil then .nil else b) vs := by
  have here := k.lists
  obtain ⟨next, ha, ⟨rfl, rfl, -⟩ | ⟨ne, k⟩⟩ := k
  · exact ⟨.nil, ha, rfl, if_pos rfl⟩
  · have notNil : next ≠ .nil := by
      rintro rfl
      obtain ⟨_, vs', rfl⟩ := List.exists_cons_of_ne_nil ne
      obtain ⟨_, e, -⟩ := k
      simp [dead] at e
    refine ⟨next, ha, ?_⟩
    rw [if_neg notNil]
    refine k.congr same fun ws hws => ?_
    rw [← Lists.unique dead here hws]
    simp

/-- Links that are referred to by what is there are as they were. -/
theorem transfer (k : Queues F a b vs) (conf : ∀ {a B}, F a = some B → Conforms ρ a B)
    (dead : F .nil = none)
    (links : ∀ {x B b D}, F' x = some B → F x = some B → b ∈ B.children → ρ b = .link .runnable →
      F b = some D → F' b = some D)
    (here : a = .nil ∨ ρ a = .link .runnable ∧ F' a = F a) : Queues F' a b vs := by
  induction vs generalizing a with
  | nil => exact k
  | cons v vs ih =>
    obtain ⟨next, ha, k⟩ := k
    rcases here with rfl | ⟨role, same⟩
    · simp [dead] at ha
    refine ⟨next, same.trans ha, k.imp_right fun ⟨ne, k⟩ => ⟨ne, ih k ?_⟩⟩
    refine ((conf ha).slot (i := 1) (b := next) rfl).imp_right fun slot => ?_
    have role' : ρ next = .link .runnable := by simpa [role, Slot] using slot
    obtain ⟨w, ws, rfl⟩ := List.exists_cons_of_ne_nil ne
    obtain ⟨next', hn, -⟩ := k
    exact ⟨role', by rw [hn, links (same.trans ha) ha (by simp) role' hn]⟩

end Queues

/-- The run queue stays as it is when its records do. -/
theorem Lined.keep (l : Lined ρ σ F) (conf : ∀ {a B}, F a = some B → Conforms ρ a B)
    (dead : F .nil = none)
    (heads : ∀ {q B}, F' q = some B → ρ' q = .holder .runnable → F q = some B ∧
    ρ q = .holder .runnable)
    (links : ∀ {x B b D}, F' x = some B → F x = some B → b ∈ B.children → ρ b = .link .runnable →
      F b = some D → F' b = some D)
    (queued : ∀ u, (σ' u).queued → (σ u).queued) : Lined ρ' σ' F' := by
  refine ⟨fun hq hq' role role' => ?_, fun {q B} hq role => ?_⟩
  · obtain ⟨hq, role⟩ := heads hq role
    obtain ⟨hq', role'⟩ := heads hq' role'
    exact l.single hq hq' role role'
  · have hq' := hq
    obtain ⟨hq, role⟩ := heads hq role
    obtain ⟨w, front, back, ts, rfl, queue, stand⟩ := l.queue hq role
    refine ⟨w, front, back, ts, rfl, queue.transfer conf dead links ?_, fun u notNil hu =>
      stand u notNil (queued u hu)⟩
    cases ts with
    | nil => exact .inl queue.1
    | cons v ts =>
      obtain ⟨next, hf, -⟩ := queue
      refine ((conf hq).slot (i := 0) (b := front) rfl).imp_right fun slot => ?_
      have role' : ρ front = .link .runnable := by simpa [role, Slot] using slot
      exact ⟨role', by rw [hf, links hq' hq (by simp) role' hf]⟩

theorem Task.queued_update (h : τ.queued → (σ u).queued) (v : Address) :
    (Function.update σ u τ v).queued → (σ v).queued := by
  by_cases e : v = u
  · subst e
    rwa [Function.update_self]
  · rw [Function.update_of_ne e]
    exact id

namespace Sees

/-- No record of the run queue changes. -/
theorem lined_of (s : Sees ρ σ F)
    (heads : ∀ {q B}, F' q = some B → ρ' q = .holder .runnable → F q = some B ∧
    ρ q = .holder .runnable)
    (links : ∀ {b}, ρ b = .link .runnable → F b ≠ none → F' b = F b)
    (queued : ∀ u, (σ' u).queued → (σ u).queued) : Lined ρ' σ' F' :=
  s.toLined.keep s.conforms s.dead heads
    (fun {x B b D} _ _ _ role hb => by rw [links role (by simp [hb]), hb]) queued

/-- A record changes that is not part of the run queue. -/
theorem lined_write (s : Sees ρ σ F) (ha : ¬(ρ a).IsQueue) (queued : ∀ u, (σ' u).queued →
    (σ u).queued) :
    Lined ρ σ' (Function.update F a (some D)) := by
  refine s.lined_of (fun {q B} hq role => ?_) (fun {b} role _ => ?_) queued
  swap
  · have ne : b ≠ a := fun e => ha (.inr (e ▸ role))
    rw [Function.update_of_ne ne]
  have ne : q ≠ a := fun e => ha (.inl (e ▸ role))
  exact ⟨by rwa [Function.update_of_ne ne] at hq, role⟩

/-- A record comes up that is no run queue. -/
theorem lined_create (s : Sees ρ σ F) (gone : F a = none) (hr : r ≠ .holder .runnable)
    (queued : ∀ u, (σ' u).queued → (σ u).queued) :
    Lined (Function.update ρ a r) σ' (Function.update F a (some B)) := by
  refine s.lined_of (fun {q B} hq role => ?_) (fun {b} _ live => ?_) queued
  swap
  · have ne : b ≠ a := fun e => live (e ▸ gone)
    rw [Function.update_of_ne ne]
  have ne : q ≠ a := by
    rintro rfl
    rw [Function.update_self] at role
    exact hr role
  rw [Function.update_of_ne ne] at hq role
  exact ⟨hq, role⟩

/-- Records go away. -/
theorem sub (s : Sees ρ σ F) (less : Facts.Sub F' F) (closed : Closed F') : Sees ρ σ F' := by
  refine ⟨s.toTells.sub less closed, s.toLined.keep s.conforms s.dead
    (fun hq role => ⟨less hq, role⟩)
    (fun {x B b D} hx _ hb _ hD => ?_) fun _ => id⟩
  rcases closed x B b hx hb with rfl | live
  · simp [s.dead] at hD
  · obtain ⟨D', hD'⟩ := Option.ne_none_iff_exists'.1 live
    rw [hD', ← less hD', hD]

/-- A record comes up by which no thread shows anything, and none stands in it. -/
theorem create_still (s : Sees ρ σ F) (closed : Closed F) (gone : F a = none) (notNil : a ≠ .nil)
    (conf : Conforms (Function.update ρ a r) a B) (hr : r ≠ .thread) (hr' : r ≠ .holder .runnable)
    (keeps : ∀ {u w}, r.Keeps w → B.children[0]? = some u → u = .nil)
    (offered : ∀ {j w b E u}, r = .waiting j → B.children[0]? = some w → B.children[2]? = some b →
      F w = some E → E.children[0]? = some u → u ≠ .nil → (a, w, b) ∈ (σ u).offers) :
    Sees (Function.update ρ a r) σ (Function.update F a (some B)) :=
  ⟨s.toTells.create_still closed gone notNil conf hr keeps offered, s.lined_create gone hr' fun _ =>
  id⟩

/-- A record changes by which no thread shows anything, and the thread in it is the same. -/
theorem write_still (s : Sees ρ σ F) (ha : F a = some B) (conf : Conforms ρ a D)
    (owner : (ρ a).owner? = none)
    (thread : ρ a ≠ .thread) (queue : ¬(ρ a).IsQueue)
    (first : D.children[0]? = B.children[0]? ∨ D.children[0]? = some .nil ∨ ∀ w, ¬(ρ a).Keeps w)
    (less : Emptied (ρ a) B D) : Sees ρ σ (Function.update F a (some D)) :=
  ⟨s.toTells.write_still ha conf owner thread first less, s.lined_write queue fun _ => id⟩

/-- Something is put on a stack of a thread. -/
theorem push (s : Sees ρ σ F) (closed : Closed F) {p : Pile} {fs ns : List UInt64}
    {cs ts : List Address} {st node v : Address} (hu : F u = some ⟨.thread, fs, cs⟩)
    (hst : cs[p.index]? = some st) (hb : F st = some ⟨p.tag, ns, ts⟩) (gone : F node = none)
    (notNil : node ≠ .nil) (takes : v = .nil ∨ (p.kind u).Takes ρ v) (live : v = .nil ∨ F v ≠ none)
    (now : τ.pile p = v :: (σ u).pile p) (other : ∀ q, q ≠ p → τ.pile q = (σ u).pile q)
    (line : τ.line = (σ u).line) (codes : ∀ e ∈ τ.control, e ∈ (σ u).control ∨ e.node = v ∧
    ρ v = .code e.code)
    (place : (σ u).SamePlace τ) :
    ∃ n top, ns = [n] ∧ ts = [top] ∧ Sees (Function.update ρ node (.link (p.kind u)))
    (Function.update σ u τ)
      (Function.update (Function.update F node (some ⟨.linkedList, [], [v, top]⟩)) st
        (some ⟨p.tag, [n + 1], [node]⟩)) := by
  obtain ⟨n, top, rfl, rfl, tells⟩ :=
    s.toTells.push closed hu hst hb gone notNil takes live now other line codes place
  refine ⟨n, top, rfl, rfl, tells, s.lined_of (fun {q B} hq role => ?_) (fun {b} role live => ?_)
    (Task.queued_update (by rw [place.2.2.1]; exact id))⟩
  all_goals
    have nn : st ≠ .nil := fun e => by simp [e, s.dead] at hb
    have holder := (s.pile_role hu hst nn).2
  · have ne : q ≠ node := by
      rintro rfl
      rw [Function.update_self] at role
      cases role
    rw [Function.update_of_ne ne] at role
    have ne' : q ≠ st := by
      rintro rfl
      rw [holder] at role
      cases p <;> cases role
    exact ⟨by rwa [Function.update_of_ne ne', Function.update_of_ne ne] at hq, role⟩
  · have ne : b ≠ node := fun e => live (e ▸ gone)
    have ne' : b ≠ st := by
      rintro rfl
      rw [holder] at role
      cases role
    rw [Function.update_of_ne ne', Function.update_of_ne ne]

/-- The top of a stack of a thread is taken off. -/
theorem pop (s : Sees ρ σ F) {p : Pile} {fs ns : List UInt64}
    {cs ts : List Address} {st v : Address} (hu : F u = some ⟨.thread, fs, cs⟩)
    (hst : cs[p.index]? = some st) (hb : F st = some ⟨p.tag, ns, ts⟩)
    (now : (σ u).pile p = v :: τ.pile p) (small : ((σ u).pile p).length < 2 ^ 64)
    (other : ∀ q, q ≠ p → τ.pile q = (σ u).pile q) (line : τ.line = (σ u).line)
    (codes : ∀ e ∈ τ.control, e ∈ (σ u).control) (place : (σ u).SamePlace τ) :
    ∃ n top next, ns = [n] ∧ ts = [top] ∧ F top = some ⟨.linkedList, [], [v, next]⟩ ∧
      Sees ρ (Function.update σ u τ)
        (Function.update (Function.update F top (some ⟨.linkedList, [], [.nil, .nil]⟩)) st
          (some ⟨p.tag, [Stack.decrement n], [next]⟩)) := by
  obtain ⟨n, top, next, rfl, rfl, ht, tells⟩ :=
    s.toTells.pop hu hst hb now small other line codes place
  have nn : st ≠ .nil := fun e => by simp [e, s.dead] at hb
  have holder := (s.pile_role hu hst nn).2
  obtain ⟨top', hb', -, link⟩ := s.pile hu hst nn
  obtain ⟨-, rfl⟩ : n = _ ∧ top = top' := by simpa [hb] using hb'
  have link := link.resolve_left fun e => by simp [e, s.dead] at ht
  have apart : ∀ {b r}, ρ b = r → r.IsQueue → b ≠ st ∧ b ≠ top := by
    rintro b _ rfl role
    refine ⟨?_, ?_⟩ <;> rintro rfl
    · rw [holder] at role
      cases p <;> simp [Role.IsQueue, Pile.kind] at role
    · rw [link] at role
      cases p <;> simp [Role.IsQueue, Pile.kind] at role
  refine ⟨n, top, next, rfl, rfl, ht, tells, s.lined_of (fun {q B} hq role => ?_)
    (fun {b} role _ => ?_)
    (Task.queued_update (by rw [place.2.2.1]; exact id))⟩
  · obtain ⟨ne, ne'⟩ := apart role (.inl rfl)
    exact ⟨by rwa [Function.update_of_ne ne, Function.update_of_ne ne'] at hq, role⟩
  · obtain ⟨ne, ne'⟩ := apart role (.inr rfl)
    rw [Function.update_of_ne ne, Function.update_of_ne ne']

/-- The current frame of a thread changes. -/
theorem reframe (s : Sees ρ σ F) {fs : List UInt64} {cs : List Address} {e f : Address}
    (hu : F u = some ⟨.thread, fs, cs⟩) (he : cs[2]? = some e) (hb : F e = some B)
    (on : OnLine ρ f line) :
    Sees ρ (Function.update σ u { σ u with line })
      (Function.update F e (some { B with children := B.children.set 0 f })) := by
  refine ⟨s.toTells.reframe hu he hb on, s.lined_write ?_ (Task.queued_update id)⟩
  have slot := ((s.conforms hu).slot he).resolve_left fun e => by simp [e, s.dead] at hb
  rw [(s.conforms hu).thread rfl] at slot
  have role : ρ e = .env u := slot
  simp [role, Role.IsQueue]

/-- A record comes up with a thread that stands nowhere else. -/
theorem grasp (s : Sees ρ σ F) (closed : Closed F) (gone : F a = none) (notNil : a ≠ .nil)
    (conf : Conforms (Function.update ρ a r) a B) (hr : r ≠ .thread) (hr' : r ≠ .holder .runnable)
    (first : B.children[0]? = some u) (free : (σ u).place = none) (work : (σ u).SameWork τ)
    (place : τ.place = some a) (waits : ∀ w, r.Keeps w → τ.waits = w) (other : ∀ j, r ≠ .waiting j)
    (queued : τ.queued → (σ u).queued) :
    Sees (Function.update ρ a r) (Function.update σ u τ) (Function.update F a (some B)) :=
  ⟨s.toTells.grasp closed gone notNil conf hr first free work place waits other,
    s.lined_create gone hr' (Task.queued_update queued)⟩

/-- A thread that stands nowhere may wait for anything. -/
theorem rewait (s : Sees ρ σ F) (free : (σ u).place = none) {w : Option Wait} :
    Sees ρ (Function.update σ u { σ u with waits := w }) F :=
  ⟨s.toTells.rewait free, s.lined_of (fun hq role => ⟨hq, role⟩) (fun _ _ => rfl)
  (Task.queued_update id)⟩

/-- A thread leaves the waker that it stands in. -/
theorem release (s : Sees ρ σ F) (ha : F a = some B) (conf : Conforms ρ a D)
    (owner : (ρ a).owner? = none)
    (thread : ρ a ≠ .thread) (queue : ¬(ρ a).IsQueue) (first : B.children[0]? = some u)
    (notNil : u ≠ .nil)
    {w : Option Wait} (keeps : (ρ a).Keeps w) (gone : D.children[0]? = some .nil)
    (work : (σ u).SameWork τ)
    (less : Emptied (ρ a) B D) (queued : τ.queued → (σ u).queued) :
    Sees ρ (Function.update σ u τ) (Function.update F a (some D)) :=
  ⟨s.toTells.release ha conf owner thread first notNil keeps gone work less,
    s.lined_write queue (Task.queued_update queued)⟩

end Sees
end GoMachine
