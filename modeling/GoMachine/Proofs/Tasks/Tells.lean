import GoMachine.Proofs.Tasks.Retains
import GoMachine.Proofs.Tasks.Roles
/-!
# Changes of what is seen

Records come up, change and go away. `Tells.change` says what has to be looked at again when they
do: the records that are new or changed, and the threads that show by one of these what they have
left to do. The other lemmas are about one change each.

* `Tells.sub`: records go away.
* `Tells.create`, `Tells.write`: a record comes up or changes by which no thread shows anything.
* `Tells.show`: something changes by which one thread shows what it has left to do.
* `Tells.grasp`, `Tells.release`: a thread comes into a slot where it waits or is runnable, and
  leaves it.
-/
namespace GoMachine

/-- From records on that are the same as before, what belongs to a thread is so too. -/
def Follows (ρ : Roles) (u : Address) (F F' : Facts) : Prop := ∀ ⦃x B b D⦄, F' x = some B →
    F x = some B →
  b ∈ B.children → (ρ b).owner? = some u → F b = some D → F' b = some D

/-- The roles of what is referred to are the same, or were not settled. -/
def Settled (F : Facts) (ρ ρ' : Roles) : Prop := ∀ ⦃x B b⦄, F x = some B → b ∈ B.children →
  ρ b = .loose ∨ ρ' b = ρ b

variable {ρ ρ' : Roles} {σ σ' : Address → Task} {F F' : Facts} {a b u v x : Address} {B D : Body}
    {t : Tag}
  {i : Nat} {k : Class} {r : Role} {line vs : List Address} {τ τ' : Task}

/-! ## What a thread shows -/

theorem Lists.mem (h : Lists F a vs) (hv : v ∈ vs) : ∃ x B, F x = some B ∧ v ∈ B.children := by
  induction vs generalizing a with
  | nil => simp at hv
  | cons w vs ih =>
    obtain ⟨next, ha, h⟩ := h
    rcases List.mem_cons.1 hv with rfl | hv
    · exact ⟨a, _, ha, by simp⟩
    · exact ih h hv

section Transfer

variable (conf : ∀ {a B}, F a = some B → Conforms ρ a B) (dead : F .nil = none)
  (follows : Follows ρ u F F')

include conf dead follows

theorem Lists.transfer (h : Lists F a vs) (mine : (Role.link k).owner? = some u)
    (here : a = .nil ∨ ρ a = .link k ∧ F' a = F a) : Lists F' a vs := by
  induction vs generalizing a with
  | nil => exact h
  | cons v vs ih =>
    obtain ⟨next, ha, h⟩ := h
    rcases here with rfl | ⟨role, same⟩
    · simp [dead] at ha
    refine ⟨next, same.trans ha, ih h ?_⟩
    rcases (conf ha).slot (i := 1) (b := next) rfl with absent | slot
    · exact .inl absent
    have role' : ρ next = .link k := by simpa [role, Slot] using slot
    refine or_iff_not_imp_left.2 fun there => ⟨role', ?_⟩
    cases vs with
    | nil => exact absurd h there
    | cons w ws =>
      obtain ⟨next', hn, -⟩ := h
      rw [hn, follows (same.trans ha) ha (by simp) (by rw [role', mine]) hn]

theorem Stacked.transfer (h : Stacked F a t vs) (mine : (Role.holder k).owner? = some u)
    (here : a = .nil ∨ ρ a = .holder k ∧ F' a = F a) : Stacked F' a t vs := by
  refine h.imp_right fun ⟨top, ha, h⟩ => ?_
  rcases here with rfl | ⟨role, same⟩
  · simp [dead] at ha
  have mine : (Role.link k).owner? = some u := by cases k <;> simp_all [Role.owner?]
  refine ⟨top, same.trans ha, h.transfer conf dead follows mine ?_⟩
  rcases (conf ha).slot (i := 0) (b := top) rfl with absent | slot
  · exact .inl absent
  have role' : ρ top = .link k := by simpa [role, Slot] using slot
  refine or_iff_not_imp_left.2 fun there => ⟨role', ?_⟩
  cases vs with
  | nil => exact absurd h there
  | cons w ws =>
    obtain ⟨next', hn, -⟩ := h
    rw [hn, follows (same.trans ha) ha (by simp) (by rw [role', mine]) hn]

/-- A thread shows the same when its record is the same, and so are those that belong to it. -/
theorem Shows.transfer (s : Shows F ρ u τ) (role : ρ u = .thread) (head : F' u = F u)
    (settled : Settled F ρ ρ') : Shows F' ρ' u τ := by
  obtain ⟨⟨fs, c, st, e, hu, hc, hst, he⟩, codes, filled⟩ := s
  have child : ∀ {i b}, [c, st, e][i]? = some b → b = .nil ∨ Slot ρ u .thread i b .thread :=
    fun hb =>
    role ▸ (conf hu).slot hb
  have same : ∀ {b}, b ∈ [c, st, e] → (ρ b).owner? = some u → F b ≠ none → F' b = F b := by
    intro b hb mine known
    obtain ⟨D, hD⟩ := Option.ne_none_iff_exists'.1 known
    rw [hD, follows (head.trans hu) hu hb mine hD]
  refine ⟨⟨fs, c, st, e, head.trans hu, ?_, ?_, ?_⟩, fun x hx => ?_, fun made B hB =>
    filled made B (head.symm.trans hB)⟩
  · refine hc.elim (fun h => .inl h) fun h => ?_
    refine Stacked.transfer conf dead follows (.inr h) (k := .control u) rfl
      ((child (i := 0) rfl).imp_right fun role' => ?_)
    obtain ⟨top, ha, -⟩ := h
    exact ⟨role', same (by simp) (by rw [show ρ c = _ from role']; rfl) (by simp [ha])⟩
  · refine hst.elim (fun h => .inl h) fun h => ?_
    refine Stacked.transfer conf dead follows (.inr h) (k := .stash u) rfl
      ((child (i := 1) rfl).imp_right fun role' => ?_)
    obtain ⟨top, ha, -⟩ := h
    exact ⟨role', same (by simp) (by rw [show ρ st = _ from role']; rfl) (by simp [ha])⟩
  · refine he.imp_right fun ⟨f, structs, ha, on⟩ =>
      ⟨f, structs, ?_, on.congr (settled ha (by simp))⟩
    rcases child (i := 2) rfl with rfl | role'
    · simp [dead] at ha
    rw [same (by simp) (by rw [show ρ e = _ from role']; rfl) (by simp [ha]), ha]
  · have hx' : x.node ∈ τ.control.map Entry.node := List.mem_map_of_mem hx
    obtain ⟨y, B, hy, hm⟩ : ∃ y B, F y = some B ∧ x.node ∈ B.children := by
      rcases hc with ⟨-, h⟩ | ⟨top, -, h⟩
      · simp [h] at hx'
      · exact h.mem hx'
    exact role_congr (codes x hx) (by simp) (settled hy hm)

end Transfer

/-- The same, if the thread has the same left to do. -/
theorem Shows.of_eq (s : Shows F ρ u τ) (control : τ'.control = τ.control)
    (stash : τ'.stash = τ.stash)
    (line : τ'.line = τ.line) (made : τ'.made = τ.made) : Shows F ρ u τ' := by
  obtain ⟨record, codes, filled⟩ := s
  exact ⟨by rwa [control, stash, line], by rwa [control], by rwa [made]⟩

/-! ## Changes -/

/-- What a thread has left to do is the same, and so is where it stands. -/
def Task.SameWork (τ τ' : Task) : Prop :=
  τ'.control = τ.control ∧ τ'.stash = τ.stash ∧ τ'.line = τ.line ∧ τ.offers ⊆ τ'.offers ∧
  τ'.made = τ.made

def Task.SamePlace (τ τ' : Task) : Prop :=
  τ'.waits = τ.waits ∧ τ'.place = τ.place ∧ τ'.queued = τ.queued ∧ τ.offers ⊆ τ'.offers ∧
  τ'.made = τ.made

@[simp]
theorem Task.sameWork_refl : τ.SameWork τ := ⟨rfl, rfl, rfl, subset_rfl, rfl⟩

@[simp]
theorem Task.samePlace_refl : τ.SamePlace τ := ⟨rfl, rfl, rfl, subset_rfl, rfl⟩

namespace Tells

theorem change (s : Tells ρ σ F) (loose : ρ' .nil = .loose) (dead : F' .nil = none)
    (settled : Settled F ρ ρ')
    (conforms : ∀ {a B}, F' a = some B → F a = some B ∧ ρ' a = ρ a ∨ Conforms ρ' a B)
    (shows : ∀ {u B}, F' u = some B → ρ' u = .thread →
      F u = some B ∧ ρ u = .thread ∧ Follows ρ u F F' ∧ (σ u).SameWork (σ' u) ∨
      Shows F' ρ' u (σ' u))
    (place : ∀ {x B u w}, F' x = some B → B.children[0]? = some u → u ≠ .nil → (ρ' x).Keeps w →
      (∃ D, F x = some D ∧ D.children[0]? = some u) ∧ ρ' x = ρ x ∧ (σ u).SamePlace (σ' u) ∨
        (σ' u).place = some x ∧ (σ' u).waits = w)
    (more : ∀ u, (σ u).offers ⊆ (σ' u).offers)
    (offered : ∀ {x w b u}, Offered ρ' F' x w b u → Offered ρ F x w b u ∨
    (x, w, b) ∈ (σ' u).offers) :
    Tells ρ' σ' F' where
  nil := loose
  dead := dead
  conforms hB := by
    rcases conforms hB with ⟨old, self⟩ | new
    · exact (s.conforms old).congr self fun b hb => settled old hb
    · exact new
  shows hB role := by
    rcases shows hB role with ⟨old, role', follows, work⟩ | new
    · exact ((s.shows old role').transfer s.conforms s.dead follows role'
        (hB.trans old.symm) settled).of_eq
        work.1 work.2.1 work.2.2.1 work.2.2.2.2
    · exact new
  place hB hu there keeps := by
    rcases place hB hu there keeps with ⟨⟨D, hD, hu'⟩, self, same⟩ | new
    · rw [self] at keeps
      obtain ⟨hp, hw⟩ := s.place hD hu' there keeps
      exact ⟨same.2.1.trans hp, same.1.trans hw⟩
    · exact new
  offered h := (offered h).elim (fun h => more _ (s.offered h)) id

/-- Records go away. -/
theorem sub (s : Tells ρ σ F) (less : Facts.Sub F' F) (closed : Closed F') :
    Tells ρ σ F' := by
  refine s.change s.nil ?_ (fun _ _ _ _ _ => .inr rfl) (fun hB => .inl ⟨less hB, rfl⟩)
    (fun hB role => .inl ⟨less hB, role, ?_, by simp⟩)
    (fun hB hu _ _ => .inl ⟨⟨_, less hB, hu⟩, rfl, by simp⟩)
    (fun _ => subset_rfl) fun h => .inl ⟨h.waiting, h.waker, h.parts.imp fun _ e => ⟨less e.1, e.2⟩,
      h.holds.imp fun _ e => ⟨less e.1, e.2⟩, h.some⟩
  · by_contra known
    obtain ⟨D, hD⟩ := Option.ne_none_iff_exists'.1 known
    have := less hD
    simp [s.dead] at this
  · intro x B b D hx _ hb _ hD
    rcases closed x B b hx hb with rfl | live
    · simp [s.dead] at hD
    · obtain ⟨D', hD'⟩ := Option.ne_none_iff_exists'.1 live
      rw [hD', ← less hD', hD]

/-- A record comes up. -/
theorem create (s : Tells ρ σ F) (closed : Closed F) (gone : F a = none) (notNil : a ≠ .nil)
    (conf : Conforms (Function.update ρ a r) a B) (work : ∀ v, v ≠ a → (σ v).SameWork (σ' v))
    (more : (σ a).offers ⊆ (σ' a).offers)
    (shows : r ≠ .thread ∨ Shows (Function.update F a (some B)) (Function.update ρ a r) a (σ' a))
    (others : ∀ {x D u w}, F x = some D → D.children[0]? = some u → u ≠ .nil → (ρ x).Keeps w →
      (σ u).SamePlace (σ' u))
    (mine : ∀ {u w}, B.children[0]? = some u → u ≠ .nil → r.Keeps w →
      (σ' u).place = some a ∧ (σ' u).waits = w)
    (offered : ∀ {j w b E u}, r = .waiting j → B.children[0]? = some w → B.children[2]? = some b →
      F w = some E → E.children[0]? = some u → u ≠ .nil → (a, w, b) ∈ (σ' u).offers) :
    Tells (Function.update ρ a r) σ' (Function.update F a (some B)) := by
  have ne : ∀ {b D}, F b = some D → b ≠ a := fun hb e => by simp [← e, hb] at gone
  have cases : ∀ {b D}, Function.update F a (some B) b = some D → b = a ∧ D = B ∨ b ≠ a ∧
    F b = some D := by
    intro b D hb
    by_cases e : b = a
    · subst e
      rw [Function.update_self, Option.some_inj] at hb
      exact .inl ⟨rfl, hb.symm⟩
    · exact .inr ⟨e, by rwa [Function.update_of_ne e] at hb⟩
  refine s.change ?_ ?_ (fun x D b hx hb => ?_) (fun hB => ?_) (fun {u D} hB role => ?_)
    (fun {x D u w} hB hu there keeps => ?_) (fun u => ?_)
    fun {x w b u} ⟨⟨j, role⟩, ⟨y, role'⟩, ⟨D, hx, hi, hb⟩, ⟨E, hw, hu⟩, nn⟩ => ?_
  · rw [Function.update_of_ne notNil.symm, s.nil]
  · rw [Function.update_of_ne notNil.symm, s.dead]
  · rcases closed x D b hx hb with rfl | live
    · exact .inl s.nil
    · obtain ⟨E, hE⟩ := Option.ne_none_iff_exists'.1 live
      exact .inr (Function.update_of_ne (ne hE) ..)
  · rcases cases hB with ⟨rfl, rfl⟩ | ⟨e, old⟩
    · exact .inr conf
    · exact .inl ⟨old, Function.update_of_ne e ..⟩
  · rcases cases hB with ⟨rfl, rfl⟩ | ⟨e, old⟩
    · rw [Function.update_self] at role
      exact .inr (shows.resolve_left (not_not.2 role))
    · rw [Function.update_of_ne e] at role
      refine .inl ⟨old, role, fun x C b E _ _ _ _ hE => ?_, work u e⟩
      rwa [Function.update_of_ne (ne hE)]
  · rcases cases hB with ⟨rfl, rfl⟩ | ⟨e, old⟩
    · rw [Function.update_self] at keeps
      exact .inr (mine hu there keeps)
    · rw [Function.update_of_ne e] at keeps
      exact .inl ⟨⟨D, old, hu⟩, Function.update_of_ne e .., others old hu there keeps⟩
  · by_cases e : u = a
    · exact e ▸ more
    · exact (work u e).2.2.2.1
  · rcases cases hw with ⟨rfl, rfl⟩ | ⟨ne', hw'⟩
    · -- Nothing else refers to the new record, and it is not both.
      rcases cases hx with ⟨rfl, -⟩ | ⟨-, hx⟩
      · rw [role] at role'
        cases role'
      · exact ((closed x _ w hx (List.mem_of_getElem? hi)).resolve_left notNil gone).elim
    rw [Function.update_of_ne ne'] at role'
    rcases cases hx with ⟨rfl, rfl⟩ | ⟨ne, hx⟩
    · rw [Function.update_self] at role
      exact .inr (offered role hi hb hw' hu nn)
    · rw [Function.update_of_ne ne] at role
      exact .inl ⟨⟨j, role⟩, ⟨y, role'⟩, ⟨D, hx, hi, hb⟩, ⟨E, hw', hu⟩, nn⟩

/-- A record comes up by which no thread shows anything, and none stands in it. -/
theorem create_still (s : Tells ρ σ F) (closed : Closed F) (gone : F a = none) (notNil : a ≠ .nil)
    (conf : Conforms (Function.update ρ a r) a B) (hr : r ≠ .thread)
    (keeps : ∀ {u w}, r.Keeps w → B.children[0]? = some u → u = .nil)
    (offered : ∀ {j w b E u}, r = .waiting j → B.children[0]? = some w → B.children[2]? = some b →
      F w = some E → E.children[0]? = some u → u ≠ .nil → (a, w, b) ∈ (σ u).offers) :
    Tells (Function.update ρ a r) σ (Function.update F a (some B)) :=
  s.create closed gone notNil conf (fun _ _ => by simp) subset_rfl (.inl hr)
  (fun _ _ _ _ => by simp)
    (fun hu there k => absurd (keeps k hu) there) offered

end Tells

/-- A waiting instance has the waker and the body that it had, and a waker no other thread. -/
structure Emptied (r : Role) (B D : Body) : Prop where
  waiting : ∀ j, r = .waiting j → D.children[0]? = B.children[0]? ∧ D.children[2]? = B.children[2]?
  waker : ∀ y, r = .waker y → D.children[0]? = some .nil ∨ D.children[0]? = B.children[0]?

theorem Emptied.of_ne (waiting : ∀ j, r ≠ .waiting j) (waker : ∀ y, r ≠ .waker y) : Emptied r B D :=
  ⟨fun j e => absurd e (waiting j), fun y e => absurd e (waker y)⟩

theorem Emptied.offered {w b : Address} (less : Emptied (ρ a) B D) (ha : F a = some B)
    (h : Offered ρ (Function.update F a (some D)) x w b u) : Offered ρ F x w b u := by
  obtain ⟨⟨j, role⟩, ⟨y, role'⟩, ⟨C, hx, hi, hb⟩, ⟨E, hw, hu⟩, there⟩ := h
  refine ⟨⟨j, role⟩, ⟨y, role'⟩, ?_, ?_, there⟩
  · by_cases e : x = a
    · subst e
      rw [Function.update_self, Option.some_inj] at hx
      subst hx
      obtain ⟨e₀, e₂⟩ := less.waiting j role
      exact ⟨B, ha, e₀ ▸ hi, e₂ ▸ hb⟩
    · exact ⟨C, by rwa [Function.update_of_ne e] at hx, hi, hb⟩
  · by_cases e : w = a
    · subst e
      rw [Function.update_self, Option.some_inj] at hw
      subst hw
      rcases less.waker y role' with absent | same
      · exact absurd (Option.some_inj.1 (hu.symm.trans absent)) there
      · exact ⟨B, ha, same ▸ hu⟩
    · exact ⟨E, by rwa [Function.update_of_ne e] at hw, hu⟩

namespace Tells

section Write

variable (s : Tells ρ σ F) (ha : F a = some B) (conf : Conforms ρ a D)

include s ha conf

/-- A record changes by which no thread shows anything. -/
theorem write (owner : (ρ a).owner? = none) (thread : ρ a ≠ .thread)
    (work : ∀ v, (σ v).SameWork (σ' v))
    (others : ∀ {x C u w}, x ≠ a → F x = some C → C.children[0]? = some u → u ≠ .nil →
    (ρ x).Keeps w →
      (σ u).SamePlace (σ' u))
    (mine : ∀ {u w}, D.children[0]? = some u → u ≠ .nil → (ρ a).Keeps w →
      (σ' u).place = some a ∧ (σ' u).waits = w) (less : Emptied (ρ a) B D) :
    Tells ρ σ' (Function.update F a (some D)) := by
  have notNil : a ≠ .nil := fun e => by simp [e, s.dead] at ha
  refine s.change s.nil ?_ (fun _ _ _ _ _ => .inr rfl) (fun {b C} hB => ?_)
    (fun {u C} hB role => ?_)
    (fun {x C u w} hB hu there keeps => ?_) (fun u => (work u).2.2.2.1) fun h =>
    .inl (less.offered ha h)
  · rw [Function.update_of_ne notNil.symm, s.dead]
  · by_cases e : b = a
    · subst e
      rw [Function.update_self, Option.some_inj] at hB
      exact .inr (hB ▸ conf)
    · exact .inl ⟨by rwa [Function.update_of_ne e] at hB, rfl⟩
  · have e : u ≠ a := fun e => thread (e ▸ role)
    refine .inl ⟨by
      rwa [Function.update_of_ne e] at hB, role, fun x E b C' _ _ _ own hb => ?_, work u⟩
    rwa [Function.update_of_ne]
    rintro rfl
    rw [owner] at own
    cases own
  · by_cases e : x = a
    · subst e
      rw [Function.update_self, Option.some_inj] at hB
      exact .inr (mine (hB ▸ hu) there keeps)
    · rw [Function.update_of_ne e] at hB
      exact .inl ⟨⟨C, hB, hu⟩, rfl, others e hB hu there keeps⟩

/-- A record changes by which no thread shows anything, and the thread in it is the same. -/
theorem write_still (owner : (ρ a).owner? = none) (thread : ρ a ≠ .thread)
    (first : D.children[0]? = B.children[0]? ∨ D.children[0]? = some .nil ∨ ∀ w, ¬(ρ a).Keeps w)
    (less : Emptied (ρ a) B D) :
    Tells ρ σ (Function.update F a (some D)) := by
  refine s.write ha conf owner thread (fun _ => by simp) (fun _ _ _ _ _ => by simp)
    (fun hu there keeps => ?_) less
  rcases first with same | absent | never
  · exact s.place ha (same ▸ hu) there keeps
  · rw [absent, Option.some_inj] at hu
    exact absurd hu.symm there
  · exact absurd keeps (never _)

/-- A record changes by which a thread shows what it has left to do. -/
theorem rewrite (owner : (ρ a).owner? = some u ∨ a = u ∧ ρ a = .thread)
    (shows : ∀ {C}, F u = some C → ρ u = .thread → Shows (Function.update F a (some D)) ρ u τ)
    (place : (σ u).SamePlace τ) :
    Tells ρ (Function.update σ u τ) (Function.update F a (some D)) := by
  have notNil : a ≠ .nil := fun e => by simp [e, s.dead] at ha
  have keeps : ∀ w, ¬(ρ a).Keeps w := by
    rcases owner with owner | ⟨-, role⟩
    · cases e : ρ a with
      | holder k => simp [Role.Keeps]
      | link k => cases k <;> simp_all [Role.owner?, Role.Keeps]
      | _ => simp_all [Role.owner?, Role.Keeps]
    · simp [role, Role.Keeps]
  have places : ∀ v, (σ v).SamePlace (Function.update σ u τ v) := by
    intro v
    by_cases e : v = u
    · rwa [e, Function.update_self]
    · simp [Function.update_of_ne e]
  have other : Emptied (ρ a) B D := by
    refine .of_ne (fun j e => ?_) fun y e => ?_ <;>
    · rcases owner with owner | ⟨-, role⟩
      · simp [e, Role.owner?] at owner
      · simp [e] at role
  refine s.change s.nil ?_ (fun _ _ _ _ _ => .inr rfl) (fun {b C} hB => ?_)
    (fun {v C} hB role => ?_)
    (fun {x C v w} hB hv there k => ?_) (fun v => (places v).2.2.2.1) fun h =>
    .inl (other.offered ha h)
  · rw [Function.update_of_ne notNil.symm, s.dead]
  · by_cases e : b = a
    · subst e
      rw [Function.update_self, Option.some_inj] at hB
      exact .inr (hB ▸ conf)
    · exact .inl ⟨by rwa [Function.update_of_ne e] at hB, rfl⟩
  · by_cases e : v = u
    · subst e
      rw [Function.update_self]
      by_cases e : v = a
      · exact .inr (shows (e ▸ ha) role)
      · exact .inr (shows (by rwa [Function.update_of_ne e] at hB) role)
    · have ne : v ≠ a := by
        rintro rfl
        rcases owner with owner | ⟨rfl, -⟩
        · simp [role, Role.owner?] at owner
        · exact e rfl
      rw [Function.update_of_ne e]
      refine .inl ⟨by
        rwa [Function.update_of_ne ne] at hB, role, fun x E b C' _ hx hb mine hC => ?_, by simp⟩
      rwa [Function.update_of_ne]
      rintro rfl
      rcases owner with owner | ⟨rfl, role'⟩
      · exact e (Option.some_inj.1 (mine.symm.trans owner))
      · simp [role', Role.owner?] at mine
  · have e : x ≠ a := fun e => keeps w (e ▸ k)
    rw [Function.update_of_ne e] at hB
    exact .inl ⟨⟨C, hB, hv⟩, rfl, places v⟩

end Write

end Tells

/-! ## Stacks -/

/-- The two stacks of a thread. -/
inductive Pile where
  | control | stash
  deriving DecidableEq

namespace Pile

def tag : Pile → Tag
  | control => .control
  | stash => .stash

/-- Where the stack stands in the record of the thread. -/
def index : Pile → Nat
  | control => 0
  | stash => 1

def kind (u : Address) : Pile → Class
  | control => .control u
  | stash => .stash u

end Pile

/-- What is on a stack. -/
def Task.pile (τ : Task) : Pile → List Address
  | .control => τ.control.map Entry.node
  | .stash => τ.stash

namespace Lists

theorem congr (h : Lists F a vs) (same : ∀ {y D}, F y = some D → D.tag = .linkedList → F' y = F y) :
    Lists F' a vs := by
  induction vs generalizing a with
  | nil => exact h
  | cons v vs ih =>
    obtain ⟨next, ha, h⟩ := h
    exact ⟨next, (same ha rfl).trans ha, ih h⟩

theorem unique (dead : F .nil = none) {ws : List Address} (h : Lists F a vs) (h' : Lists F a ws) :
    vs = ws := by
  induction vs generalizing a ws with
  | nil =>
    obtain rfl : a = .nil := h
    cases ws with
    | nil => rfl
    | cons w ws =>
      obtain ⟨_, e, -⟩ := h'
      simp [dead] at e
  | cons v vs ih =>
    obtain ⟨next, ha, h⟩ := h
    cases ws with
    | nil =>
      obtain rfl : a = .nil := h'
      simp [dead] at ha
    | cons w ws =>
      obtain ⟨next', ha', h'⟩ := h'
      obtain ⟨rfl, rfl⟩ : v = w ∧ next = next' := by simpa [ha] using ha'
      rw [ih h h']

/-- A chain does not come back to where it started. -/
theorem behind (dead : F .nil = none) {v top : Address} {o : Option Body} {ws : List Address}
    (h : Lists F top (v :: vs)) (h' : Lists F a ws) (short : ws.length ≤ vs.length) :
    Lists (Function.update F top o) a ws := by
  induction ws generalizing a with
  | nil => exact h'
  | cons w ws ih =>
    have ne : a ≠ top := by
      rintro rfl
      obtain ⟨-, rfl⟩ := List.cons_eq_cons.1 (unique dead h h')
      simp at short
    obtain ⟨next, ha, h'⟩ := h'
    exact ⟨next, by rwa [Function.update_of_ne ne], ih h' (by simp at short; omega)⟩

/-- The links of a chain are different records. -/
theorem links (dead : F .nil = none) (h : Lists F a vs) :
    ∃ ls : List Address, ls.length = vs.length ∧ ls.Nodup ∧ (∀ l ∈ ls, F l ≠ none) ∧
      ∀ l ∈ ls, ∃ ws, Lists F l ws ∧ ws.length ≤ vs.length := by
  induction vs generalizing a with
  | nil => exact ⟨[], rfl, .nil, by simp, by simp⟩
  | cons v vs ih =>
    obtain ⟨next, ha, h'⟩ := id h
    obtain ⟨ls, len, nodup, live, short⟩ := ih h'
    refine ⟨a :: ls, by simp [len], List.nodup_cons.2 ⟨fun hl => ?_, nodup⟩, ?_, ?_⟩
    · obtain ⟨ws, hws, le⟩ := short a hl
      rw [← unique dead h hws] at le
      simp at le
    · rintro l hl
      rcases List.mem_cons.1 hl with rfl | hl
      · simp [ha]
      · exact live l hl
    · rintro l hl
      rcases List.mem_cons.1 hl with rfl | hl
      · exact ⟨v :: vs, h, le_rfl⟩
      · obtain ⟨ws, hws, le⟩ := short l hl
        exact ⟨ws, hws, by simp; omega⟩

/-- A chain does not get to what is no link of its kind. -/
theorem apart (conf : ∀ {a B}, F a = some B → Conforms ρ a B) (dead : F .nil = none)
    {o : Option Body}
    (h : Lists F a vs) (here : a = .nil ∨ ρ a = .link k) (hx : ρ x ≠ .link k) :
    Lists (Function.update F x o) a vs := by
  induction vs generalizing a with
  | nil => exact h
  | cons v vs ih =>
    obtain ⟨next, ha, h⟩ := h
    have role : ρ a = .link k := here.resolve_left fun e => by simp [e, dead] at ha
    refine ⟨next, ?_, ih h (((conf ha).slot (i := 1) (b := next) rfl).imp_right fun slot => ?_)⟩
    · rwa [Function.update_of_ne]
      rintro rfl
      exact hx role
    · simpa [role, Slot] using slot

end Lists

theorem Conforms.thread (c : Conforms ρ a B) (ht : B.tag = .thread) : ρ a = .thread := by
  have := c.tagged
  rw [ht] at this
  cases e : ρ a with
  | thread => rfl
  | holder k => cases k <;> simp [e, Role.Tagged, Class.tag] at this
  | code c =>
    rw [e] at this
    exact absurd this.2 (by decide)
  | _ => simp [e, Role.Tagged] at this

namespace Tells

/-- What stands in the record of a thread. -/
theorem pile_role (s : Tells ρ σ F) {p : Pile} {fs : List UInt64} {cs : List Address} {st : Address}
    (hu : F u = some ⟨.thread, fs, cs⟩) (hst : cs[p.index]? = some st) (there : st ≠ .nil) :
    ρ u = .thread ∧ ρ st = .holder (p.kind u) := by
  have role := (s.conforms hu).thread rfl
  have slot := ((s.conforms hu).slot hst).resolve_left there
  rw [role] at slot
  exact ⟨role, by cases p <;> exact slot⟩

/-- A stack of a thread changes. -/
theorem restack (s : Tells ρ σ F) {p : Pile} {fs fs' : List UInt64} {cs cs' : List Address}
    {st top : Address} (hu : F u = some ⟨.thread, fs, cs⟩) (hst : cs[p.index]? = some st)
    (hb : F st = some ⟨p.tag, fs', cs'⟩) (lists : Lists F top vs)
    (link : top = .nil ∨ ρ top = .link (p.kind u)) (now : τ.pile p = vs)
    (other : ∀ q, q ≠ p → τ.pile q = (σ u).pile q) (line : τ.line = (σ u).line)
    (codes : ∀ e ∈ τ.control, ρ e.node = .code e.code) (place : (σ u).SamePlace τ) :
    Tells ρ (Function.update σ u τ)
      (Function.update F st (some ⟨p.tag, [vs.length.toUInt64], [top]⟩)) := by
  have notNil : st ≠ .nil := fun e => by simp [e, s.dead] at hb
  obtain ⟨role, role'⟩ := s.pile_role hu hst notNil
  have conf : Conforms ρ st ⟨p.tag, [vs.length.toUInt64], [top]⟩ := by
    refine ⟨?_, fun {i b} hi => ?_, by rw [role']; trivial⟩
    · rw [role']
      cases p <;> rfl
    · obtain ⟨rfl, rfl⟩ : i = 0 ∧ top = b := by
        rcases i with _ | i
        · simpa using hi
        · simp at hi
      rw [role']
      exact link
  refine s.rewrite hb conf (.inl (by rw [role']; cases p <;> rfl)) (fun _ _ => ?_) place
  obtain ⟨⟨gs, c, sh, e, hu', hc, hs, he⟩, -, filled⟩ := s.shows hu role
  obtain ⟨rfl, rfl⟩ : fs = gs ∧ cs = [c, sh, e] := by simpa [hu] using hu'
  have chain : ∀ {a ws}, Lists F a ws →
    Lists (Function.update F st (.some ⟨p.tag, [vs.length.toUInt64], [top]⟩)) a ws := by
    intro a ws h
    refine h.congr fun hy ht => Function.update_of_ne (fun e => ?_) ..
    rw [e, hb, Option.some_inj] at hy
    rw [← hy] at ht
    cases p <;> cases ht
  have there : Stacked (Function.update F st (.some ⟨p.tag, [vs.length.toUInt64], [top]⟩)) st p.tag
    (τ.pile p) :=
    .inr ⟨top, by rw [Function.update_self, now], now ▸ chain lists⟩
  have still : ∀ {a q}, q ≠ p → Stacked F a q.tag ((σ u).pile q) →
      Stacked (Function.update F st (.some ⟨p.tag, [vs.length.toUInt64], [top]⟩)) a q.tag
      (τ.pile q) := by
    intro a q ne h
    rw [other q ne]
    refine h.imp_right fun ⟨top', ha, h⟩ => ⟨top', ?_, chain h⟩
    rwa [Function.update_of_ne]
    rintro rfl
    rw [ha, Option.some_inj] at hb
    have := congrArg Body.tag hb
    cases p <;> cases q <;> first | exact ne rfl | cases this
  have same : Function.update F st (.some ⟨p.tag, [vs.length.toUInt64], [top]⟩) u = F u := by
    rw [Function.update_of_ne]
    rintro rfl
    rw [role] at role'
    cases role'
  refine ⟨⟨fs, c, sh, e, same.trans hu, ?_, ?_, ?_⟩, codes, fun made B hB =>
    filled (place.2.2.2.2 ▸ made) B (same.symm.trans hB)⟩
  · cases p with
    | control =>
      obtain rfl : c = st := by simpa [Pile.index] using hst
      exact there
    | stash => exact still (q := .control) (by decide) hc
  · cases p with
    | control => exact still (q := .stash) (by decide) hs
    | stash =>
      obtain rfl : sh = st := by simpa [Pile.index] using hst
      exact there
  · rw [line]
    refine he.imp_right fun ⟨f, structs, ha, on⟩ => ⟨f, structs, ?_, on⟩
    rwa [Function.update_of_ne]
    rintro rfl
    rw [ha, Option.some_inj] at hb
    have := congrArg Body.tag hb
    cases p <;> cases this

/-- What is on a stack of a thread, as far as the stack is there. -/
theorem pile (s : Tells ρ σ F) {p : Pile} {fs : List UInt64} {cs : List Address} {st : Address}
    (hu : F u = some ⟨.thread, fs, cs⟩) (hst : cs[p.index]? = some st) (present : st ≠ .nil) :
    ∃ top, F st = .some ⟨p.tag, [((σ u).pile p).length.toUInt64], [top]⟩ ∧
    Lists F top ((σ u).pile p) ∧
      (top = .nil ∨ ρ top = .link (p.kind u)) := by
  obtain ⟨role, role'⟩ := s.pile_role hu hst present
  obtain ⟨⟨gs, c, sh, e, hu', hc, hs, -⟩, -⟩ := s.shows hu role
  obtain ⟨rfl, rfl⟩ : fs = gs ∧ cs = [c, sh, e] := by simpa [hu] using hu'
  have there : Stacked F st p.tag ((σ u).pile p) := by
    cases p with
    | control =>
      obtain rfl : c = st := by simpa [Pile.index] using hst
      exact hc
    | stash =>
      obtain rfl : sh = st := by simpa [Pile.index] using hst
      exact hs
  obtain ⟨top, ha, h⟩ := there.resolve_left fun h => present h.1
  have slot := (s.conforms ha).slot (i := 0) (b := top) rfl
  rw [role'] at slot
  exact ⟨top, ha, h, slot⟩

/-- Something is put on a stack of a thread. -/
theorem push (s : Tells ρ σ F) (closed : Closed F) {p : Pile} {fs ns : List UInt64}
    {cs ts : List Address} {st node v : Address} (hu : F u = some ⟨.thread, fs, cs⟩)
    (hst : cs[p.index]? = some st) (hb : F st = some ⟨p.tag, ns, ts⟩) (gone : F node = none)
    (there : node ≠ .nil) (takes : v = .nil ∨ (p.kind u).Takes ρ v) (live : v = .nil ∨ F v ≠ none)
    (now : τ.pile p = v :: (σ u).pile p)
    (other : ∀ q, q ≠ p → τ.pile q = (σ u).pile q) (line : τ.line = (σ u).line)
    (codes : ∀ e ∈ τ.control, e ∈ (σ u).control ∨ e.node = v ∧ ρ v = .code e.code)
    (place : (σ u).SamePlace τ) :
    ∃ n top, ns = [n] ∧ ts = [top] ∧ Tells (Function.update ρ node (.link (p.kind u)))
    (Function.update σ u τ)
      (Function.update (Function.update F node (.some ⟨.linkedList, [], [v, top]⟩)) st
        (.some ⟨p.tag, [n + 1], [node]⟩)) := by
  have notNil : st ≠ .nil := fun e => by simp [e, s.dead] at hb
  obtain ⟨top, hb', lists, link⟩ := s.pile hu hst notNil
  obtain ⟨rfl, rfl⟩ : ns = [((σ u).pile p).length.toUInt64] ∧ ts = [top] := by simpa [hb] using hb'
  refine ⟨_, _, rfl, rfl, ?_⟩
  have ne : ∀ {b D}, F b = .some D → b ≠ node := fun hb e => by simp [← e, hb] at gone
  have ne' : v ≠ node := by
    rintro rfl
    exact live.elim there (fun h => h gone)
  have settled : ∀ {b}, ρ b ≠ .loose → (b = .nil ∨ F b ≠ none) →
      Function.update ρ node (.link (p.kind u)) b = ρ b := by
    intro b hb live
    rw [Function.update_of_ne]
    rintro rfl
    exact live.elim (fun e => hb (by rw [e, s.nil])) fun h => h gone
  have top_live : top = .nil ∨ F top ≠ none := closed st _ top hb (by simp)
  have settled' : Settled F ρ (Function.update ρ node (.link (p.kind u))) := by
    intro x B b hx hb
    refine or_iff_not_imp_left.2 fun h => settled h (closed x B b hx hb)
  have s₁ : Tells (Function.update ρ node (.link (p.kind u))) σ
      (Function.update F node (.some ⟨.linkedList, [], [v, top]⟩)) := by
    refine s.create_still closed gone there ⟨?_, fun {i b} hi => ?_, ?_⟩ (by simp) ?_ ?_
    · rw [Function.update_self]
      rfl
    · rw [Function.update_self]
      rcases i with _ | _ | i
      · obtain rfl : v = b := by simpa using hi
        refine takes.imp_right fun takes => ?_
        simp only [Slot, if_true]
        exact takes.congr (.inr (Function.update_of_ne ne' ..))
      · obtain rfl : top = b := by simpa using hi
        refine link.imp_right fun link => ?_
        simp only [Slot, Nat.zero_add, one_ne_zero, if_false]
        rw [settled (by rw [link]; simp) top_live, link]
      · simp at hi
    · rw [Function.update_self]
      trivial
    · intro _ w keeps
      cases p <;> simp [Role.Keeps, Pile.kind] at keeps
    · simp
  have role := (s.pile_role hu hst notNil).1
  have hu₁ : Function.update F node (.some ⟨.linkedList, [], [v, top]⟩) u = .some
    ⟨.thread, fs, cs⟩ := by
    rwa [Function.update_of_ne (ne hu)]
  have hb₁ : Function.update F node (.some ⟨.linkedList, [], [v, top]⟩) st = _ :=
    (Function.update_of_ne (ne hb) ..).trans hb
  have chain : Lists (Function.update F node (.some ⟨.linkedList, [], [v, top]⟩)) node
    (v :: (σ u).pile p) :=
    ⟨top, Function.update_self .., lists.congr fun hy _ => Function.update_of_ne (ne hy) ..⟩
  have s₂ := s₁.restack hu₁ hst hb₁ (τ := τ) chain
    (.inr (Function.update_self ..)) now other line (fun e he => ?_) place
  · rwa [List.length_cons, show (((σ u).pile p).length + 1).toUInt64 =
      _ from UInt64.ofNat_add _ 1] at s₂
  · rcases codes e he with old | ⟨rfl, role'⟩
    · exact (s₁.shows hu₁ (by rw [Function.update_of_ne (ne hu), role])).codes e old
    · rw [Function.update_of_ne ne', role']

/-- The top of a stack of a thread is taken off. -/
theorem pop (s : Tells ρ σ F) {p : Pile} {fs ns : List UInt64}
    {cs ts : List Address} {st v : Address} (hu : F u = some ⟨.thread, fs, cs⟩)
    (hst : cs[p.index]? = some st) (hb : F st = some ⟨p.tag, ns, ts⟩)
    (now : (σ u).pile p = v :: τ.pile p) (small : ((σ u).pile p).length < 2 ^ 64)
    (other : ∀ q, q ≠ p → τ.pile q = (σ u).pile q) (line : τ.line = (σ u).line)
    (codes : ∀ e ∈ τ.control, e ∈ (σ u).control) (place : (σ u).SamePlace τ) :
    ∃ n top next, ns = [n] ∧ ts = [top] ∧ F top = some ⟨.linkedList, [], [v, next]⟩ ∧
      Tells ρ (Function.update σ u τ)
        (Function.update (Function.update F top (some ⟨.linkedList, [], [.nil, .nil]⟩)) st
          (some ⟨p.tag, [Stack.decrement n], [next]⟩)) := by
  have notNil : st ≠ .nil := fun e => by simp [e, s.dead] at hb
  obtain ⟨top, hb', lists, link⟩ := s.pile hu hst notNil
  obtain ⟨rfl, rfl⟩ : ns = [((σ u).pile p).length.toUInt64] ∧ ts = [top] := by simpa [hb] using hb'
  rw [now] at lists
  obtain ⟨next, ht, rest⟩ := id lists
  refine ⟨_, top, next, rfl, rfl, ht, ?_⟩
  have role' : ρ top = .link (p.kind u) := link.resolve_left fun e => by simp [e, s.dead] at ht
  obtain ⟨role, holder⟩ := s.pile_role hu hst notNil
  have slot := (s.conforms ht).slot (i := 1) (b := next) rfl
  have link' : next = .nil ∨ ρ next = .link (p.kind u) := slot.imp_right fun slot => by
    simpa [role', Slot] using slot
  have apart : st ≠ top := by
    rintro rfl
    rw [role'] at holder
    cases holder
  have s₁ := s.restack hu hst hb rest link' rfl other line
    (fun e he => (s.shows hu role).codes e (codes e he)) place
  have less : Stack.decrement ((σ u).pile p).length.toUInt64 = (τ.pile p).length.toUInt64 := by
    have long : ((σ u).pile p).length = (τ.pile p).length + 1 := by rw [now, List.length_cons]
    rw [long] at small ⊢
    have e : ((τ.pile p).length + 1).toUInt64 = (τ.pile p).length.toUInt64 + 1 :=
      UInt64.ofNat_add _ 1
    have ne : ((τ.pile p).length + 1).toUInt64 ≠ 0 := by
      intro zero
      have := congrArg UInt64.toNat zero
      simp at this
      omega
    rw [Stack.decrement, if_neg ne, e]
    simp
  rw [less, Function.update_comm apart.symm]
  generalize hF : Function.update F st
    (some ⟨p.tag, [(τ.pile p).length.toUInt64], [next]⟩) = F₁ at s₁ ⊢
  have away : ∀ {b}, b ≠ st → F₁ b = F b := fun e => by rw [← hF, Function.update_of_ne e]
  have ht₁ : F₁ top = some ⟨.linkedList, [], [v, next]⟩ := (away apart.symm).trans ht
  have conf : Conforms ρ top ⟨.linkedList, [], [.nil, .nil]⟩ := by
    refine ⟨by rw [role']; rfl, fun {i b} hi => .inl ?_, by rw [role']; trivial⟩
    exact List.eq_of_mem_replicate (n := 2) (List.mem_of_getElem? hi)
  have s₂ := s₁.rewrite (u := u) (τ := τ) ht₁ conf (.inl (by rw [role']; cases p <;> rfl)) ?_
    (by simp)
  · rwa [Function.update_idem] at s₂
  intro _ hu₁ _
  have sh := s₁.shows hu₁ role
  rw [Function.update_self] at sh
  obtain ⟨⟨gs, c, s', e, hu', hc, hs, he⟩, codes', filled⟩ := sh
  have ne : ∀ {b D}, F₁ b = some D → D.tag ≠ .linkedList → b ≠ top := by
    rintro b D hD tag rfl
    rw [ht₁, Option.some_inj] at hD
    exact tag (hD ▸ rfl)
  have still : ∀ {q : Pile} {a}, q.tag ≠ .linkedList → (a = .nil ∨ ρ a = .holder (q.kind u)) →
      Stacked F₁ a q.tag (τ.pile q) →
      Stacked (Function.update F₁ top (some ⟨.linkedList, [], [.nil, .nil]⟩)) a q.tag
      (τ.pile q) := by
    intro q a hq holder' h
    refine h.imp_right ?_
    rintro ⟨top', ha, h⟩
    refine ⟨top', ?_, ?_⟩
    · rwa [Function.update_of_ne (ne ha hq)]
    by_cases e : q = p
    · subst e
      refine Lists.behind s₁.dead (v := v) ⟨next, ht₁, ?_⟩ h le_rfl
      refine rest.congr fun {y D} hy tag => away fun e => ?_
      rw [e, hb, Option.some_inj] at hy
      exact hq (by rw [← tag, ← hy])
    · have slot := (s₁.conforms ha).slot (i := 0) (b := top') rfl
      have holder' := holder'.resolve_left fun e => by simp [e, s₁.dead] at ha
      rw [holder'] at slot
      refine h.apart s₁.conforms s₁.dead slot ?_
      rw [role']
      cases p <;> cases q <;> simp_all [Pile.kind]
  have child : ∀ {i b}, [c, s', e][i]? = some b → b = .nil ∨ Slot ρ u .thread i b .thread :=
    fun hb =>
    role ▸ (s₁.conforms hu').slot hb
  refine ⟨⟨gs, c, s', e, ?_, still (q := .control) (by decide) (child (i := 0) rfl) hc,
    still (q := .stash) (by decide) (child (i := 1) rfl) hs, ?_⟩, codes', fun made B hB =>
    filled made B ?_⟩
  · rwa [Function.update_of_ne (ne hu' (by simp))]
  · refine he.imp_right ?_
    rintro ⟨f, structs, ha, on⟩
    refine ⟨f, structs, ?_, on⟩
    rwa [Function.update_of_ne (ne ha (by simp))]
  · rwa [Function.update_of_ne (ne hu' (by simp))] at hB

end Tells

/-! ## Frames -/

theorem OnLine.slot (on : OnLine ρ a line) : a = .nil ∨ ∃ line, ρ a = .frame line := by
  cases line with
  | nil => exact .inl on
  | cons f line => exact .inr ⟨line, on.1 ▸ on.2⟩

namespace Tells

/-- The current frame of a thread changes. -/
theorem reframe (s : Tells ρ σ F) {fs : List UInt64} {cs : List Address} {e f : Address}
    (hu : F u = some ⟨.thread, fs, cs⟩) (he : cs[2]? = some e) (hb : F e = some B)
    (on : OnLine ρ f line) :
    Tells ρ (Function.update σ u { σ u with line })
      (Function.update F e (some { B with children := B.children.set 0 f })) := by
  have notNil : e ≠ .nil := fun e => by simp [e, s.dead] at hb
  have role := (s.conforms hu).thread rfl
  have role' := ((s.conforms hu).slot he).resolve_left notNil
  rw [role] at role'
  have role' : ρ e = .env u := role'
  obtain ⟨⟨gs, c, sh, e', hu', hc, hs, he'⟩, codes, filled⟩ := s.shows hu role
  obtain ⟨rfl, rfl⟩ : fs = gs ∧ cs = [c, sh, e'] := by simpa [hu] using hu'
  obtain rfl : e' = e := by simpa using he
  obtain ⟨g, structs, he', -⟩ := he'.resolve_left fun h => notNil h.1
  obtain rfl : B = ⟨.env, [], [g, structs]⟩ := by simpa [hb] using he'
  refine s.rewrite hb ⟨by rw [role']; rfl, fun {i b} hi => ?_, by rw [role']; trivial⟩
    (.inl (by rw [role']; rfl))
    (fun _ _ => ?_) ⟨rfl, rfl, rfl, subset_rfl, rfl⟩
  · rw [role']
    rcases i with _ | i
    · obtain rfl : f = b := by simpa using hi
      exact on.slot.imp_right fun h _ => h
    · exact .inr fun e => absurd e (by simp)
  have ne : ∀ {b D}, F b = some D → D.tag ≠ .env → b ≠ e' := by
    rintro b D hD tag rfl
    rw [hb, Option.some_inj] at hD
    exact tag (hD ▸ rfl)
  have still : ∀ {a vs t}, t ≠ .env → Stacked F a t vs →
      Stacked (Function.update F e' (some ⟨.env, [], [f, structs]⟩)) a t vs := by
    intro a vs t ht h
    refine h.imp_right fun ⟨top, ha, h⟩ => ⟨top, ?_, ?_⟩
    · rwa [Function.update_of_ne (ne ha ht)]
    · exact h.congr fun hy tag => Function.update_of_ne (ne hy (by simp [tag])) ..
  have same : Function.update F e' (some ⟨.env, [], [f, structs]⟩) u = F u :=
    Function.update_of_ne (ne hu (by simp)) ..
  refine ⟨⟨fs, c, sh, e', same.trans hu, still (by simp) hc, still (by simp) hs, ?_⟩,
    codes, fun made B hB =>
    filled made B (same.symm.trans hB)⟩
  · exact .inr ⟨f, structs, Function.update_self .., on⟩

/-! ## Where a thread stands -/

/-- A record comes up with a thread that stands nowhere else. -/
theorem grasp (s : Tells ρ σ F) (closed : Closed F) (gone : F a = none) (notNil : a ≠ .nil)
    (conf : Conforms (Function.update ρ a r) a B) (hr : r ≠ .thread)
    (first : B.children[0]? = some u)
    (free : (σ u).place = none) (work : (σ u).SameWork τ) (place : τ.place = some a)
    (waits : ∀ w, r.Keeps w → τ.waits = w) (other : ∀ j, r ≠ .waiting j) :
    Tells (Function.update ρ a r) (Function.update σ u τ) (Function.update F a (some B)) := by
  have works : ∀ v, (σ v).SameWork (Function.update σ u τ v) := by
    intro v
    by_cases e : v = u
    · rwa [e, Function.update_self]
    · simp [Function.update_of_ne e]
  refine s.create closed gone notNil conf (fun v _ => works v) (works a).2.2.2.1 (.inl hr)
    (fun {x D v w} hx hv there keeps => ?_) (fun {v w} hv there keeps => ?_) fun e =>
    absurd e (other _)
  · have e : v ≠ u := by
      rintro rfl
      simp [(s.place hx hv there keeps).1] at free
    simp [Function.update_of_ne e]
  · obtain rfl : u = v := by simpa [first] using hv
    rw [Function.update_self]
    exact ⟨place, waits w keeps⟩

/-- A thread that stands nowhere may wait for anything. -/
theorem rewait (s : Tells ρ σ F) (free : (σ u).place = none) {w : Option Wait} :
    Tells ρ (Function.update σ u { σ u with waits := w }) F := by
  have works : ∀ v, (σ v).SameWork (Function.update σ u { σ u with waits := w } v) := by
    intro v
    by_cases e : v = u
    · subst e
      rw [Function.update_self]
      exact ⟨rfl, rfl, rfl, subset_rfl, rfl⟩
    · simp [Function.update_of_ne e]
  refine s.change s.nil s.dead (fun _ _ _ _ _ => .inr rfl) (fun hB => .inl ⟨hB, rfl⟩)
    (fun {v B} hB role => .inl ⟨hB, role, fun _ _ _ _ _ _ _ _ h => h, works v⟩)
    (fun {x B v w'} hx hv there keeps => ?_) (fun v => (works v).2.2.2.1) .inl
  · have e : v ≠ u := by
      rintro rfl
      simp [(s.place hx hv there keeps).1] at free
    exact .inl ⟨⟨B, hx, hv⟩, rfl, by simp [Function.update_of_ne e]⟩

/-- A thread leaves the record that it stands in. -/
theorem release (s : Tells ρ σ F) (ha : F a = some B) (conf : Conforms ρ a D)
    (owner : (ρ a).owner? = none) (thread : ρ a ≠ .thread) (first : B.children[0]? = some u)
    (there : u ≠ .nil) {w : Option Wait} (keeps : (ρ a).Keeps w)
    (gone : D.children[0]? = .some .nil) (work : (σ u).SameWork τ) (less : Emptied (ρ a) B D) :
    Tells ρ (Function.update σ u τ) (Function.update F a (.some D)) := by
  refine s.write ha conf owner thread (fun v => ?_) (fun {x C v w} ne hx hv notNil keeps' => ?_)
    (fun {v w} hv notNil _ => ?_) less
  · by_cases e : v = u
    · rwa [e, Function.update_self]
    · simp [Function.update_of_ne e]
  · have e : v ≠ u := by
      rintro rfl
      have := (s.place ha first there keeps).1
      rw [(s.place hx hv notNil keeps').1, Option.some_inj] at this
      exact ne this
    simp [Function.update_of_ne e]
  · rw [gone, Option.some_inj] at hv
    exact absurd hv.symm notNil

end Tells

end GoMachine
