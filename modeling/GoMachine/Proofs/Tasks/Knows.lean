import GoMachine.Proofs.Owns.Ledger
import GoMachine.Proofs.Tasks.Sees
/-!
# What is known on the way

`Knows k σ n O h` is what holds in the middle of a step: the machine owns `O` for now and what `k`
says for longer, some records are known to say this or that, some to have a certain role, and `σ`
tells what each thread has left to do. A record is known as long as it is owned or something refers
to it that is known itself (`Known.Keeps`).

* `Knows.step`: a change after which roles and tasks are as seen.
* `Knows` is a ledger: whatever is done with values changes nothing of what is known.
-/
namespace GoMachine

open Heap (Held Retains)

/-- What is owned for longer, what records say, and what they are for. -/
structure Known where
  stays : Multiset Address := 0
  facts : Facts := fun _ => none
  notes : List (Address × Role) := []

namespace Known

/-- What cannot go away: it is owned, or something refers to it that is known. -/
def Keeps (k : Known) (a : Address) : Prop :=
  a = .nil ∨ a ∈ k.stays ∨ ∃ d D, k.facts d = some D ∧ a ∈ D.children

/-- Roles that are as noted. -/
def Noted (k : Known) (ρ : Roles) : Prop := ∀ x ∈ k.notes, ρ x.1 = x.2

/-- Nothing that is known can go away. -/
structure Wf (k : Known) : Prop where
  held : Held k.facts k.stays
  kept : ∀ x ∈ k.notes, k.Keeps x.1

def hold (k : Known) (a : Address) : Known := { k with stays := a ::ₘ k.stays }

def note (k : Known) (a : Address) (r : Role) : Known := { k with notes := (a, r) :: k.notes }

def own (k : Known) (a : Address) (r : Role) : Known := (k.hold a).note a r

def learn (k : Known) (a : Address) (D : Body) : Known :=
  { k with facts := Function.update k.facts a (some D) }

/-- No more is known than by another. -/
structure Within (k k' : Known) : Prop where
  facts : k.facts.Sub k'.facts
  notes : k.notes ⊆ k'.notes

end Known

/-- The tags of records that no operation on stacks, queues and scopes writes. -/
def Tag.keptByChains : Tag → Bool
  | .queue | .linkedList | .control | .stash | .env => false
  | _ => true

/-- The tags of records that also stay as they are when threads wait and are woken. -/
def Tag.keptByWaking (t : Tag) : Bool :=
    t.keptByChains && t ∉ [.waker, .waitingInstance, .scheduler]

/-- The tags of records that also stay as they are when values are made and variables are set. -/
def Tag.keptByValues (t : Tag) : Bool := t.keptByWaking && !t.isValue && t != .frame

/-- The tags of records that no turn of a thread writes once they are made. -/
def Tag.keptByTurns (t : Tag) : Bool := t.keptByValues && !t.isLock && t != .channel

/-- What is known is known of records with such tags only. -/
class Known.Only (p : Tag → Bool) (k : Known) : Prop where
  only : ∀ {a D}, k.facts a = some D → p D.tag

abbrev Known.KeptByChains := Known.Only Tag.keptByChains

abbrev Known.KeptByWaking := Known.Only Tag.keptByWaking

abbrev Known.KeptByValues := Known.Only Tag.keptByValues

abbrev Known.KeptByTurns := Known.Only Tag.keptByTurns

/-- The machine owns `O` for now, and knows `k` and what each thread has left to do. -/
structure Knows (k : Known) (σ : Address → Task) (n : Nat) (O : Multiset Address) (h : Heap) : Prop
    extends Retains k.facts k.stays n O h where
  kept : ∀ x ∈ k.notes, k.Keeps x.1
  sees : ∃ ρ, Sees ρ σ h.body? ∧ k.Noted ρ

/-- There are roles as seen and noted for which something holds. -/
def Known.Finds (k : Known) (σ : Address → Task) (h : Heap) (p : Roles → Prop) : Prop :=
  ∃ ρ, Sees ρ σ h.body? ∧ k.Noted ρ ∧ p ρ

/-- The tags of records that have no role of their own. -/
def Tag.isPlain : Tag → Bool
  | .queue | .linkedList | .control | .stash | .thread | .env | .frame | .waker
  | .waitingInstance => false
  | t => !t.isControl

variable {k k' : Known} {σ σ' : Address → Task} {n m : Nat} {O O' : Multiset Address} {h h' : Heap}
  {a b v : Address} {r : Role} {D : Body} {ρ : Roles} {t : Tag} {i : Nat} {w : UInt64} {F : Facts}
  {B : Body}

theorem Conforms.loose (c : Conforms ρ a B) (ht : B.tag.isPlain) : ρ a = .loose := by
  have tagged := c.tagged
  cases e : ρ a with
  | loose => rfl
  | holder k =>
    rw [e] at tagged
    have : B.tag = k.tag := tagged
    rw [this] at ht
    cases k <;> cases ht
  | code c =>
    rw [e] at tagged
    obtain ⟨e', control⟩ := tagged
    have : B.tag.isControl = false := by
      unfold Tag.isPlain at ht
      split at ht <;> simp_all
    rw [control] at this
    cases this
  | _ =>
    rw [e] at tagged
    have : B.tag = _ := tagged
    rw [this] at ht
    cases ht

theorem Conforms.frame (c : Conforms ρ a B) (ht : B.tag = .frame) :
    ρ a = .loose ∨ ∃ line, ρ a = .frame line := by
  have tagged := c.tagged
  rw [ht] at tagged
  cases e : ρ a with
  | loose => exact .inl rfl
  | frame line => exact .inr ⟨line, rfl⟩
  | holder k => cases k <;> simp [e, Role.Tagged, Class.tag] at tagged
  | code c =>
    rw [e] at tagged
    exact absurd tagged.2 (by decide)
  | _ => simp [e, Role.Tagged] at tagged

instance [k.KeptByTurns] : k.KeptByValues where
  only h := by
    have := Known.Only.only (p := Tag.keptByTurns) h
    simp only [Tag.keptByTurns, Bool.and_eq_true] at this
    exact this.1.1

instance [k.KeptByValues] : k.KeptByWaking where
  only h := by
    have := Known.Only.only (p := Tag.keptByValues) h
    simp only [Tag.keptByValues, Bool.and_eq_true] at this
    exact this.1.1

instance [k.KeptByWaking] : k.KeptByChains where
  only h := by
    have := Known.Only.only (p := Tag.keptByWaking) h
    simp only [Tag.keptByWaking, Bool.and_eq_true] at this
    exact this.1

instance {p : Tag → Bool} [k.Only p] : (k.hold a).Only p := ⟨Known.Only.only (k := k)⟩

instance {p : Tag → Bool} [k.Only p] : (k.note a r).Only p := ⟨Known.Only.only (k := k)⟩

instance {p : Tag → Bool} [k.Only p] : (k.own a r).Only p := ⟨Known.Only.only (k := k)⟩

theorem Known.Only.learn {p : Tag → Bool} [k.Only p] (hD : p D.tag) : (k.learn a D).Only p where
  only {b E} hb := by
    by_cases e : b = a
    · subst e
      obtain rfl : D = E := by simpa [Known.learn] using hb
      exact hD
    · exact Known.Only.only (k := k) (by simpa [Known.learn, Function.update_of_ne e] using hb)

/-- What is known is not what has another tag. -/
theorem Known.other (p : Tag → Bool) [k.Only p] (ht : p t = false) (hD : k.facts a = some D) :
    D.tag ≠ t := by
  rintro rfl
  rw [Known.Only.only (p := p) hD] at ht
  cases ht

theorem Tag.not_keptByValues (ht : t.isValue) : t.keptByValues = false := by
  simp [Tag.keptByValues, ht]

theorem Tag.isPlain_of_isValue (ht : t.isValue) : t.isPlain := by
  cases t <;> first | rfl | exact ht

theorem Tag.isPlain_of_isLock (ht : t.isLock) : t.isPlain := by
  cases t <;> cases ht <;> rfl

theorem Tag.fits_of_isControl (ht : t.isControl) : t.slots ≤ m := by
  cases t <;> first | exact Nat.zero_le _ | cases ht

theorem Tag.fits_of_isLock (ht : t.isLock) : t.slots ≤ m := by
  cases t <;> first | exact Nat.zero_le _ | cases ht

/-- Nothing special stands in the slots of values. -/
theorem LooseSlot.of_isValue (ht : t.isValue) : LooseSlot ρ b t i := by
  unfold LooseSlot
  split <;> first | cases ht | trivial

/-- One slot of a record changes. -/
theorem Conforms.set (c : Conforms ρ a D) (slot : b = .nil ∨ Slot ρ a D.tag i b (ρ a))
    (whole : Whole ρ { D with children := D.children.set i b } (ρ a)) :
    Conforms ρ a { D with children := D.children.set i b } := by
  refine ⟨c.tagged, fun {j d} hd => ?_, whole⟩
  by_cases e : i = j
  · subst e
    obtain rfl : b = d := by
      rw [List.getElem?_set] at hd
      split_ifs at hd <;> simp_all
    exact slot
  · rw [List.getElem?_set_ne e] at hd
    exact c.slot hd

namespace Knows

theorem wf (g : Knows k σ n O h) : k.Wf := ⟨g.held, g.kept⟩

/-- What is known is there. -/
theorem live (g : Knows k σ n O h) (ha : k.Keeps a) : a = .nil ∨ h.body? a ≠ none := by
  rcases ha with rfl | ha | ⟨d, D, hd, ha⟩
  · exact .inl rfl
  · refine (g.owns.exact.closed (a := a) (by simp [ha])).imp_right fun live => ?_
    simp [Heap.body?, Heap.cell?_eq_some.2 ⟨live, rfl⟩]
  · exact g.closed d D a (g.body hd) ha

/-- What is owned for now is there. -/
theorem live_of_mem (g : Knows k σ n O h) (ha : a ∈ O) : a = .nil ∨ h.body? a ≠ none := by
  refine (g.owns.exact.closed (a := a) (by simp [ha])).imp_right fun live => ?_
  simp [Heap.body?, Heap.cell?_eq_some.2 ⟨live, rfl⟩]

theorem weaken (g : Knows k σ n O h) (le : m ≤ n) : Knows k σ m O h :=
  ⟨g.toRetains.weaken le, g.kept, g.sees⟩

theorem restore (g : Knows k σ n O h) (g' : Knows k σ' m O h') : Knows k σ' n O h' :=
  ⟨g.toRetains.restore g'.toRetains, g'.kept, g'.sees⟩

theorem swap (g : Knows k σ n (a ::ₘ b ::ₘ O) h) : Knows k σ n (b ::ₘ a ::ₘ O) h := by
  rwa [Multiset.cons_swap]

theorem cons_nil : Knows k σ n (.nil ::ₘ O) h ↔ Knows k σ n O h :=
  ⟨fun g => ⟨Retains.cons_nil.1 g.toRetains, g.kept, g.sees⟩,
    fun g => ⟨Retains.cons_nil.2 g.toRetains, g.kept, g.sees⟩⟩

/-- Roles change, and so does what threads have left to do. -/
theorem step (g : Knows k σ n O h) (g' : Retains k.facts k.stays m O' h')
    (sees : ∀ ρ, Sees ρ σ h.body? → k.Noted ρ → ∃ ρ', Sees ρ' σ' h'.body? ∧
      ∀ b, b = .nil ∨ h.body? b ≠ none → ρ' b = ρ b) : Knows k σ' m O' h' := by
  obtain ⟨ρ, seen, noted⟩ := g.sees
  obtain ⟨ρ', seen', same⟩ := sees ρ seen noted
  exact ⟨g', g.kept, ρ', seen', fun x hx => (same _ (g.live (g.kept x hx))).trans (noted x hx)⟩

/-- Only what threads have left to do changes, and what records say. -/
theorem still (g : Knows k σ n O h) (g' : Retains k.facts k.stays m O' h')
    (sees : ∀ ρ, Sees ρ σ h.body? → k.Noted ρ → Sees ρ σ' h'.body?) : Knows k σ' m O' h' :=
  g.step g' fun ρ seen noted => ⟨ρ, sees ρ seen noted, fun _ _ => rfl⟩

/-! ## More and less is known -/

theorem hold (g : Knows k σ n (a ::ₘ O) h) : Knows (k.hold a) σ n O h := by
  refine ⟨g.toRetains.stay, fun x hx => ?_, g.sees⟩
  exact (g.kept x hx).imp_right (.imp_left Multiset.mem_cons_of_mem)

theorem note (g : Knows k σ n O h) (kept : k.Keeps a) (role : k.Finds σ h fun ρ => ρ a = r) :
    Knows (k.note a r) σ n O h := by
  obtain ⟨ρ, seen, noted, role⟩ := role
  refine ⟨g.toRetains, fun x hx => ?_, ρ, seen, fun x hx => ?_⟩
  · rcases List.mem_cons.1 hx with rfl | hx
    · exact kept
    · exact g.kept x hx
  · rcases List.mem_cons.1 hx with rfl | hx
    · exact role
    · exact noted x hx

theorem own (g : Knows k σ n (a ::ₘ O) h) (role : k.Finds σ h fun ρ => ρ a = r) :
    Knows (k.own a r) σ n O h :=
  g.hold.note (.inr (.inl (by simp [Known.hold]))) role

theorem learn (g : Knows k σ n O h) (ha : h.body? a = some D) (kept : k.Keeps a) :
    Knows (k.learn a D) σ n O h := by
  have kept := kept.resolve_left fun e => by simp [e, g.dead] at ha
  refine ⟨g.toRetains.learn ha kept, fun x hx => ?_, g.sees⟩
  refine (g.kept x hx).imp_right (.imp_right fun ⟨d, E, hd, hm⟩ => ?_)
  by_cases e : d = a
  · subst e
    refine ⟨d, D, Function.update_self .., ?_⟩
    obtain rfl : D = E := by simpa [ha] using g.body hd
    exact hm
  · exact ⟨d, E, (Function.update_of_ne e ..).trans hd, hm⟩

theorem forget (g : Knows k' σ n O h) (within : k.Within k') (stays : k'.stays = k.stays)
    (wf : k.Wf) :
    Knows k σ n O h := by
  obtain ⟨ρ, seen, noted⟩ := g.sees
  exact ⟨stays ▸ g.toRetains.forget within.facts (stays ▸ wf.held), wf.kept, ρ, seen,
    fun x hx => noted x (within.notes hx)⟩

/-- What was owned for longer is given up. -/
theorem unhold (g : Knows k' σ n O h) (within : k.Within k') (stays : k'.stays = a ::ₘ k.stays)
    (wf : k.Wf) :
    Knows k σ n (a ::ₘ O) h := by
  obtain ⟨ρ, seen, noted⟩ := g.sees
  exact ⟨(stays ▸ g.toRetains.forget within.facts
    (stays ▸ wf.held.anti (Multiset.le_cons_self _ a))).unstay wf.held,
    wf.kept, ρ, seen, fun x hx => noted x (within.notes hx)⟩

theorem wf_own (wf : k.Wf) : (k.own a r).Wf := by
  refine ⟨wf.held.anti (Multiset.le_cons_self _ a), fun x hx => ?_⟩
  rcases List.mem_cons.1 hx with rfl | hx
  · exact .inr (.inl (by simp [Known.own, Known.hold, Known.note]))
  · exact (wf.kept x hx).imp_right (.imp_left Multiset.mem_cons_of_mem)

theorem disown (g : Knows (k.own a r) σ n O h) (wf : k.Wf) : Knows k σ n (a ::ₘ O) h :=
  g.unhold ⟨.refl, List.subset_cons_self _ _⟩ rfl wf

theorem role (g : Knows (k.own a r) σ n O h) : k.Finds σ h fun ρ => ρ a = r := by
  obtain ⟨ρ, seen, noted⟩ := g.sees
  exact ⟨ρ, seen, fun x hx => noted x (List.mem_cons_of_mem _ hx),
    noted (a, r) (by simp [Known.own, Known.note])⟩

/-! ## The primitives -/

/-- A new record with a role that asks for nothing yet. -/
theorem allocate_role {fields children : Nat} (g : Knows k σ n O h) (fits : t.slots ≤ children)
    (tagged : r.Tagged t)
    (whole : ∀ {ρ B}, Whole ρ B r) (hr : r ≠ .thread) (hr' : r ≠ .holder .runnable) :
    Yields (HeapM.allocate t fields children) h fun a h' => Knows (k.own a r) σ n O h' ∧ a ≠ .nil ∧
      h.body? a = none ∧ k.facts a = none ∧
      h'.body? = Function.update h.body? a
      (some ⟨t, .replicate fields 0, .replicate children .nil⟩) := by
  refine (g.toRetains.allocate fits).mono fun a h' ⟨g', notNil, gone, unknown, e⟩ =>
    ⟨?_, notNil, gone, unknown, e⟩
  obtain ⟨ρ, seen, noted⟩ := g.sees
  refine ⟨g'.stay, fun x hx => ?_, Function.update ρ a r, ?_, fun x hx => ?_⟩
  · rcases List.mem_cons.1 hx with rfl | hx
    · exact .inr (.inl (by simp [Known.own, Known.hold, Known.note]))
    · exact (g.kept x hx).imp_right (.imp_left Multiset.mem_cons_of_mem)
  · rw [e]
    have nils : ∀ {i : Nat} {b : Address}, (List.replicate children Address.nil)[i]? = some b →
      b = .nil :=
      fun hb => List.eq_of_mem_replicate (List.mem_of_getElem? hb)
    refine seen.create_still g.closed gone notNil ⟨?_, fun hb => .inl (nils hb), ?_⟩ hr hr'
      (fun _ => nils)
      fun {j w b E u} _ hi _ hw => ?_
    · rwa [Function.update_self]
    · rw [Function.update_self]
      exact whole
    · obtain rfl := nils hi
      simp [seen.dead] at hw
  · rcases List.mem_cons.1 hx with rfl | hx
    · exact Function.update_self ..
    · refine (Function.update_of_ne ?_ ..).trans (noted x hx)
      rintro rfl
      exact (g.live (g.kept x hx)).elim notNil fun live => live gone

theorem allocate_plain {fields children : Nat} (g : Knows k σ n O h) (ht : t ≠ .thread)
    (fits : t.slots ≤ children) :
    Yields (HeapM.allocate t fields children) h fun a h' => Knows k σ n (a ::ₘ O) h' ∧ a ≠ .nil ∧
      h.body? a = none ∧ k.facts a = none ∧
      h'.body? = Function.update h.body? a
      (some ⟨t, .replicate fields 0, .replicate children .nil⟩) :=
  (g.allocate_role (r := .loose) fits ht trivial (by simp) (by simp)).mono fun _ _ ⟨g', e⟩ =>
  ⟨g'.disown g.wf, e⟩

theorem setField (g : Knows k σ n O h) (ht : t.isPlain) (other : ∀ {D}, k.facts a = some D →
    D.tag ≠ t) :
    Yields (HeapM.setField a t i w) h fun _ h' => Knows k σ n O h' := by
  refine (g.toRetains.setField other).mono fun _ _ ⟨g', D, ha, tag, e⟩ => g.still g' fun _ seen _ =>
    ?_
  have role := (seen.conforms ha).loose (tag ▸ ht)
  rw [e]
  refine seen.write_still ha ⟨?_, fun hb => (seen.conforms ha).slot hb, ?_⟩ (by rw [role]; rfl)
    (by simp [role])
    (by simp [role, Role.IsQueue]) (.inl rfl) (.of_ne (by simp [role]) (by simp [role]))
  · exact (seen.conforms ha).tagged
  · rw [role]
    trivial

theorem reference (g : Knows k σ (n + 1) O h) :
    Yields (HeapM.reference a) h fun b h' => b = a ∧ Knows k σ n (a ::ₘ O) h' ∧
    h'.body? = h.body? :=
  g.toRetains.reference.mono fun _ _ ⟨e, g', same⟩ =>
    ⟨e, g.still g' fun _ seen _ => same ▸ seen, same⟩

theorem free (g : Knows k σ n (a ::ₘ O) h) : Yields (HeapM.free a) h fun _ h' => Knows k σ n O h' :=
  g.toRetains.free.mono fun _ _ ⟨g', sub⟩ => g.still g' fun _ seen _ => seen.sub sub g'.closed

/-- A reference moves into a slot of a record that has no role of its own. -/
theorem setChildOwned (g : Knows k σ n (b ::ₘ O) h) (ht : t.isPlain)
    (other : ∀ {D}, k.facts a = some D → D.tag ≠ t)
    (slot : k.Finds σ h fun ρ => b = .nil ∨ LooseSlot ρ b t i) :
    Yields (HeapM.setChildOwned a t i b) h fun _ h' => Knows k σ n O h' := by
  refine (g.toRetains.setChildOwned other).mono ?_
  rintro _ _ ⟨g', D, d, ha, tag, old, sub, -⟩
  obtain ⟨ρ, seen, noted, slot⟩ := slot
  have role := (seen.conforms ha).loose (tag ▸ ht)
  refine ⟨g', g.kept, ρ,
    Sees.sub (seen.write_still ha ((seen.conforms ha).set ?_ (by rw [role]; trivial))
    (by rw [role]; rfl) (by simp [role]) (by simp [role, Role.IsQueue])
    (.inr (.inr (by simp [role, Role.Keeps])))
    (.of_ne (by simp [role]) (by simp [role]))) sub g'.closed, noted⟩
  rw [role, tag]
  exact slot

theorem setChildOwned_own (g : Knows (k.own b r) σ n O h) (wf : k.Wf) (ht : t.isPlain)
    (other : ∀ {D}, k.facts a = some D → D.tag ≠ t) (slot : ∀ ρ : Roles, ρ b = r →
    LooseSlot ρ b t i) :
    Yields (HeapM.setChildOwned a t i b) h fun _ h' => Knows k σ n O h' := by
  obtain ⟨ρ, seen, noted, role⟩ := g.role
  exact (g.disown wf).setChildOwned ht other ⟨ρ, seen, noted, .inr (slot ρ role)⟩

end Knows

/-! ## Values -/

/-- A new frame is all that changes. -/
theorem Frame.create_retains {G : Facts} {B : Multiset Address} {parent : Address}
    (g : Retains G B (n + 1) O h) :
    Yields (Frame.create parent) h fun f h' => Retains G B (n + 1) (f ::ₘ O) h' ∧ f ≠ .nil ∧
      h.body? f = none ∧ G f = none ∧
      h'.body? = Function.update h.body? f (some ⟨.frame, [], [parent, .nil]⟩) := by
  refine (g.allocate (Nat.zero_le _)).heap.bind fun f h₁ ⟨g₁, notNil, gone, new, e₁⟩ => ?_
  have here : h₁.body? f = some ⟨.frame, [], [.nil, .nil]⟩ := by rw [e₁, Function.update_self]; rfl
  refine (g₁.setChild (by simp [new])).heap.bind fun _ h₂ ⟨g₂, D, d, ha, _, hd, _, e₂⟩ => ?_
  obtain rfl : D = _ := Option.some_inj.1 (ha.symm.trans here)
  refine .pure ⟨g₂, notNil, gone, new, ?_⟩
  rw [e₂ (by simpa using hd.symm), e₁, Function.update_idem]
  rfl

namespace Knows

theorem frame_nil (g : Knows k σ (n + 1) O h) :
    Yields (Frame.create .nil) h fun f h' => Knows k σ (n + 1) (f ::ₘ O) h' := by
  refine (Frame.create_retains g.toRetains).mono fun f h' ⟨g', notNil, gone, _, e⟩ => ?_
  refine g.step g' fun ρ seen _ => ⟨Function.update ρ f .loose, ?_, fun b live => ?_⟩
  · rw [e]
    refine seen.create_still (r := .loose) g.closed gone notNil ⟨?_, fun {i b} hb => .inl ?_, ?_⟩
      (by simp)
      (by simp) (by simp [Role.Keeps]) (by simp)
    · rw [Function.update_self]
      simp [Role.Tagged]
    · exact List.eq_of_mem_replicate (n := 2) (List.mem_of_getElem? hb)
    · rw [Function.update_self]
      trivial
  · refine Function.update_of_ne ?_ ..
    rintro rfl
    exact live.elim notNil fun live => live gone

theorem queue {c : Class} (g : Knows k σ n O h) (hc : c.tag = .queue) (ne : c ≠ .runnable) :
    Yields Queue.create h fun q h' => Knows (k.own q (.holder c)) σ n O h' :=
  (g.allocate_role (r := .holder c) (Nat.zero_le _) hc.symm trivial (by simp) (by simpa)).heap.mono
  fun _ _ ⟨g, _⟩ => g

theorem lock {kind : LockKind} {initial : Int64} (ht : kind.tag.isLock) (g : Knows k σ n O h) :
    Yields (kind.create initial) h fun lock h' => Knows k σ n (lock ::ₘ O) h' := by
  have thread : kind.tag ≠ .thread := by
    intro e
    rw [e] at ht
    cases ht
  refine (g.allocate_plain thread (Tag.fits_of_isLock ht)).heap.bind
    fun lock h₁ ⟨g, _, _, new, _⟩ => ?_
  refine (g.setField (Tag.isPlain_of_isLock ht) (by simp [new])).heap.bind fun _ h₂ g => ?_
  refine (Yields.orRelease (g.queue (c := .wakers) rfl (by simp))).bind fun q h₃ g' => ?_
  refine (g'.setChildOwned_own g.wf (Tag.isPlain_of_isLock ht) (by simp [new]) fun ρ role =>
    ?_).heap.bind
    fun _ h₄ g => .pure g
  revert ht
  cases kind.tag <;> intro ht <;> first | exact role | cases ht

theorem setChildOwned_value [k.KeptByValues] (g : Knows k σ n (b ::ₘ O) h) (ht : t.isValue ∨
    t = .frame ∧ i = 1) :
    Yields (HeapM.setChildOwned a t i b) h fun _ h' => Knows k σ n O h' := by
  rcases ht with ht | ⟨rfl, rfl⟩
  · obtain ⟨ρ, seen, noted⟩ := g.sees
    exact g.setChildOwned (Tag.isPlain_of_isValue ht)
      (k.other Tag.keptByValues (Tag.not_keptByValues ht))
      ⟨ρ, seen, noted, .inr (.of_isValue ht)⟩
  · refine (g.toRetains.setChildOwned (k.other Tag.keptByValues rfl)).mono
      fun _ _ ⟨g', D, d, ha, tag, old, sub, _⟩ =>
      g.still g' fun ρ seen _ => ?_
    have conf := seen.conforms ha
    refine Sees.sub (seen.write_still ha (conf.set ?_ ?_) ?_ ?_ ?_
      (.inl (List.getElem?_set_ne (by decide))) ?_) sub g'.closed
    · rcases conf.frame tag with role | ⟨line, role⟩ <;> rw [role]
      · exact .inr (by rw [tag]; trivial)
      · exact .inr trivial
    · rcases conf.frame tag with role | ⟨line, role⟩
      · rw [role]
        trivial
      · have whole := conf.whole
        rw [role] at whole ⊢
        obtain ⟨parent, entries, e, on⟩ := whole
        exact ⟨parent, b, by rw [e]; rfl, on⟩
    · rcases conf.frame tag with role | ⟨line, role⟩ <;> rw [role] <;> rfl
    · rcases conf.frame tag with role | ⟨line, role⟩ <;> simp [role]
    · rcases conf.frame tag with role | ⟨line, role⟩ <;> simp [role, Role.IsQueue]
    · rcases conf.frame tag with role | ⟨line, role⟩ <;>
        exact .of_ne (by simp [role]) (by simp [role])

theorem entry {key value next : Address} [k.KeptByValues] (g : Knows k σ (n + 1) O h) :
    Yields (Entry.create key value next) h fun e h' => Knows k σ (n + 1) (e ::ₘ O) h' := by
  have child {O h a i b} (g : Knows k σ (n + 1) O h) :
      Yields (HeapM.setChild a .entry i b) h fun _ h' => Knows k σ (n + 1) O h' :=
    g.reference.bind fun _ _ ⟨_, g', _⟩ => (g'.setChildOwned_value (.inl rfl)).mono fun _ _ g'' =>
    g.restore g''
  refine (g.allocate_plain (by simp) (Nat.zero_le _)).heap.bind fun e h₁ ⟨g, _⟩ => ?_
  exact (child g).heap.bind fun _ _ g => (child g).heap.bind fun _ _ g =>
    (child g).heap.bind fun _ _ g => .pure g

instance [k.KeptByValues] : Ledger 0 (Knows k σ) where
  owns g := ⟨k.stays, add_comm k.stays _ ▸ g.owns⟩
  cons_nil := Knows.cons_nil
  weaken g le := g.weaken le
  restore g g' := g.restore g'
  allocates ht fits g := (g.allocate_plain ht fits).mono fun _ _ e => e.1
  writes ht g := g.setField (Tag.isPlain_of_isValue ht)
      (k.other Tag.keptByValues (Tag.not_keptByValues ht))
  references g := g.reference.mono fun _ _ ⟨e, g, _⟩ => ⟨e, g⟩
  drops g := g.free
  replaces ht g := g.setChildOwned_value (ht.imp_left Tag.isValue_of_isSet)
  enters _ g := g.entry
  opens g := g.frame_nil
  locks ht g := g.lock ht

end Knows

end GoMachine
