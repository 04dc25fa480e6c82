import GoMachine.Machine.Turn
import GoMachine.Proofs.Owns.Turn
import GoMachine.Proofs.Tasks.Choices
/-!
# New nodes

A node is finished when all of its slots are filled, and only then it has a role. Nothing refers to
it before, so all that changes is that a record comes up that reads as it should.

* `Knows.build`, `Knows.buildShared`: a node of parts that are owned, or that are there.
-/
namespace GoMachine

open Heap (Retains laden)

variable {G : Facts} {B O : Multiset Address} {n : Nat} {h : Heap} {a : Address} {t : Tag}
  {cs l : List Address} {w : List UInt64} {k : Known} {σ : Address → Task} {ps : List Code}

namespace Node

/-! ## What is written -/

/-- The slots of a record are filled one after the other. -/
theorem fills {γ : Type} {l : List γ} {x : γ → Nat → Action Unit} {J : List γ → Heap → Prop}
    {T : List γ → Body} (start : J l h) (ha : h.body? a = some (T []))
    (step : ∀ pre c post h, l = pre ++ c :: post → J (c :: post) h → h.body? a = some (T pre) →
      Yields (x c pre.length) h fun _ h' => J post h' ∧
        h'.body? = Function.update h.body? a (some (T (pre ++ [c])))) :
    Yields (forIn l.zipIdx PUnit.unit fun (c, i) _ => do
      x c i
      pure (.yield ⟨⟩)) h fun _ h' => J [] h' ∧
      h'.body? = Function.update h.body? a (some (T l)) := by
  refine (Yields.forIn (I := fun rest h' => ∃ pre post, l = pre ++ post ∧
    rest = post.zipIdx pre.length ∧
    J post h' ∧ h'.body? = Function.update h.body? a (some (T pre)))
    ⟨[], l, rfl, rfl, start, (Function.update_eq_self_iff.2 ha.symm).symm⟩ ?_).mono
    fun _ h' ⟨pre, post, e, done, j, e'⟩ => ?_
  · rintro ⟨c, i⟩ rest h₁ ⟨pre, post, e, e', j, e₁⟩
    cases post with
    | nil => cases e'
    | cons d post =>
      obtain ⟨⟨rfl, rfl⟩, rfl⟩ : (c = d ∧ i = pre.length) ∧
        rest = post.zipIdx (pre.length + 1) := by
        simpa using e'
      refine (step pre c post h₁ e j (by rw [e₁, Function.update_self])).bind fun _ h₂ ⟨j, e₂⟩ =>
        .pure ⟨rfl, pre ++ [c], post, by simp [e], by simp, j, ?_⟩
      rw [e₂, e₁, Function.update_idem]
  · obtain rfl : post = [] := by simpa using done.symm
    rw [List.append_nil] at e
    exact ⟨j, by rw [e', e]⟩

theorem set_length_append {α : Type} {pre : List α} {c z : α} {m : Nat} :
    (pre ++ List.replicate (m + 1) z).set pre.length c = (pre ++ [c]) ++ List.replicate m z := by
  simp [List.replicate_succ]

theorem setFields_retains (g : Retains G B n O h) (new : G a = none)
    (ha : h.body? a = some ⟨t, .replicate w.length 0, cs⟩) :
    Yields (setFields a t w) h fun _ h' => Retains G B n O h' ∧
      h'.body? = Function.update h.body? a (some ⟨t, w, cs⟩) := by
  refine (fills (a := a) (l := w) (x := fun v i => liftM (HeapM.setField a t i v))
    (J := fun _ h' => Retains G B n O h')
    (T := fun pre => ⟨t, pre ++ .replicate (w.length - pre.length) 0, cs⟩) g (by simpa using ha)
    ?_).bind
    fun _ _ ⟨g', e⟩ => .pure ⟨g', by simpa using e⟩
  intro pre v post h₁ e g₁ text
  refine (g₁.setField (by simp [new])).heap.mono fun _ h₂ ⟨g₂, D, hD, _, e₂⟩ => ⟨g₂, ?_⟩
  obtain rfl : D = _ := Option.some_inj.1 (hD.symm.trans text)
  rw [e₂, show w.length - pre.length = post.length + 1 by simp [e]]
  dsimp only
  rw [set_length_append, show w.length - (pre ++ [v]).length = post.length by simp [e]; omega]

/-- The slots for children are filled, all of which were empty. -/
theorem setChildren_retains {x : Address → Nat → Action Unit} {K : List Address → Multiset Address}
    (g : Retains G B n (K l) h) (ha : h.body? a = some ⟨t, w, .replicate l.length .nil⟩)
    (set : ∀ {b post i h}, Retains G B n (K (b :: post)) h → Yields (x b i) h fun _ h' =>
      Retains G B n (K post) h' ∧ ∃ D d, h.body? a = some D ∧ D.children[i]? = some d ∧
        (d = .nil → h'.body? = Function.update h.body? a
        (some { D with children := D.children.set i b }))) :
    Yields (forIn l.zipIdx PUnit.unit fun (b, i) _ => do
      x b i
      pure (.yield ⟨⟩)) h fun _ h' => Retains G B n (K []) h' ∧
        h'.body? = Function.update h.body? a (some ⟨t, w, l⟩) := by
  refine (fills (a := a) (l := l) (J := fun rest h' => Retains G B n (K rest) h')
    (T := fun pre => ⟨t, w, pre ++ .replicate (l.length - pre.length) .nil⟩) g (by simpa using ha)
    ?_).mono
    fun _ _ ⟨g', e⟩ => ⟨g', by simpa using e⟩
  intro pre b post h₁ e g₁ text
  refine (set g₁).mono fun _ h₂ ⟨g₂, D, d, hD, hd, e₂⟩ => ⟨g₂, ?_⟩
  obtain rfl : D = _ := Option.some_inj.1 (hD.symm.trans text)
  rw [show l.length - pre.length = post.length + 1 by simp [e]] at hd e₂
  rw [e₂ (by simpa [List.replicate_succ] using hd.symm)]
  dsimp only
  rw [set_length_append, show l.length - (pre ++ [b]).length = post.length by simp [e]; omega]

theorem build_retains (g : Retains G B n (laden l O) h) (fits : t.slots ≤ l.length) :
    Yields (build t w l) h fun node h' => Retains G B n (node ::ₘ O) h' ∧ node ≠ .nil ∧
      h.body? node = none ∧ h'.body? = Function.update h.body? node (some ⟨t, w, l⟩) := by
  refine (Yields.attempt (E := fun r h' => ∀ node, r = .ok node →
    Retains G B n (node ::ₘ laden l O) h' ∧
    node ≠ .nil ∧ h.body? node = none ∧ G node = none ∧ h'.body? = Function.update h.body? node
      (some ⟨t, .replicate w.length 0, .replicate l.length .nil⟩)) (g.allocate fits).heap ?_
      ?_).bind
    fun r h₁ made => ?_
  · rintro node h' made _ ⟨⟩
    exact made
  · rintro e h' node ⟨⟩
  cases r with
  | error e => exact Yields.any.bind fun _ _ _ => .throw
  | ok node =>
    obtain ⟨g₁, notNil, gone, new, e₁⟩ := made node rfl
    have here : h₁.body? node = some ⟨t, .replicate w.length 0, .replicate l.length .nil⟩ := by
      rw [e₁, Function.update_self]
    refine (setFields_retains g₁ new here).bind fun _ h₂ ⟨g₂, e₂⟩ => ?_
    refine (setChildren_retains (a := node) (t := t) (w := w)
      (x := fun b i => liftM (HeapM.setChildOwned node t i b))
      (K := fun post => node ::ₘ laden post O) g₂ (by rw [e₂, Function.update_self])
      fun {b post i h} g => ?_).bind fun _ h₃ ⟨g₃, e₃⟩ => .pure ⟨g₃, notNil, gone, ?_⟩
    · have g : Retains G B n (node ::ₘ b ::ₘ laden post O) h := g
      exact (g.swap.setChildOwned (by simp [new])).heap.mono fun _ _ ⟨g, D, d, hD, _, hd, _, e⟩ =>
        ⟨g, D, d, hD, hd, e⟩
    · rw [e₃, e₂, e₁, Function.update_idem, Function.update_idem]

theorem buildShared_retains (g : Retains G B (n + 1) O h) (fits : t.slots ≤ l.length) :
    Yields (buildShared t w l) h fun node h' => Retains G B (n + 1) (node ::ₘ O) h' ∧ node ≠ .nil ∧
      h.body? node = none ∧ h'.body? = Function.update h.body? node (some ⟨t, w, l⟩) := by
  refine (g.allocate fits).heap.bind fun node h₁ ⟨g₁, notNil, gone, new, e₁⟩ => ?_
  have here : h₁.body? node = some ⟨t, .replicate w.length 0, .replicate l.length .nil⟩ := by
    rw [e₁, Function.update_self]
  refine (setFields_retains g₁ new here).bind fun _ h₂ ⟨g₂, e₂⟩ => ?_
  refine (setChildren_retains (a := node) (t := t) (w := w)
    (x := fun b i => liftM (HeapM.setChild node t i b)) (K := fun _ => node ::ₘ O) g₂
    (by rw [e₂, Function.update_self]) fun g =>
    (g.setChild (by simp [new])).heap.mono fun _ _ ⟨g, D, d, hD, _, hd, _, e⟩ =>
    ⟨g, D, d, hD, hd, e⟩).bind
    fun _ h₃ ⟨g₃, e₃⟩ => .pure ⟨g₃, notNil, gone, ?_⟩
  rw [e₃, e₂, e₁, Function.update_idem, Function.update_idem]

end Node

/-! ## What is known -/

namespace Knows

/-- A record comes up that reads as a node. -/
theorem built {m : Nat} {O' : Multiset Address} {h' : Heap} {node : Address} (g : Knows k σ n O h)
    (ht : t.isControl) (g' : Retains k.facts k.stays m (node ::ₘ O') h') (notNil : node ≠ .nil)
    (gone : h.body? node = none) (e : h'.body? = Function.update h.body? node (some ⟨t, w, l⟩))
    (live : ∀ b ∈ l, b = .nil ∨ h.body? b ≠ none) (parts : k.Finds σ h fun ρ =>
    List.Forall₂ (IsPart ρ) l ps) :
    Knows k σ m (node ::ₘ O') h' ∧ k.Finds σ h' fun ρ => ρ node = .code (.node t w l ps) := by
  obtain ⟨ρ, seen, noted, parts⟩ := parts
  have still : ∀ {b}, b = .nil ∨ h.body? b ≠ none → b ≠ node := by
    rintro b live rfl
    exact live.elim notNil fun live => live gone
  have whole : Whole (Function.update ρ node (.code (.node t w l ps))) ⟨t, w, l⟩
    (.code (.node t w l ps)) := by
    refine ⟨rfl, ?_⟩
    rw [List.forall₂_iff_get] at parts ⊢
    refine ⟨parts.1, fun i h₁ h₂ => (parts.2 i h₁ h₂).congr (.inr (Function.update_of_ne ?_ ..))⟩
    exact still (live _ (List.get_mem ..))
  have seen' : Sees (Function.update ρ node (.code (.node t w l ps))) σ h'.body? := by
    rw [e]
    refine seen.create_still g.closed gone notNil ⟨?_, fun _ => .inr ?_, ?_⟩ (by simp) (by simp)
      (fun keeps => keeps.elim) (by simp) <;>
      rw [Function.update_self]
    · exact ⟨rfl, ht⟩
    · trivial
    · exact whole
  have noted' : k.Noted (Function.update ρ node (.code (.node t w l ps))) := fun x hx =>
    (Function.update_of_ne (still (g.live (g.kept x hx))) ..).trans (noted x hx)
  exact ⟨⟨g', g.kept, _, seen', noted'⟩, _, seen', noted', Function.update_self ..⟩

theorem build (g : Knows k σ n (laden l O) h) (ht : t.isControl)
    (parts : k.Finds σ h fun ρ => List.Forall₂ (IsPart ρ) l ps) :
    Yields (Node.build t w l) h fun node h' => Knows k σ n (node ::ₘ O) h' ∧
      k.Finds σ h' fun ρ => ρ node = .code (.node t w l ps) :=
  (Node.build_retains g.toRetains (Tag.fits_of_isControl ht)).mono fun _ _ ⟨g', notNil, gone, e⟩ =>
  g.built ht g' notNil gone e
    (fun _ hb => g.live_of_mem (Heap.mem_laden.2 (.inl hb))) parts

theorem buildShared (g : Knows k σ (n + 1) O h) (ht : t.isControl) (live : ∀ b ∈ l, b = .nil ∨
    h.body? b ≠ none)
    (parts : k.Finds σ h fun ρ => List.Forall₂ (IsPart ρ) l ps) :
    Yields (Node.buildShared t w l) h fun node h' => Knows k σ (n + 1) (node ::ₘ O) h' ∧
      k.Finds σ h' fun ρ => ρ node = .code (.node t w l ps) :=
  (Node.buildShared_retains g.toRetains (Tag.fits_of_isControl ht)).mono
  fun _ _ ⟨g', notNil, gone, e⟩ => g.built ht g' notNil gone e live parts

theorem unit (g : Knows k σ n O h) (ht : t.isControl) :
    Yields (Node.unit t) h fun node h' => Knows k σ n (node ::ₘ O) h' ∧
      k.Finds σ h' fun ρ => ρ node = .code (.node t [] [] []) := by
  obtain ⟨ρ, seen, noted⟩ := g.sees
  have new : Yields (HeapM.allocate t 0 0) h _ := g.toRetains.allocate (Tag.fits_of_isControl ht)
  exact new.heap.mono fun _ _ ⟨g', notNil, gone, _, e⟩ =>
    g.built ht g' notNil gone e (by simp) ⟨ρ, seen, noted, .nil⟩

/-- A new record whose parts are there. -/
theorem madeAs {r : Role} (g : Knows k σ (n + 1) O h) (fits : t.slots ≤ l.length)
    (tagged : r.Tagged t) (whole : ∀ {ρ B}, Whole ρ B r)
    (hr : r ≠ .thread) (hr' : r ≠ .holder .runnable) (keeps : ∀ w, ¬r.Keeps w)
    (other : ∀ j, r ≠ .waiting j)
    (live : ∀ b ∈ l, b = .nil ∨ h.body? b ≠ none)
    (slots : k.Finds σ h fun ρ => ∀ {a i b}, l[i]? = some b → b = .nil ∨ Slot ρ a t i b r) :
    Yields (Node.buildShared t w l) h fun a h' => Knows k σ (n + 1) (a ::ₘ O) h' ∧
      k.Finds σ h' (fun ρ => ρ a = r) ∧ h.body? a = none ∧
      h'.body? = Function.update h.body? a (some ⟨t, w, l⟩) := by
  refine (Node.buildShared_retains g.toRetains fits).mono fun a h' ⟨g', notNil, gone, e⟩ => ?_
  obtain ⟨ρ, seen, noted, slots⟩ := slots
  have still : ∀ {b}, b = .nil ∨ h.body? b ≠ none → b ≠ a := by
    rintro b live rfl
    exact live.elim notNil fun live => live gone
  have seen' : Sees (Function.update ρ a r) σ h'.body? := by
    rw [e]
    refine seen.create_still g.closed gone notNil ⟨?_, fun hb => ?_, ?_⟩ hr hr'
      (fun k => absurd k (keeps _))
      (fun e => absurd e (other _)) <;> rw [Function.update_self]
    · exact tagged
    · refine (slots hb).imp_right fun slot => slot.congr (.inr (Function.update_of_ne ?_ ..))
      exact still (live _ (List.mem_of_getElem? hb))
    · exact whole
  have noted' : k.Noted (Function.update ρ a r) := fun x hx =>
    (Function.update_of_ne (still (g.live (g.kept x hx))) ..).trans (noted x hx)
  exact ⟨⟨g', g.kept, _, seen', noted'⟩, ⟨_, seen', noted', Function.update_self ..⟩, gone, e⟩

/-- A new record without a role of its own, whose parts are there. -/
theorem made (g : Knows k σ (n + 1) O h) (ht : t.isPlain) (fits : t.slots ≤ l.length)
    (live : ∀ b ∈ l, b = .nil ∨ h.body? b ≠ none)
    (slots : k.Finds σ h fun ρ => ∀ {i : Nat} {b}, l[i]? = some b → b = .nil ∨ LooseSlot ρ b t i) :
    Yields (Node.buildShared t w l) h fun a h' => Knows k σ (n + 1) (a ::ₘ O) h' := by
  refine (g.madeAs (r := .loose) fits ?_ trivial (by simp) (by simp) (fun _ => id) (by simp) live
    ?_).mono fun _ _ e => e.1
  · rintro rfl
    cases ht
  · obtain ⟨ρ, seen, noted, slots⟩ := slots
    exact ⟨ρ, seen, noted, fun hb => slots hb⟩

end Knows
end GoMachine
