import GoMachine.Proofs.Loading.Values
import GoMachine.Proofs.Scopes.Lookup
import GoMachine.Proofs.Aggregates.Trails
/-!
# Bindings in a frame that was there

A text that is bound in a frame becomes a new entry in front of the old ones. The frame refers to it
and is otherwise as it was, and so is every other record: the frame `Widens`. A builder whose ground
has a frame in it may bind texts there, and whatever happens afterwards, the bindings stay.

* `Frame.insertText_reports`: what a binding makes of the records.
* `Frame.insertText_widens`: a binding is made, or the ground is as it was.
* `Widened` is a builder, so that programs are lowered between bindings.
-/
namespace GoMachine

open Ground (Bears Left)
open Heap (Owns Exact Reports Within)

/-- Everything but one record. -/
abbrev Facts.without (F : Facts) (a : Address) : Facts := Function.update F a none

/-- Entries in front of others, with keys that spell some names. -/
inductive Ahead (F : Facts) (names : List String) (first : Address) : Address → Prop
  | here : Ahead F names first first
  | entry {e key value next : Address} {name : String} :
      F e = some ⟨.entry, [], [key, value, next]⟩ →
    F.Spells key name.toList → name ∈ names → Ahead F names first next → Ahead F names first e

/-- A frame has new entries in front, for some names, and nothing else has changed. -/
structure Widens (f : Address) (names : List String) (F F' : Facts) : Prop where
  rest : (F.without f).Sub F'
  frame : ∀ B, F f = some B → ∃ first', F' f = some { B with children := B.children.set 1 first' } ∧
    ∀ first, B.children[1]? = some first → Ahead (F'.without f) names first first'

/-- An entry for a name came in front of those of a frame. -/
structure Frame.Inserts (f : Address) (name : String) (value first key e : Address) (D : Body)
    (F F' : Facts) : Prop where
  old : F f = some D
  slot : D.children[1]? = some first
  new : F e = none
  entry : F' e = some ⟨.entry, [], [key, value, first]⟩
  frame : F' f = some { D with children := D.children.set 1 e }
  rest : (F.without f).Sub F'
  spells : (F'.without f).Spells key name.toList

variable {F F' F'' : Facts} {names : List String} {name : String}
    {a b c d e f first key value : Address} {D : Body}

namespace Facts

theorem without_some : F.without a b = some D ↔ b ≠ a ∧ F b = some D := by
  rw [without, Function.update_apply]
  split
  · next same => simp [same]
  · next other => simp [other]

theorem without_sub : (F.without a).Sub F := fun _ _ hB => (without_some.1 hB).2

theorem Sub.without (sub : (F.without a).Sub F') : (F.without a).Sub (F'.without a) := fun _ _ hB =>
  without_some.2 ⟨(without_some.1 hB).1, sub hB⟩

end Facts

namespace Ahead

theorem mono (k : Ahead F names a b) (sub : F.Sub F') : Ahead F' names a b := by
  induction k with
  | here => exact .here
  | entry known spells mem _ ih => exact .entry (sub known) (spells.mono sub) mem ih

theorem trans (k : Ahead F names a b) (k' : Ahead F names b c) : Ahead F names a c := by
  induction k' with
  | here => exact k
  | entry known spells mem _ ih => exact .entry known spells mem ih

end Ahead

namespace Widens

theorem refl : Widens f names F F := by
  refine ⟨Facts.without_sub, fun B hB => ⟨B.children[1]?.getD .nil, ?_, fun first there => ?_⟩⟩
  · rw [hB]
    congr
    cases there : B.children[1]? with
    | none => rw [List.set_eq_of_length_le (List.getElem?_eq_none_iff.1 there)]
    | some first => simp [← (List.getElem?_eq_some_iff.1 there).2]
  · rw [there]
    exact .here

theorem trans (k : Widens f names F F') (k' : Widens f names F' F'') : Widens f names F F'' := by
  refine ⟨k.rest.without.trans k'.rest, fun B hB => ?_⟩
  obtain ⟨first', here, ahead⟩ := k.frame B hB
  obtain ⟨first'', here', ahead'⟩ := k'.frame _ here
  refine ⟨first'', by rw [here', List.set_set], fun first there => ?_⟩
  refine ((ahead first there).mono k'.rest.without).trans (ahead' first' ?_)
  exact List.getElem?_set_self (List.getElem?_eq_some_iff.1 there).1

theorem known (k : Widens f names F F') (hf : F f ≠ none) : F' f ≠ none := by
  obtain ⟨B, hB⟩ := Option.ne_none_iff_exists'.1 hf
  obtain ⟨first', here, -⟩ := k.frame B hB
  simp [here]

end Widens

/-! ## What a binding makes of the records -/

variable {P O : Multiset Address} {n : Nat} {h h' : Heap}

/-- What a binding makes of the records. -/
theorem Frame.insertText_reports (g : Reports P (n + 1) O F h) (known : F f ≠ none) :
    Yields (insertText f name value) h fun _ h' => ∃ F' first key e D, Reports P (n + 1) O F' h' ∧
      Inserts f name value first key e D F F' := by
  obtain ⟨⟨tag, fields, children⟩, here⟩ := Option.ne_none_iff_exists'.1 known
  refine (Text.create_spells g).yields.bind fun key h₁ ⟨_, F₁, g₁, sub, spells⟩ => ?_
  refine Yields.afterwards (Q := fun _ h' => ∃ F' first e, Reports P (n + 1) (key ::ₘ O) F' h' ∧
    Inserts f name value first key e ⟨tag, fields, children⟩ F F')
    ?_ fun _ h₂ ⟨F₂, first, e, g₂, i⟩ => ?_
  · refine Yields.read fun first asked => ?_
    obtain ⟨D', here', framed, slot⟩ := g₁.sound.child_read asked
    obtain rfl := Option.some_inj.1 ((sub here).symm.trans (g₁.body ▸ here'))
    obtain rfl : tag = .frame := framed
    refine (Entry.create_reports g₁).bind fun e h₂ ⟨fresh, g₂⟩ => ?_
    have ne : f ≠ e := by
      rintro rfl
      cases fresh.symm.trans (sub here)
    have new : F e = none := by
      by_contra known
      obtain ⟨B, hB⟩ := Option.ne_none_iff_exists'.1 known
      cases fresh.symm.trans (sub hB)
    have entry (o : Option Body) :
      Function.update (Function.update F₁ e (some ⟨.entry, [], [key, value, first]⟩)) f o e =
        some ⟨.entry, [], [key, value, first]⟩ := by
      rw [Function.update_of_ne ne.symm, Function.update_self]
    have kept : (F₁.without f).Sub
      (Function.update F₁ e (some ⟨.entry, [], [key, value, first]⟩)) := fun a B hB => by
      obtain ⟨-, hB⟩ := Facts.without_some.1 hB
      exact Heap.known_update hB fun same => by cases fresh.symm.trans (same ▸ hB)
    refine ((g₂.setChildOwned (Heap.known_update (sub here) ne) fun d hd =>
      .inr (.inr ⟨e, _, entry _, ?_⟩)).heap).mono fun _ h₃ g₃ =>
      ⟨_, first, e, g₃, here, slot, new, entry _, ?_, ?_, ?_⟩
    · obtain rfl := Option.some_inj.1 (hd.symm.trans slot)
      simp
    · exact Function.update_self ..
    · intro a B hB
      obtain ⟨other, hB⟩ := Facts.without_some.1 hB
      rw [Function.update_of_ne other]
      exact kept (Facts.without_some.2 ⟨other, sub hB⟩)
    · rw [Facts.without, Function.update_idem]
      refine spells.ofSubButFrames fun a B hB other => ?_
      have apart : a ≠ f := by
        rintro rfl
        obtain rfl := Option.some_inj.1 (hB.symm.trans (sub here))
        exact other rfl
      rw [Function.update_of_ne apart]
      exact kept (Facts.without_some.2 ⟨apart, hB⟩)
  · exact (g₂.free (.inr (.inr ⟨e, _, i.entry, by simp⟩))).yields.mono fun _ _ g₃ =>
      ⟨F₂, first, key, e, _, g₃, i⟩

/-! ## Grounds with a frame -/

open Classical in
/-- What some records say now, with those of a new entry. -/
noncomputable def Facts.spread (K F' : Facts) (e key : Address) : Facts := fun a =>
  if K a ≠ none ∨ a = e ∨ a = key ∨ ∃ B, F' key = some B ∧ a ∈ B.children then F' a else none

namespace Frame.Inserts

variable {K : Facts} (i : Inserts f name value first key e D F F')

theorem spread_some {B : Body} : Facts.spread K F' e key a = some B ↔
    (K a ≠ none ∨ a = e ∨ a = key ∨ ∃ B, F' key = some B ∧ a ∈ B.children) ∧ F' a = some B := by
  rw [Facts.spread]
  split_ifs with inside <;> simp [inside]

include i

theorem spread_entry : Facts.spread K F' e key e = some ⟨.entry, [], [key, value, first]⟩ :=
  spread_some.2 ⟨.inr (.inl rfl), i.entry⟩

theorem spread_frame (known : K f ≠ none) :
    Facts.spread K F' e key f = some { D with children := D.children.set 1 e } :=
  spread_some.2 ⟨.inl known, i.frame⟩

/-- What was in a slot of the frame still is, or it is the entry that was the first. -/
theorem still (known : K f ≠ none) (mem : a ∈ D.children) :
    ∃ d B, Facts.spread K F' e key d = some B ∧ a ∈ B.children := by
  obtain ⟨j, hj, rfl⟩ := List.getElem_of_mem mem
  by_cases slot : j = 1
  · subst slot
    exact ⟨e, _, i.spread_entry, by simp [(List.getElem?_eq_some_iff.1 i.slot).2]⟩
  · refine ⟨f, _, i.spread_frame known, List.mem_of_getElem? (i := j) ?_⟩
    rw [List.getElem?_set_ne (Ne.symm slot), List.getElem?_eq_getElem hj]

/-- The entry is held by the frame, and what it refers to by the entry. -/
theorem held (sub : K.Sub F) (held : Heap.Held K O) (known : K f ≠ none) :
    Heap.Held (Facts.spread K F' e key) O := by
  intro a B hB
  obtain ⟨old | rfl | rfl | ⟨text, spelled, rune⟩, here⟩ := spread_some.1 hB
  · obtain ⟨B', hB'⟩ := Option.ne_none_iff_exists'.1 old
    refine (held a B' hB').imp_right fun ⟨d, E, hd, child⟩ => ?_
    by_cases same : d = f
    · subst same
      obtain rfl := Option.some_inj.1 (i.old.symm.trans (sub hd))
      exact i.still known child
    · exact ⟨d, E, spread_some.2 ⟨.inl (by simp [hd]),
        i.rest (Facts.without_some.2 ⟨same, sub hd⟩)⟩, child⟩
  · exact .inr ⟨f, _, i.spread_frame known, List.mem_set (List.getElem?_eq_some_iff.1 i.slot).1 a⟩
  · exact .inr ⟨e, _, i.spread_entry, by simp⟩
  · exact .inr ⟨key, text, spread_some.2 ⟨.inr (.inr (.inl rfl)), spelled⟩, rune⟩

theorem widens (sub : K.Sub F) (known : K f ≠ none) (mem : name ∈ names) :
    Widens f names K (Facts.spread K F' e key) := by
  refine ⟨fun a B hB => ?_, fun B hB => ?_⟩
  · obtain ⟨other, hB⟩ := Facts.without_some.1 hB
    exact spread_some.2 ⟨.inl (by simp [hB]), i.rest (Facts.without_some.2 ⟨other, sub hB⟩)⟩
  obtain rfl := Option.some_inj.1 (i.old.symm.trans (sub hB))
  refine ⟨e, i.spread_frame known, fun first' there => ?_⟩
  obtain rfl := Option.some_inj.1 (i.slot.symm.trans there)
  have other : e ≠ f := by
    rintro rfl
    cases i.new.symm.trans i.old
  refine .entry (Facts.without_some.2 ⟨other, i.spread_entry⟩) ?_ mem .here
  obtain ⟨runes, spelled, each⟩ := i.spells
  obtain ⟨apart, spelled⟩ := Facts.without_some.1 spelled
  refine ⟨runes, Facts.without_some.2 ⟨apart, spread_some.2 ⟨.inr (.inr (.inl rfl)), spelled⟩⟩, ?_⟩
  refine ((List.forall₂_and_left runes _).2 ⟨fun r hr => hr, each⟩).imp fun r c ⟨mem, rune⟩ => ?_
  obtain ⟨apart, rune⟩ := Facts.without_some.1 rune
  exact Facts.without_some.2 ⟨apart, spread_some.2 ⟨.inr (.inr (.inr ⟨_, spelled, mem⟩)), rune⟩⟩

end Frame.Inserts

variable {D' : Multiset Address} [Within D' O] {G G' : Ground}

/-- A ground that is another one with bindings for some names in front of those of a frame. -/
structure Ground.Opens (f : Address) (names : List String) (G G' : Ground) : Prop where
  refs : G'.refs = G.refs
  facts : Widens f names G.facts G'.facts

namespace Ground

theorem Opens.refl : G.Opens f names G := ⟨rfl, .refl⟩

theorem Opens.trans {G'' : Ground} (k : G.Opens f names G') (k' : G'.Opens f names G'') :
    G.Opens f names G'' :=
  ⟨k'.refs.trans k.refs, k.facts.trans k'.facts⟩

/-- An entry that came in front of those of a frame of the ground belongs to the ground. -/
theorem Bears.inserts (b : G.Bears P n O h) (own : Owns P n (O + G.refs) h')
    (known : G.facts f ≠ none)
    (i : Frame.Inserts f name value first key e D h.body? h'.body?) (mem : name ∈ names) :
    ∃ G', G.Opens f names G' ∧ G'.Bears P n O h' :=
  ⟨⟨_, G.refs, i.held b.body G.held known⟩, ⟨rfl, i.widens b.body known mem⟩, own, fun _ _ hB =>
    (Frame.Inserts.spread_some.1 hB).2⟩

end Ground

/-- A key is bound, or the ground is as it was. -/
theorem Frame.insert_bears (b : G.Bears P (n + 1) O h) :
    Crafts (G.Left P) D' (insert f key value) h fun _ h' => Owns P (n + 1) (O + G.refs) h' := by
  have tried : Crafts (G.Left P) D' (insert f key value) h fun _ _ => True := by
    refine .read b.left fun first _ => (Entry.create_bears b).bind fun e h₁ b => Crafts.heap ?_
    refine Crafts.ask b.left fun slot asked => ?_
    have own := b.owns
    rw [Multiset.cons_add] at own
    obtain ⟨c, hc, -, rfl, old⟩ := own.exact.sound.childSlot_word asked
    obtain ⟨-, -, x, -⟩ := Heap.Holds.put_child own.exact hc old
    refine (Gives.bind (Q := fun old h₁ => Exact P (old ::ₘ (O + G.refs)) h₁)
      ⟨_, _, rfl, x⟩ fun old h₁ x => ?_).ends
    obtain ⟨h', run, -⟩ := x.free
    exact ⟨(), h', run, trivial⟩
  exact tried.instead (Frame.insert_owns (F := 0) b.owns).yields

/-- A text is bound in a frame of the ground, or the ground is as it was. -/
theorem Frame.insertText_widens (b : G.Bears P (n + 1) O h) (known : G.facts f ≠ none)
    (mem : name ∈ names) :
    Crafts (G.Left P) D' (insertText f name value) h fun _ h' => ∃ G', G.Opens f names G' ∧
    G'.Bears P (n + 1) O h' := by
  have tried : Crafts (G.Left P) D' (insertText f name value) h fun _ _ => True := by
    refine (Text.create_bears b).bind fun key h₁ b =>
      (Frame.insert_bears b).releasing (fun _ h₂ own => ?_) fun _ left => left.free
    rw [Multiset.cons_add] at own
    obtain ⟨h', run, -⟩ := own.exact.free
    exact ⟨(), h', run, trivial⟩
  refine tried.instead ((Frame.insertText_reports (.of b.owns) ?_).mono ?_)
  · obtain ⟨B, hB⟩ := Option.ne_none_iff_exists'.1 known
    simp [b.body hB]
  · rintro _ h' ⟨F', first, key, e, D, ⟨own, rfl⟩, i⟩
    exact b.inserts own known i mem

end GoMachine
