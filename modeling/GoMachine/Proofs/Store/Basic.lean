import GoMachine.Proofs.Heap.Facts
/-!
# What a heap stores

Stacks and queues are chains of records, but to the rest of the machine they are lists. A `Store`
tells for some addresses what stands there: a plain record, a queue or a stack. `Stores P n O S h`
says that a client owns `O` and that `S` is what the heap stores for it. The links of the chains are
hidden: no two containers share one, and none is a record of the store itself.

* `Stores.free`, `Stores.setField`, `Stores.setChildOwned`, `Stores.takeChild`: plain records.
* `Stores.allocate`, `Stores.forget`: records come and go.
-/
namespace GoMachine

/-- What stands at an address. -/
inductive Shape where
  | plain (body : Body)
  | queue (values : List Address)
  | stack (tag : Tag) (values : List Address)

/-- What stands at some addresses. -/
abbrev Store := Address → Option Shape

/-- The addresses that a shape refers to. -/
def Shape.refs : Shape → List Address
  | plain B => B.children
  | queue vs => vs
  | stack _ vs => vs

namespace Heap

/-- A chain of links with its values. -/
def Linked (F : Facts) : List Address → List Address → Prop
  | [], [] => True
  | a :: as, v :: vs => F a = some ⟨.linkedList, [], [v, as.headD .nil]⟩ ∧ Linked F as vs
  | _, _ => False

/-- The facts that make up a shape with some links at an address. -/
def Laid (F : Facts) (a : Address) (links : List Address) : Shape → Prop
  | .plain B => F a = some B ∧ links = []
  | .queue vs =>
      F a = some ⟨.queue, [links.length.toUInt64], [links.headD .nil, links.getLastD .nil]⟩ ∧
      Linked F links vs
  | .stack tag vs =>
      F a = some ⟨tag, [links.length.toUInt64], [links.headD .nil]⟩ ∧ Linked F links vs

/-- The facts are those that make up a store, with the links `N` of each container. -/
structure Lays (S : Store) (N : Address → List Address) (F : Facts) : Prop where
  laid : ∀ {a s}, S a = some s → Laid F a (N a) s
  only : ∀ {a B}, F a = some B → S a ≠ none ∨ ∃ q, a ∈ N q
  nodup : ∀ q, (N q).Nodup
  apart : ∀ {a q r}, a ∈ N q → a ∈ N r → q = r
  inner : ∀ {a q}, a ∈ N q → S a = none ∧ S q ≠ none

/-- Everything in the store is owned or referred to by something else there. -/
def Supported (S : Store) (O : Multiset Address) : Prop :=
  ∀ a s, S a = some s → a ∈ O ∨ ∃ d s', S d = some s' ∧ a ∈ s'.refs

/-- A client owns the references `O`, with room for `n` more, and the heap stores `S` for it. -/
def Stores (P : Multiset Address) (n : Nat) (O : Multiset Address) (S : Store) (h : Heap) : Prop :=
  ∃ N F, Lays S N F ∧ Holds P n O F h

variable {P O O' : Multiset Address} {n : Nat} {S S' : Store} {N : Address → List Address}
  {F F' : Facts} {h h' : Heap} {a b c q x : Address} {B : Body} {s s' : Shape} {i : Nat}
  {w : UInt64}
  {t : Tag} {links vs cs : List Address} {fs : List UInt64}

namespace Linked

theorem congr (k : Linked F links vs) (same : ∀ a ∈ links, F' a = F a) : Linked F' links vs := by
  induction links generalizing vs with
  | nil => cases vs <;> exact k
  | cons a links ih =>
    cases vs with
    | nil => exact k
    | cons v vs =>
      exact ⟨by rw [same a (by simp), k.1], ih k.2 fun b hb => same b (by simp [hb])⟩

theorem known (k : Linked F links vs) (ha : a ∈ links) : ∃ v next,
    F a = some ⟨.linkedList, [], [v, next]⟩ ∧ v ∈ vs := by
  induction links generalizing vs with
  | nil => cases ha
  | cons b links ih =>
    cases vs with
    | nil => exact k.elim
    | cons v vs =>
      rcases List.mem_cons.1 ha with rfl | ha
      · exact ⟨v, _, k.1, by simp⟩
      · obtain ⟨v', next, e, hv⟩ := ih k.2 ha
        exact ⟨v', next, e, by simp [hv]⟩

theorem length_eq (k : Linked F links vs) : links.length = vs.length := by
  induction links generalizing vs with
  | nil => cases vs <;> simp_all [Linked]
  | cons b links ih =>
    cases vs with
    | nil => exact k.elim
    | cons v vs => simp [ih k.2]

/-- Each value stands in a link. -/
theorem value_held (k : Linked F links vs) (hv : x ∈ vs) :
    ∃ d D, F d = some D ∧ x ∈ D.children := by
  induction links generalizing vs with
  | nil => cases vs <;> simp_all [Linked]
  | cons b links ih =>
    cases vs with
    | nil => exact k.elim
    | cons v vs =>
      rcases List.mem_cons.1 hv with rfl | hv
      · exact ⟨b, _, k.1, by simp⟩
      · exact ih k.2 hv

/-- Each link but the first stands in the one before. -/
theorem link_held (k : Linked F links vs) (ha : a ∈ links.tail) :
    ∃ d D, F d = some D ∧ a ∈ D.children := by
  induction links generalizing vs with
  | nil => cases ha
  | cons b links ih =>
    cases vs with
    | nil => exact k.elim
    | cons v vs =>
      cases links with
      | nil => cases ha
      | cons c links =>
        rcases List.mem_cons.1 ha with rfl | ha
        · exact ⟨b, _, k.1, by simp⟩
        · exact ih k.2 ha

end Linked

theorem Laid.congr (laid : Laid F a links s) (here : F' a = F a) (same : ∀ b ∈ links, F' b = F b) :
    Laid F' a links s := by
  cases s with
  | plain B => exact ⟨here.trans laid.1, laid.2⟩
  | queue vs => exact ⟨here.trans laid.1, laid.2.congr same⟩
  | stack t vs => exact ⟨here.trans laid.1, laid.2.congr same⟩

namespace Lays

theorem link_ne (lays : Lays S N F) (ha : a ∈ N q) (hb : S b = some s) : a ≠ b := by
  rintro rfl
  simp [(lays.inner ha).1] at hb

/-- A plain record has no links, nor has an address that nothing is known of. -/
theorem links_eq_nil (lays : Lays S N F) (ha : S a = none ∨ ∃ B, S a = some (.plain B)) :
    N a = [] := by
  rcases ha with ha | ⟨B, ha⟩
  · cases e : N a with
    | nil => rfl
    | cons b l => exact absurd ha (lays.inner (a := b) (by simp [e])).2
  · exact (lays.laid ha).2

theorem plain (lays : Lays S N F) (ha : S a = some (.plain B)) : F a = some B := (lays.laid ha).1

theorem known (lays : Lays S N F) (ha : S a = some s) : ∃ B, F a = some B := by
  have laid := lays.laid ha
  cases s <;> exact ⟨_, laid.1⟩

theorem linked (lays : Lays S N F) (ha : S q = some s) : Linked F (N q) s.refs ∨ N q = [] := by
  have laid := lays.laid ha
  cases s
  · exact .inr laid.2
  · exact .inl laid.2
  · exact .inl laid.2

theorem link_known (lays : Lays S N F) (ha : a ∈ N q) : ∃ v next,
    F a = some ⟨.linkedList, [], [v, next]⟩ := by
  obtain ⟨s, hq⟩ := Option.ne_none_iff_exists'.1 (lays.inner ha).2
  rcases lays.linked hq with k | e
  · obtain ⟨v, next, hk, -⟩ := k.known ha
    exact ⟨v, next, hk⟩
  · simp [e] at ha

theorem length_le (lays : Lays S N F) (holds : Holds P n O F h) :
    (N q).length ≤ h.liveCount ∧ (N q).length ≤ 2 ^ 31 :=
  holds.length_le (lays.nodup q) fun a ha => by
    obtain ⟨v, next, hB⟩ := lays.link_known ha
    simp [hB]

/-- Each link stands in the container or in the link before. -/
theorem link_held (lays : Lays S N F) (ha : a ∈ N q) : ∃ d D, F d = some D ∧ a ∈ D.children := by
  obtain ⟨s, hq⟩ := Option.ne_none_iff_exists'.1 (lays.inner ha).2
  have laid := lays.laid hq
  cases e : N q with
  | nil => simp [e] at ha
  | cons b l =>
    rw [e] at ha laid
    rcases List.mem_cons.1 ha with rfl | ha
    · cases s with
      | plain B => cases laid.2
      | queue vs => exact ⟨q, _, laid.1, by simp⟩
      | stack t vs => exact ⟨q, _, laid.1, by simp⟩
    · cases s with
      | plain B => cases laid.2
      | queue vs => exact laid.2.link_held ha
      | stack t vs => exact laid.2.link_held ha

theorem refs_held (lays : Lays S N F) (hd : S q = some s) (hx : x ∈ s.refs) :
    ∃ d D, F d = some D ∧ x ∈ D.children := by
  have laid := lays.laid hd
  cases s with
  | plain B => exact ⟨q, B, laid.1, hx⟩
  | queue vs => exact laid.2.value_held hx
  | stack t vs => exact laid.2.value_held hx

/-- What is held in the store is held among the facts. -/
theorem still (lays : Lays S N F) (st : S x = none ∨ x ∈ O ∨ ∃ d s, S d = some s ∧ x ∈ s.refs) :
    F x = none ∨ x ∈ O ∨ ∃ d D, F d = some D ∧ x ∈ D.children := by
  rcases st with hx | hx | ⟨d, s, hd, hx⟩
  · cases hF : F x with
    | none => exact .inl rfl
    | some B =>
      obtain ⟨q, hq⟩ := (lays.only hF).resolve_left (by simp [hx])
      exact .inr (.inr (lays.link_held hq))
  · exact .inr (.inl hx)
  · exact .inr (.inr (lays.refs_held hd hx))

/-- What is held in the store is held among the facts. -/
theorem held (lays : Lays S N F) (st : Supported S O) : Held F O := by
  intro a B hB
  rcases lays.only hB with ha | ⟨q, hq⟩
  · obtain ⟨s, ha⟩ := Option.ne_none_iff_exists'.1 ha
    exact (st a s ha).imp_right fun ⟨d, s', hd, hm⟩ => lays.refs_held hd hm
  · exact .inr (lays.link_held hq)

/-- Forgetting some of the store. -/
theorem forget (lays : Lays S N F) (less : ∀ a s, S' a = some s → S a = some s) :
    ∃ N' F', Lays S' N' F' ∧ ∀ a B, F' a = some B → F a = some B := by
  classical
  refine ⟨fun q => if S' q = none then [] else N q,
    fun a => if S' a ≠ none ∨ ∃ q, S' q ≠ none ∧ a ∈ N q then F a else none, ⟨?_, ?_, ?_, ?_, ?_⟩,
    ?_⟩
  · intro a s ha
    rw [if_neg (by simp [ha])]
    refine (lays.laid (less a s ha)).congr (if_pos (.inl (by simp [ha]))) fun b hb => ?_
    exact if_pos (.inr ⟨a, by simp [ha], hb⟩)
  · intro a B hB
    split_ifs at hB with known
    refine known.imp_right ?_
    rintro ⟨q, hq, ha⟩
    exact ⟨q, by rwa [if_neg hq]⟩
  · intro q
    split_ifs
    · exact List.nodup_nil
    · exact lays.nodup q
  · intro a q r hq hr
    split_ifs at hq hr
    · cases hq
    · cases hq
    · cases hr
    · exact lays.apart hq hr
  · intro a q hq
    split_ifs at hq with known
    · cases hq
    · refine ⟨?_, known⟩
      cases e : S' a with
      | none => rfl
      | some s => simpa [(lays.inner hq).1] using less a s e
  · intro a B hB
    dsimp only at hB
    split_ifs at hB
    exact hB

/-- A plain record says something else. -/
theorem write (lays : Lays S N F) (ha : S a = some (.plain B)) {B' : Body} :
    Lays (Function.update S a (some (.plain B'))) N (Function.update F a (some B')) := by
  refine ⟨fun {b s} hb => ?_, fun {b D} hb => ?_, lays.nodup, lays.apart, fun {b q} hb => ?_⟩
  · by_cases hne : b = a
    · subst hne
      obtain rfl : Shape.plain B' = s := by simpa using hb
      exact ⟨Function.update_self .., (lays.laid ha).2⟩
    · rw [Function.update_of_ne hne] at hb
      refine (lays.laid hb).congr (Function.update_of_ne hne ..) fun c hc => ?_
      exact Function.update_of_ne (lays.link_ne hc ha) ..
  · by_cases hne : b = a
    · exact .inl (by simp [hne])
    · rw [Function.update_of_ne hne] at hb ⊢
      exact lays.only hb
  · rw [Function.update_of_ne (lays.link_ne hb ha)]
    refine ⟨(lays.inner hb).1, ?_⟩
    by_cases hne : q = a
    · simp [hne]
    · rw [Function.update_of_ne hne]
      exact (lays.inner hb).2

/-- Nothing stands where nothing is known. -/
theorem unknown (lays : Lays S N F) (ha : F a = none) : S a = none ∧ ∀ q, a ∉ N q := by
  constructor
  · by_contra known
    obtain ⟨s, hs⟩ := Option.ne_none_iff_exists'.1 known
    obtain ⟨B, hB⟩ := lays.known hs
    simp [ha] at hB
  · intro q hq
    obtain ⟨v, next, hB⟩ := lays.link_known hq
    simp [ha] at hB

/-- Something new without links. -/
theorem insert (lays : Lays S N F) (ha : F a = none)
    (laid : Laid (Function.update F a (some B)) a [] s) :
    Lays (Function.update S a (some s)) N (Function.update F a (some B)) := by
  obtain ⟨fresh, free⟩ := lays.unknown ha
  have ne : ∀ {b q}, b ∈ N q → b ≠ a := by
    rintro b q hb rfl
    exact free q hb
  refine ⟨fun {b s} hb => ?_, fun {b D} hb => ?_, lays.nodup, lays.apart, fun {b q} hb => ?_⟩
  · by_cases hne : b = a
    · subst hne
      obtain rfl : _ = s := by simpa using hb
      rwa [lays.links_eq_nil (.inl fresh)]
    · rw [Function.update_of_ne hne] at hb
      refine (lays.laid hb).congr (Function.update_of_ne hne ..) fun c hc => ?_
      exact Function.update_of_ne (ne hc) ..
  · by_cases hne : b = a
    · exact .inl (by simp [hne])
    · rw [Function.update_of_ne hne] at hb ⊢
      exact lays.only hb
  · rw [Function.update_of_ne (ne hb)]
    refine ⟨(lays.inner hb).1, ?_⟩
    by_cases hne : q = a
    · simp [hne]
    · rw [Function.update_of_ne hne]
      exact (lays.inner hb).2

/-- A container gets other links, of those it had and of new ones. -/
theorem rechain (lays : Lays S N F) (links : List Address) (hq : S q = some s)
    (laid : Laid F' q links s')
    (nodup : links.Nodup) (new : ∀ b ∈ links, b ∈ N q ∨ F b = none)
    (gone : ∀ b ∈ N q, b ∉ links → F' b = none)
    (same : ∀ b, b ≠ q → b ∉ N q → b ∉ links → F' b = F b) :
    Lays (Function.update S q (some s')) (Function.update N q links) F' := by
  have other : ∀ {b r}, r ≠ q → b ∈ N r → b ∉ N q ∧ b ∉ links := fun {b r} hr hb => by
    have mine : b ∉ N q := fun h => hr (lays.apart hb h)
    refine ⟨mine, fun h => ?_⟩
    exact (lays.unknown ((new b h).resolve_left mine)).2 r hb
  have outer : ∀ {b}, b ∈ links → S b = none := fun {b} hb =>
    (new b hb).elim (fun h => (lays.inner h).1) fun h => (lays.unknown h).1
  refine ⟨fun {b s₁} hb => ?_, fun {b D} hb => ?_, fun r => ?_, fun {b r₁ r₂} h₁ h₂ => ?_,
    fun {b r} hb => ?_⟩
  · by_cases hne : b = q
    · subst hne
      obtain rfl : s' = s₁ := by simpa using hb
      rwa [Function.update_self]
    · rw [Function.update_of_ne hne] at hb ⊢
      refine (lays.laid hb).congr (same b hne ?_ ?_) fun c hc => same c (lays.link_ne hc hq) ?_ ?_
      · exact fun h => lays.link_ne h hb rfl
      · exact fun h => by simp [outer h] at hb
      · exact (other hne hc).1
      · exact (other hne hc).2
  · by_cases hne : b = q
    · exact .inl (by simp [hne])
    by_cases hl : b ∈ links
    · exact .inr ⟨q, by rwa [Function.update_self]⟩
    by_cases hn : b ∈ N q
    · simp [gone b hn hl] at hb
    rw [same b hne hn hl] at hb
    rw [Function.update_of_ne hne]
    refine (lays.only hb).imp_right ?_
    rintro ⟨r, hr⟩
    refine ⟨r, ?_⟩
    rwa [Function.update_of_ne]
    rintro rfl
    exact hn hr
  · by_cases hr : r = q
    · rwa [hr, Function.update_self]
    · rw [Function.update_of_ne hr]
      exact lays.nodup r
  · by_cases e₁ : r₁ = q
    · by_cases e₂ : r₂ = q
      · rw [e₁, e₂]
      · rw [Function.update_of_ne e₂] at h₂
        rw [e₁, Function.update_self] at h₁
        exact absurd h₁ (other e₂ h₂).2
    · rw [Function.update_of_ne e₁] at h₁
      by_cases e₂ : r₂ = q
      · rw [e₂, Function.update_self] at h₂
        exact absurd h₂ (other e₁ h₁).2
      · rw [Function.update_of_ne e₂] at h₂
        exact lays.apart h₁ h₂
  · by_cases hr : r = q
    · subst hr
      rw [Function.update_self] at hb
      refine ⟨?_, by simp⟩
      rw [Function.update_of_ne, outer hb]
      rintro rfl
      simp [outer hb] at hq
    · rw [Function.update_of_ne hr] at hb ⊢
      rw [Function.update_of_ne (lays.link_ne hb hq)]
      exact lays.inner hb

end Lays

/-! ## What a client can get at -/

/-- The client owns the record, or something it can get at refers to it. -/
inductive Reach (S : Store) (O : Multiset Address) : Address → Prop where
  | owned {a : Address} : a ∈ O → Reach S O a
  | slot {d a : Address} {s : Shape} : Reach S O d → S d = some s → a ∈ s.refs → Reach S O a

open Classical in
/-- What a client keeps of a store that owns no more than `O`. -/
noncomputable def kept (S : Store) (O : Multiset Address) : Store :=
  fun a => if Reach S O a then S a else none

theorem kept_of (r : Reach S O a) : kept S O a = S a := if_pos r

theorem kept_some : kept S O a = some s ↔ S a = some s ∧ Reach S O a := by
  unfold kept
  split_ifs with r
  · simp [r]
  · simp [r]

theorem kept_supported : Supported (kept S O) O := by
  intro a s ha
  obtain ⟨-, r⟩ := kept_some.1 ha
  cases r with
  | owned ho => exact .inl ho
  | slot r hd hm => exact .inr ⟨_, _, kept_some.2 ⟨hd, r⟩, hm⟩

/-! ## The primitives -/

namespace Stores

theorem isLive (st : Stores P n O S h) (ha : S a = some s) : h.isLive a := by
  obtain ⟨N, F, lays, holds⟩ := st
  obtain ⟨B, hB⟩ := lays.known ha
  exact holds.isLive hB

theorem ne_nil (st : Stores P n O S h) (ha : S a = some s) : a ≠ .nil := by
  obtain ⟨N, F, lays, holds⟩ := st
  obtain ⟨B, hB⟩ := lays.known ha
  exact holds.ne_nil hB

theorem owns (st : Stores P n O S h) : Owns P n O h := by
  obtain ⟨N, F, lays, holds⟩ := st
  exact holds.owns

theorem tighten {m : Nat} (st : Stores P m O S h) (sp : Spare n O) : Stores P n O S h := by
  obtain ⟨N, F, lays, holds⟩ := st
  exact ⟨N, F, lays, holds.tighten sp⟩

theorem weaken {m : Nat} (st : Stores P n O S h) (le : m ≤ n) : Stores P m O S h := by
  obtain ⟨N, F, lays, holds⟩ := st
  exact ⟨N, F, lays, holds.weaken le⟩

theorem forget (st : Stores P n O S h) (less : ∀ a s, S' a = some s → S a = some s)
    (supported : Supported S' O) : Stores P n O S' h := by
  obtain ⟨N, F, lays, holds⟩ := st
  obtain ⟨N', F', lays', le⟩ := lays.forget less
  exact ⟨N', F', lays', holds.forget le (lays'.held supported)⟩

theorem cons_nil : Stores P n (.nil ::ₘ O) S h ↔ Stores P n O S h := by
  constructor
  · rintro ⟨N, F, lays, holds⟩
    refine ⟨N, F, lays, Owns.cons_nil.1 holds.owns, holds.body, holds.held.drop (.inl ?_)⟩
    exact holds.nil_none
  · rintro ⟨N, F, lays, holds⟩
    exact ⟨N, F, lays, Owns.cons_nil.2 holds.owns, holds.body,
      holds.held.anti (Multiset.le_cons_self O _)⟩

/-! ### Reading -/

theorem child (st : Stores P n O S h) (ha : S a = some (.plain ⟨t, fs, cs⟩))
    (hb : cs[i]? = some b) : Query.child a t i h = .ok b := by
  obtain ⟨N, F, lays, holds⟩ := st
  exact holds.child (lays.plain ha) hb

theorem field (st : Stores P n O S h) (ha : S a = some (.plain ⟨t, fs, cs⟩))
    (hw : fs[i]? = some w) : Query.field a t i h = .ok w := by
  obtain ⟨N, F, lays, holds⟩ := st
  exact holds.field (lays.plain ha) hw

theorem tag (st : Stores P n O S h) (ha : S a = some (.plain B)) : Query.tag a h = .ok B.tag := by
  obtain ⟨N, F, lays, holds⟩ := st
  exact holds.tag (lays.plain ha)

/-! ### Writing -/

theorem allocate (st : Stores P n O S h) {fields children : Nat} :
    Ends (Short P O) (liftM (HeapM.allocate t fields children) : Action Address) h fun a h' =>
      S a = none ∧ Stores P n (a ::ₘ O) (Function.update S a
        (some (.plain ⟨t, .replicate fields 0, .replicate children .nil⟩))) h' := by
  obtain ⟨N, F, lays, holds⟩ := st
  refine holds.allocate.mono fun a h' ⟨fresh, holds⟩ => ⟨(lays.unknown fresh).1, N, _, ?_, holds⟩
  exact lays.insert fresh ⟨Function.update_self .., rfl⟩

theorem setField (st : Stores P n O S h) (ha : S a = some (.plain ⟨t, fs, cs⟩))
    (hi : i < fs.length) :
    Gives (HeapM.setField a t i w) h fun _ h' => Stores P n O
      (Function.update S a (some (.plain ⟨t, fs.set i w, cs⟩))) h' := by
  obtain ⟨N, F, lays, holds⟩ := st
  exact (holds.setField (lays.plain ha) hi).mono fun _ _ holds => ⟨N, _, lays.write ha, holds⟩

/-- A reference to a record that is stored, or to anything alive. -/
theorem reference (st : Stores P (n + 1) O S h) (here : a = .nil ∨ h.isLive a) :
    Gives (HeapM.reference a) h fun b h' => b = a ∧ Stores P n (a ::ₘ O) S h' := by
  obtain ⟨N, F, lays, holds⟩ := st
  exact (holds.reference here).mono fun _ _ ⟨e, holds⟩ => ⟨e, N, F, lays, holds⟩

/-- A reference is dropped, and the client keeps what it can still get at. -/
theorem free (st : Stores P n (a ::ₘ O) S h) :
    Gives (HeapM.free a) h fun _ h' => Stores P n O (kept S O) h' := by
  have le : O ≤ a ::ₘ O := Multiset.le_cons_self O a
  have owned : Supported (kept S O) (a ::ₘ O) := fun b s hb =>
    (kept_supported b s hb).imp_left (Multiset.mem_of_le le)
  obtain ⟨N, F, lays, holds⟩ := st.forget (fun _ _ hs => (kept_some.1 hs).1) owned
  refine (holds.free (lays.still ?_)).mono fun _ _ holds => ⟨N, F, lays, holds⟩
  cases e : kept S O a with
  | none => exact .inl rfl
  | some s => exact .inr (kept_supported a s e)

/-- A reference moves into an empty slot. -/
theorem fillChild (st : Stores P n (c ::ₘ O) S h) (ha : S a = some (.plain ⟨t, fs, cs⟩))
    (hx : cs[i]? = some .nil) :
    Gives (HeapM.setChildOwned a t i c) h fun _ h' => Stores P n O
      (Function.update S a (some (.plain ⟨t, fs, cs.set i c⟩))) h' := by
  obtain ⟨N, F, lays, holds⟩ := st
  exact (holds.setChildOwned (lays.plain ha) hx (.inl (holds.nil_still (lays.plain ha)))).mono
    fun _ _ holds => ⟨N, _, lays.write ha, holds⟩

/-- A new reference is stored in an empty slot. -/
theorem fillChild_new (st : Stores P (n + 1) O S h) (ha : S a = some (.plain ⟨t, fs, cs⟩))
    (hx : cs[i]? = some .nil) (here : c = .nil ∨ h.isLive c) :
    Gives (HeapM.setChild a t i c) h fun _ h' => Stores P (n + 1) O
      (Function.update S a (some (.plain ⟨t, fs, cs.set i c⟩))) h' := by
  refine (st.reference here).bind fun _ _ ⟨_, owned⟩ => ?_
  exact (owned.fillChild ha hx).mono fun _ _ owned => owned.tighten st.owns.spare

/-- A reference moves out of a slot. -/
theorem takeChild (st : Stores P (n + 1) O S h) (ha : S a = some (.plain ⟨t, fs, cs⟩))
    (hx : cs[i]? = some x) :
    Gives (HeapM.takeChild a t i) h fun b h' => b = x ∧ Stores P n (x ::ₘ O)
      (Function.update S a (some (.plain ⟨t, fs, cs.set i .nil⟩))) h' := by
  obtain ⟨N, F, lays, holds⟩ := st
  exact (holds.takeChild (lays.plain ha) hx).mono fun _ _ ⟨e, holds⟩ =>
    ⟨e, N, _, lays.write ha, holds⟩

end Stores
end Heap
end GoMachine
