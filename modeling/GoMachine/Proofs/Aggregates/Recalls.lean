import GoMachine.Proofs.Aggregates.Trails
import GoMachine.Proofs.Atomic.Values
/-!
# Questions about what was there before

While something is built on a heap, the records that were there before say what they said:
`Heap.Keeps`. `Recalls q₀ q R` says that what `q` finds in the later heap `q₀` finds in the earlier
one. Both are the same question, but those that walk along a chain may walk for as many steps as
there are records: since chains come to an end, they all find the same.

* `Recalls.bind`, `Recalls.child`, ...: questions in sequence, and about one record.
* `TypeDesc.resolve_recalls`, `TypeDesc.members_recalls`: questions about types.
-/
namespace GoMachine

open Heap (Sound)

variable {α β : Type} {h₀ h : Heap} {a b frame : Address} {t : Tag} {i : Nat} {w : UInt64}
    {e e' : Fault}

/-- The records of the first heap are also in the second, and say the same there. -/
structure Heap.Keeps (h₀ h : Heap) : Prop where
  base : h₀.Sound
  closed : Closed h₀.body?
  listed : Facts.Listed h₀.body?
  sound : h.Sound
  sub : Facts.Sub h₀.body? h.body?

/-- What `q` finds in the second heap `q₀` finds in the first one, and it is something from there.
-/
def Recalls (h₀ h : Heap) (q₀ q : Query α) (R : α → Prop) : Prop := ∀ r, q h = .ok r →
    q₀ h₀ = .ok r ∧ R r

theorem Old.body {k : Heap} (old : Old k a) (there : a ≠ .nil) : ∃ D, k.body? a = .some D :=
  ⟨_, Heap.body?_eq_some.2 ⟨_, Heap.cell?_eq_some.2 ⟨old.resolve_left there, rfl⟩, rfl⟩⟩

theorem Old.of_child {D : Body} (closed : Closed h₀.body?) (ha : h₀.body? a = some D)
    (hb : b ∈ D.children) :
    Old h₀ b := by
  refine (closed a D b ha hb).imp_right fun known => ?_
  obtain ⟨E, hE⟩ := Option.ne_none_iff_exists'.1 known
  obtain ⟨c, hc, -⟩ := Heap.body?_eq_some.1 hE
  exact (Heap.cell?_eq_some.1 hc).1

namespace Recalls

variable {q₀ q : Query α} {f₀ f : α → Query β} {R R' : α → Prop} {S : β → Prop}

theorem pure {r : α} (done : R r) : Recalls h₀ h (Pure.pure r) (Pure.pure r) R := fun _ run => by
  obtain rfl := query_pure_ok.1 run
  exact ⟨rfl, done⟩

theorem throw : Recalls h₀ h (MonadExcept.throw e : Query α) (MonadExcept.throw e') R :=
  fun _ run => (query_throw_ok.1 run).elim

theorem bind (k : Recalls h₀ h q₀ q R) (hf : ∀ r, R r → Recalls h₀ h (f₀ r) (f r) S) :
    Recalls h₀ h (q₀ >>= f₀) (q >>= f) S := by
  intro r run
  obtain ⟨a, found, run⟩ := query_bind_ok.1 run
  obtain ⟨found, old⟩ := k a found
  exact (hf a old r run).imp_left fun run => query_bind_ok.2 ⟨a, found, run⟩

theorem ite {c : Prop} [Decidable c] {y₀ y : Query α} (hq : c → Recalls h₀ h q₀ q R)
    (hy : ¬c → Recalls h₀ h y₀ y R) :
    Recalls h₀ h (if c then q₀ else y₀) (if c then q else y) R := by
  split
  · exact hq ‹_›
  · exact hy ‹_›

theorem mapM {γ δ : Type} {g : γ → Query δ} {l : List γ}
    (hg : ∀ c ∈ l, Recalls h₀ h (g c) (g c) fun _ => True) :
    Recalls h₀ h (l.mapM g) (l.mapM g) fun _ => True := by
  induction l with
  | nil => exact pure trivial
  | cons c l ih =>
    rw [List.mapM_cons]
    refine (hg c List.mem_cons_self).bind fun _ _ => ?_
    exact (ih fun d hd => hg d (List.mem_cons_of_mem c hd)).bind fun _ _ => pure trivial

/-! ### One record -/

theorem tag (k : h₀.Keeps h) (old : Old h₀ a) : Recalls h₀ h (Query.tag a) (Query.tag a) fun _ =>
    True := by
  intro t run
  refine ⟨ofHeap_ok.2 (k.base.tag_ok.2 ?_), trivial⟩
  rcases k.sound.tag_read run with absent | ⟨D, hD, ht⟩
  · exact .inl absent
  · have there : a ≠ .nil := by
      rintro rfl
      rw [k.sound.body?_nil] at hD
      cases hD
    obtain ⟨E, hE⟩ := old.body there
    obtain rfl := Option.some_inj.1 ((k.sub hE).symm.trans hD)
    obtain ⟨c, hc, rfl⟩ := Heap.body?_eq_some.1 hE
    exact .inr ⟨c, hc, ht⟩

/-- What a record says is what it said. -/
theorem known {D : Body} (k : h₀.Keeps h) (old : Old h₀ a) (hD : h.body? a = some D) :
    h₀.body? a = some D := by
  have there : a ≠ .nil := by
    rintro rfl
    rw [k.sound.body?_nil] at hD
    cases hD
  obtain ⟨E, hE⟩ := old.body there
  rw [hE, ← k.sub hE, hD]

theorem child (k : h₀.Keeps h) (old : Old h₀ a) :
    Recalls h₀ h (Query.child a t i) (Query.child a t i) (Old h₀) := by
  intro b run
  obtain ⟨D, hD, rfl, hb⟩ := k.sound.child_read run
  have hD := known k old hD
  exact ⟨k.base.child_body hD hb, .of_child k.closed hD (List.mem_of_getElem? hb)⟩

theorem field (k : h₀.Keeps h) (old : Old h₀ a) :
    Recalls h₀ h (Query.field a t i) (Query.field a t i) fun _ => True := by
  intro w run
  obtain ⟨D, hD, rfl, hw⟩ := k.sound.field_read run
  obtain ⟨c, hc, rfl⟩ := Heap.body?_eq_some.1 (known k old hD)
  exact ⟨ofHeap_ok.2 (k.base.field_ok.2 ⟨c, hc, rfl, hw⟩), trivial⟩

theorem children (k : h₀.Keeps h) (old : Old h₀ a) :
    Recalls h₀ h (Query.children a) (Query.children a) fun l => ∀ b ∈ l, Old h₀ b := by
  intro l run
  rcases k.sound.children_read run with ⟨rfl, rfl⟩ | ⟨D, hD, rfl⟩
  · exact ⟨ofHeap_ok.2 (k.base.children_ok.2 (.inl ⟨rfl, rfl⟩)), by simp⟩
  · have hD := known k old hD
    obtain ⟨c, hc, rfl⟩ := Heap.body?_eq_some.1 hD
    exact ⟨ofHeap_ok.2 (k.base.children_ok.2 (.inr ⟨c, hc, rfl⟩)), fun b hb =>
      .of_child k.closed hD hb⟩

theorem numChildren (k : h₀.Keeps h) (old : Old h₀ a) :
    Recalls h₀ h (Query.numChildren a) (Query.numChildren a) fun _ => True := by
  intro n run
  refine ⟨ofHeap_ok.2 (k.base.numChildren_ok.2 ?_), trivial⟩
  rcases k.sound.numChildren_ok.1 (ofHeap_ok.1 run) with absent | ⟨c, hc, rfl⟩
  · exact .inl absent
  · obtain ⟨c', hc', e⟩ := Heap.body?_eq_some.1 (known k old (Heap.body?_eq_some.2 ⟨c, hc, rfl⟩))
    exact .inr ⟨c', hc', congrArg (fun D => D.children.length) e⟩

theorem require {expected : String} (k : h₀.Keeps h) (old : Old h₀ a) :
    Recalls h₀ h (Query.require a t expected) (Query.require a t expected) fun _ => True :=
  (tag k old).bind fun _ _ => .ite (fun _ => .pure trivial) fun _ => .throw

end Recalls

/-! ## Strings -/

theorem Scalar.toRune_recalls (k : h₀.Keeps h) (old : Old h₀ a) :
    Recalls h₀ h (toRune a) (toRune a) fun _ => True := by
  refine (Recalls.tag k old).bind fun t _ => ?_
  cases t <;> first | exact .throw | exact (Recalls.field k old).bind fun _ _ => .pure trivial

namespace Text

theorem toString_recalls (k : h₀.Keeps h) (old : Old h₀ a) :
    Recalls h₀ h (toString a) (toString a) fun _ => True := by
  refine Recalls.bind (R := fun _ => True) ?_ fun _ _ => .pure trivial
  exact (Recalls.require k old).bind fun _ _ => (Recalls.children k old).bind fun l hl =>
    .mapM fun rune hr => Scalar.toRune_recalls k (hl rune hr)

theorem sameRunes_recalls (k : h₀.Keeps h) : ∀ {runes : List Address} {cs : List Char},
    (∀ r ∈ runes, Old h₀ r) →
    Recalls h₀ h (sameRunes Pure.pure runes cs) (sameRunes Pure.pure runes cs) fun _ => True
  | [], _, _ => .pure trivial
  | _ :: _, [], _ => .pure trivial
  | rune :: runes, c :: cs, old => by
    unfold sameRunes
    refine (Scalar.toRune_recalls k (old rune List.mem_cons_self)).bind fun c' _ => ?_
    refine (Recalls.pure (R := fun _ => True) trivial).bind fun d _ => .ite (fun _ => ?_) fun _ =>
      .pure trivial
    exact sameRunes_recalls k fun r hr => old r (List.mem_cons_of_mem _ hr)

theorem eqString_recalls {text : String} (k : h₀.Keeps h) (old : Old h₀ a) :
    Recalls h₀ h (eqString a text) (eqString a text) fun _ => True := by
  have hashed : Recalls h₀ h (hash a) (hash a) fun _ => True :=
    (Recalls.require k old).bind fun _ _ => Recalls.field k old
  have sized : Recalls h₀ h (size a) (size a) fun _ => True :=
    (Recalls.require k old).bind fun _ _ => Recalls.numChildren k old
  refine hashed.bind fun _ _ => .ite (fun _ => .pure trivial) fun _ => ?_
  refine sized.bind fun _ _ => .ite (fun _ => .pure trivial) fun _ => ?_
  exact (Recalls.children k old).bind fun l hl => sameRunes_recalls k hl

end Text

/-! ## Chains -/

namespace Recalls

variable {f₀ f : Address → Query β} {S : β → Prop} {l : List Address} {m₀ m : Nat}

/-- A link that is found in the later heap is the one there was. -/
theorem next (k : h₀.Keeps h) (old : Old h₀ a)
    (hf : ∀ b, Facts.link h₀.body? t i a = some b → Old h₀ b → Recalls h₀ h (f₀ b) (f b) S) :
    Recalls h₀ h (Query.child a t i >>= f₀) (Query.child a t i >>= f) S := by
  refine Recalls.bind (R := fun b => Facts.link h₀.body? t i a = some b ∧ Old h₀ b)
    (fun b run => ?_)
    fun b hb => hf b hb.1 hb.2
  obtain ⟨run₀, there⟩ := child k old b run
  obtain ⟨D, hD, ht, hb⟩ := k.sound.child_read run
  exact ⟨run₀, Facts.link_eq_some.2 ⟨D, known k old hD, ht, hb⟩, there⟩

/-- Whoever may walk to the end of a chain in both heaps finds the same. -/
theorem walk {f : Nat → Address → Query β}
    (ahead : ∀ m₀ m a, Old h₀ a → (∀ b, Facts.link h₀.body? t i a = some b → Old h₀ b →
      Recalls h₀ h (f m₀ b) (f m b) S) → Recalls h₀ h (f (m₀ + 1) a) (f (m + 1) a) S)
    (trail : Trail (Facts.link h₀.body? t i) a l) (old : Old h₀ a) (lt₀ : l.length < m₀)
    (lt : l.length < m) :
    Recalls h₀ h (f m₀ a) (f m a) S := by
  induction trail generalizing m₀ m with
  | stop ended =>
    obtain ⟨m₀, rfl⟩ := Nat.exists_eq_succ_of_ne_zero (Nat.ne_of_gt lt₀)
    obtain ⟨m, rfl⟩ := Nat.exists_eq_succ_of_ne_zero (Nat.ne_of_gt lt)
    exact ahead m₀ m _ old fun b found _ => by rw [ended] at found; cases found
  | step next _ ih =>
    obtain ⟨m₀, rfl⟩ := Nat.exists_eq_succ_of_ne_zero (Nat.ne_of_gt (Nat.zero_lt_of_lt lt₀))
    obtain ⟨m, rfl⟩ := Nat.exists_eq_succ_of_ne_zero (Nat.ne_of_gt (Nat.zero_lt_of_lt lt))
    refine ahead m₀ m _ old fun b found there => ?_
    obtain rfl := Option.some_inj.1 (next.symm.trans found)
    exact ih there (Nat.lt_of_succ_lt_succ lt₀) (Nat.lt_of_succ_lt_succ lt)

/-- There are as many steps as records in each of the heaps. -/
theorem walk_all {f : Nat → Address → Query β}
    (ahead : ∀ m₀ m a, Old h₀ a → (∀ b, Facts.link h₀.body? t i a = some b → Old h₀ b →
      Recalls h₀ h (f m₀ b) (f m b) S) → Recalls h₀ h (f (m₀ + 1) a) (f (m + 1) a) S)
    (k : h₀.Keeps h) (trail : ∃ l, Trail (Facts.link h₀.body? t i) a l) (old : Old h₀ a) :
    Recalls h₀ h (do f ((← read).liveCount + 1) a) (do f ((← read).liveCount + 1) a) S := by
  obtain ⟨l, trail⟩ := trail
  have walked := walk ahead trail old (Nat.lt_succ_of_le (trail.length_le k.base .refl))
    (Nat.lt_succ_of_le (trail.length_le k.sound k.sub))
  intro r run
  obtain ⟨_, here, run⟩ := query_bind_ok.1 run
  obtain rfl := query_read_ok.1 here
  exact (walked r run).imp_left fun run₀ => query_bind_ok.2 ⟨h₀, rfl, run₀⟩

end Recalls

section

variable {matching : Address → Query Bool}

/-- The keys and values of a chain. -/
theorem Entry.pairs_recalls (k : h₀.Keeps h) (old : Old h₀ a) :
    Recalls h₀ h (pairs a) (pairs a) fun l => ∀ p ∈ l, Old h₀ p.1 ∧ Old h₀ p.2 := by
  refine Recalls.walk_all (fun m₀ m a old rest => ?_) k (k.listed.entries a) old
  unfold take
  refine .ite (fun _ => .pure (by simp)) fun _ => ?_
  refine (Recalls.child k old).bind fun key hk => ?_
  refine (Recalls.child k old).bind fun value hv => ?_
  refine Recalls.next k old fun b found there => (rest b found there).bind fun l hl =>
    .pure fun p hp => ?_
  rcases List.mem_cons.1 hp with rfl | hp
  · exact ⟨hk, hv⟩
  · exact hl p hp

theorem Frame.findLocal?_recalls (k : h₀.Keeps h)
    (same : ∀ key, Old h₀ key → Recalls h₀ h (matching key) (matching key) fun _ => True)
    (old : Old h₀ frame) :
    Recalls h₀ h (findLocal? matching frame) (findLocal? matching frame) fun r => ∀ v ∈ r,
    Old h₀ v := by
  refine (Recalls.child k old).bind fun first hf => ?_
  refine Recalls.walk_all (fun m₀ m a old rest => ?_) k (k.listed.entries first) hf
  unfold Entry.find?
  refine .ite (fun _ => .pure (by simp)) fun _ => ?_
  refine (Recalls.child k old).bind fun key hk => ?_
  refine (same key hk).bind fun found _ =>
    .ite (fun _ => ?_) fun _ => ?_
  · exact (Recalls.child k old).bind fun v hv => .pure (by simpa using hv)
  · exact Recalls.next k old rest

theorem Frame.find?_recalls (k : h₀.Keeps h)
    (same : ∀ key, Old h₀ key → Recalls h₀ h (matching key) (matching key) fun _ => True)
    (old : Old h₀ frame) :
    Recalls h₀ h (find? matching frame) (find? matching frame) fun r => ∀ v ∈ r, Old h₀ v := by
  refine Recalls.walk_all (fun m₀ m a old rest => ?_) k (k.listed.frames frame) old
  unfold findAmong?
  refine .ite (fun _ => .pure (by simp)) fun _ => ?_
  refine (findLocal?_recalls k same old).bind fun found hv => ?_
  cases found with
  | some v => exact .pure hv
  | none => exact Recalls.next k old rest

end

/-! ## Types -/

namespace TypeDesc

variable {type decl structs : Address}

theorem elem_recalls (k : h₀.Keeps h) (old : Old h₀ type) :
    Recalls h₀ h (elem type) (elem type) (Old h₀) := by
  refine (Recalls.tag k old).bind fun t _ => ?_
  cases t <;> first | exact .throw | exact Recalls.child k old

theorem arraySize_recalls (k : h₀.Keeps h) (old : Old h₀ type) :
    Recalls h₀ h (arraySize type) (arraySize type) fun _ => True :=
  (Recalls.field k old).bind fun _ _ => .pure trivial

theorem members_recalls (k : h₀.Keeps h) (old : Old h₀ decl) :
    Recalls h₀ h (members decl) (members decl) fun l => ∀ p ∈ l, Old h₀ p.1 ∧ Old h₀ p.2 :=
  (Recalls.child k old).bind fun _ hf => Entry.pairs_recalls k hf

theorem resolve_recalls (k : h₀.Keeps h) (olds : Old h₀ structs) (old : Old h₀ type) :
    Recalls h₀ h (resolve structs type) (resolve structs type) (Old h₀) := by
  refine Recalls.bind (R := fun _ => True) ?_ fun name _ => ?_
  · refine (Recalls.tag k old).bind fun t _ => ?_
    cases t <;> first
      | exact .throw
      | exact (Recalls.child k old).bind fun _ hn => Text.toString_recalls k hn
  · refine (Frame.find?_recalls k (fun key hk => Text.eqString_recalls k hk) olds).bind
      fun found hv => ?_
    cases found with
    | some decl => exact .pure (hv decl rfl)
    | none => exact .throw

end TypeDesc
end GoMachine
