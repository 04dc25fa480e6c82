import GoMachine.Channel
import GoMachine.Proofs.Atomic.Restores
/-!
# Values that are built or not

Each function that makes a record of other new records, or puts one into a container, either does so
or leaves nothing behind. `Raises x` says so of a function `x` that makes a record: what it builds
is ranked below any given rank. A `Site` is a record that is being filled.

* `Site.allocate`, `Site.setChild`, `Site.make`, `Holding.put`: how a record is filled.
* `zeroValue_raises`, `Channel.create_raises`, `Thread.create_raises`: the constructors.
-/
namespace GoMachine

open Heap (Raised Under Above)

section

variable {P B F O : Multiset Address} {h₀ h h' : Heap} {ρ ρ' : Address → ℚ} {n : Nat} {q r : ℚ}
  {a b s v : Address} {t : Tag} {i : Nat} {w : UInt64}

/-- An address of the heap that is built on. -/
def Old (h₀ : Heap) (a : Address) : Prop := a = .nil ∨ h₀.isLive a

theorem Old.under (old : Old h₀ a) : Under h₀ ρ q a := old.imp_right .inl

theorem Heap.Under.congr (u : Under h₀ ρ q a) (same : h₀.isLive a = false → a ≠ .nil → ρ' a = ρ a) :
    Under h₀ ρ' q a := by
  by_cases hn : a = .nil
  · exact .inl hn
  by_cases hl : h₀.isLive a
  · exact .inr (.inl hl)
  · rw [Bool.not_eq_true] at hl
    exact .inr (.inr (same hl hn ▸ (u.resolve_left hn).resolve_left (by simp [hl])))

/-- There is a rank between those of two records and a higher one. -/
theorem Heap.Under.between (u : Under h₀ ρ q a) (u' : Under h₀ ρ q b) :
    ∃ r < q, Under h₀ ρ r a ∧ Under h₀ ρ r b := by
  have one {a : Address} (u : Under h₀ ρ q a) : ∃ r < q, Under h₀ ρ r a := by
    rcases u with e | hl | lt
    · exact ⟨q - 1, sub_one_lt q, .inl e⟩
    · exact ⟨q - 1, sub_one_lt q, .inr (.inl hl)⟩
    · obtain ⟨r, low, high⟩ := exists_between lt
      exact ⟨r, high, .inr (.inr low)⟩
  obtain ⟨r, lt, u⟩ := one u
  obtain ⟨r', lt', u'⟩ := one u'
  exact ⟨max r r', max_lt lt lt', u.mono (le_max_left r r'), u'.mono (le_max_right r r')⟩

/-- A record is made of new ones, of lower rank than `q`, or nothing is left of it. -/
def Raises (P B : Multiset Address) (h₀ : Heap) (x : Action Address) : Prop :=
  ∀ {ρ n O h} (q : ℚ), Raised P B h₀ ρ (n + 1) O h → Restores P B h₀ (n + 1) O x h fun a h' =>
    ∃ ρ', Under h₀ ρ' q a ∧ Above q ρ h ρ' h' ∧ Raised P B h₀ ρ' (n + 1) (a ::ₘ O) h'

/-- A new record of the rank `q` is being filled, in a heap that was once `h`. -/
structure Site (P B : Multiset Address) (h₀ : Heap) (ρ : Address → ℚ) (h : Heap) (q : ℚ) (n : Nat)
    (O : Multiset Address) (s : Address) (h' : Heap) : Prop where
  fresh : h₀.isLive s = false
  some : s ≠ .nil
  raised : ∃ ρ', ρ' s = q ∧ Above q ρ h ρ' h' ∧ Raised P B h₀ ρ' n (s ::ₘ O) h'

/-- There is something to put into the record. -/
structure Holding (P B : Multiset Address) (h₀ : Heap) (ρ : Address → ℚ) (h : Heap) (q : ℚ)
    (n : Nat)
    (O : Multiset Address) (s v : Address) (h' : Heap) : Prop where
  fresh : h₀.isLive s = false
  some : s ≠ .nil
  raised : ∃ ρ', ρ' s = q ∧ Under h₀ ρ' q v ∧ Above q ρ h ρ' h' ∧
  Raised P B h₀ ρ' n (v ::ₘ s ::ₘ O) h'

theorem Heap.Above.all (all : ∀ r, Above r ρ h ρ' h') (hl : h.isLive b) : h'.isLive b ∧
    ρ' b = ρ b :=
  all (ρ b) b hl le_rfl

theorem Restores.allocate {fields children : Nat} (g : Raised P B h₀ ρ n O h) (q : ℚ) :
    Restores P B h₀ n O (liftM (HeapM.allocate t fields children)) h fun a h' =>
    h₀.isLive a = false ∧
      a ≠ .nil ∧ ∃ ρ', ρ' a = q ∧ (∀ r, Above r ρ h ρ' h') ∧ Raised P B h₀ ρ' n (a ::ₘ O) h' := by
  refine .still g (Yields.heap ((g.allocate q).mono fun a h' ⟨hn, dead, dead₀, live, g'⟩ => ?_))
    fun e h' run => ?_
  · refine ⟨dead₀, hn, _, Function.update_self .., fun r b hb _ =>
      ⟨live b hb, Function.update_of_ne ?_ ..⟩, g'⟩
    rintro rfl
    rw [hb] at dead
    cases dead
  · simp only [liftM, monadLift, MonadLift.monadLift] at run
    split at run <;> cases run
    exact Heap.Owns.allocate_error ‹_›

namespace Site

theorem allocate {fields children : Nat} (g : Raised P B h₀ ρ n O h) (q : ℚ) :
    Restores P B h₀ n O (liftM (HeapM.allocate t fields children)) h (Site P B h₀ ρ h q n O) :=
  (Restores.allocate g q).mono fun _ _ ⟨dead, hn, ρ', rank, above, g'⟩ =>
  ⟨dead, hn, ρ', rank, above q, g'⟩

theorem setField (site : Site P B h₀ ρ h q n O s h') :
    Restores P B h₀ n F (liftM (HeapM.setField s t i w)) h'
    fun _ => Site P B h₀ ρ h q n O s := by
  obtain ⟨dead, hn, ρ', rank, above, g⟩ := site
  refine .lawful .setField (Yields.heap ((g.setField dead).mono fun _ h'' ⟨g', live⟩ => ?_))
  exact ⟨dead, hn, ρ', rank, above.trans fun b hb _ => ⟨live b hb, rfl⟩, g'⟩

theorem setChild (site : Site P B h₀ ρ h q (n + 1) O s h') (old : Old h₀ b) :
    Restores P B h₀ (n + 1) F (liftM (HeapM.setChild s t i b)) h' fun _ =>
    Site P B h₀ ρ h q (n + 1) O s := by
  obtain ⟨dead, hn, ρ', rank, above, g⟩ := site
  refine .lawful .setChild
    (Yields.heap ((g.setChild dead old.under).mono fun _ h'' ⟨g', above'⟩ => ?_))
  exact ⟨dead, hn, ρ', rank, above.trans (rank ▸ above'), g'⟩

theorem make {x : Action Address} (site : Site P B h₀ ρ h q (n + 1) O s h')
    (raises : Raises P B h₀ x) :
    Restores P B h₀ (n + 1) (s ::ₘ O) x h' fun v => Holding P B h₀ ρ h q (n + 1) O s v := by
  obtain ⟨dead, hn, ρ', rank, above, g⟩ := site
  refine (raises q g).mono fun v h'' ⟨ρ'', under, above', g'⟩ =>
    ⟨dead, hn, ρ'', ?_, under, above.trans above', g'⟩
  exact (above' s (g.isLive_of_mem (Multiset.mem_cons_self ..) hn) rank.ge).2.trans rank

/-- The record is filled. -/
theorem done (site : Site P B h₀ ρ h r n O s h') (lt : r < q) :
    ∃ ρ', Under h₀ ρ' q s ∧ Above q ρ h ρ' h' ∧ Raised P B h₀ ρ' n (s ::ₘ O) h' := by
  obtain ⟨-, -, ρ', rank, above, g⟩ := site
  exact ⟨ρ', .inr (.inr (rank ▸ lt)), above.mono lt.le, g⟩

end Site

theorem Holding.put (held : Holding P B h₀ ρ h q n O s v h') :
    Restores P B h₀ n F (liftM (HeapM.setChildOwned s t i v)) h' fun _ =>
    Site P B h₀ ρ h q n O s := by
  obtain ⟨dead, hn, ρ', rank, under, above, g⟩ := held
  refine .lawful .setChildOwned (Yields.heap ((g.setChildOwned dead (rank.symm ▸ under)).mono
    fun _ h'' ⟨g', above', _⟩ => ?_))
  exact ⟨dead, hn, ρ', rank, above.trans (rank ▸ above'), g'⟩

/-! ## Scalars, strings, containers -/

section

variable {type value key next frame structs decl array elem : Address} {initial : Int64}
    {id : UInt64}

theorem Scalar.new_raises : Raises P B h₀ (Scalar.new t w) := fun q g =>
  (Site.allocate g (q - 1)).bind fun _ _ site => site.setField.bind fun _ _ site =>
    .pure (site.done (sub_one_lt q))

theorem allocate_raises {fields children : Nat} :
    Raises P B h₀ (liftM (HeapM.allocate t fields children)) := fun q g =>
  (Site.allocate g (q - 1)).mono fun _ _ site => site.done (sub_one_lt q)

/-- A loop that fills a record. -/
theorem Site.forIn {γ : Type} {l : List γ} {body : γ → PUnit → Action (ForInStep PUnit)}
    (site : Site P B h₀ ρ h q n O s h')
    (turn : ∀ c ∈ l, ∀ h', Site P B h₀ ρ h q n O s h' →
      Restores P B h₀ n F (body c ⟨⟩) h' fun r h'' => r = .yield ⟨⟩ ∧ Site P B h₀ ρ h q n O s h'') :
    Restores P B h₀ n F (ForIn.forIn l PUnit.unit body) h' fun _ => Site P B h₀ ρ h q n O s :=
  Restores.forIn (I := fun _ => Site P B h₀ ρ h q n O s) site fun c _ h' hc site =>
  turn c hc h' site

theorem Text.create_raises {text : String} : Raises P B h₀ (Text.create text) := by
  intro ρ n O h q g
  refine (Site.allocate g (q - 1)).bind fun s h₁ site => ?_
  refine site.setField.bind fun _ h₂ site => ?_
  refine (site.forIn fun c _ h₃ site => ?_).bind fun _ h₃ site => .pure (site.done (sub_one_lt q))
  refine (Restores.orRelease (site.make Scalar.new_raises)).bind fun rune h₄ held => ?_
  exact held.put.bind fun _ h₅ site => .pure ⟨rfl, site⟩

theorem Text.ofRunes_raises {runes : List Address} (old : ∀ a ∈ runes, Old h₀ a) :
    Raises P B h₀ (Text.ofRunes runes) := by
  intro ρ n O h q g
  have asked : ∀ l : List Address, Restores P B h₀ (n + 1) O
    (l.mapM fun rune => (Scalar.toRune rune : Action Char)) h
      fun _ h' => h' = h := by
    intro l
    induction l with
    | nil => exact .pure rfl
    | cons c l ih =>
      rw [List.mapM_cons]
      exact .read g fun _ _ => ih.bind fun _ _ e => .pure e
  refine (asked runes).bind fun cs h₁ e => ?_
  subst e
  refine (Site.allocate g (q - 1)).bind fun s h₁ site => ?_
  refine site.setField.bind fun _ h₂ site => ?_
  refine (site.forIn fun c hc h₃ site => ?_).bind fun _ h₃ site => .pure (site.done (sub_one_lt q))
  exact (site.setChild (old _ (List.fst_mem_of_mem_zipIdx hc))).bind fun _ h₄ site =>
    .pure ⟨rfl, site⟩

theorem LockKind.create_raises {k : LockKind} : Raises P B h₀ (k.create initial) := by
  intro ρ n O h q g
  refine (Site.allocate g (q - 1)).bind fun lock h₁ site => ?_
  refine site.setField.bind fun _ h₂ site => ?_
  refine (Restores.orRelease (site.make allocate_raises)).bind fun queue h₃ held => ?_
  exact held.put.bind fun _ h₄ site => .pure (site.done (sub_one_lt q))

theorem Scheduler.create_raises : Raises P B h₀ Scheduler.create := by
  intro ρ n O h q g
  refine (Site.allocate g (q - 1)).bind fun s h₁ site => ?_
  refine (Restores.orRelease (site.make allocate_raises)).bind fun queue h₂ held => ?_
  exact held.put.bind fun _ h₃ site => .pure (site.done (sub_one_lt q))

/-! ## Records of what was made before -/

/-- A record is made for something that is owned already. -/
theorem Holding.allocate {fields children : Nat} (g : Raised P B h₀ ρ n (v ::ₘ O) h)
    (under : Under h₀ ρ q v) :
    Restores P B h₀ n (v ::ₘ O) (liftM (HeapM.allocate t fields children)) h
      fun s => Holding P B h₀ ρ h q n O s v := by
  refine (Restores.allocate g q).mono fun s h' ⟨dead, hn, ρ', rank, above, g'⟩ =>
    ⟨dead, hn, ρ', rank, under.congr fun _ there => ?_, above q, g'.swap⟩
  exact (Above.all above (g.isLive_of_mem (Multiset.mem_cons_self ..) there)).2

theorem TypeDesc.named_raises {name : String} : Raises P B h₀ (TypeDesc.named name) := by
  intro ρ n O h q g
  refine (Text.create_raises (q - 1) g).bind fun key h₁ ⟨ρ₁, under, above, g₁⟩ => ?_
  refine (Restores.orRelease (Holding.allocate g₁ under)).bind fun type h₂ held => ?_
  refine held.put.bind fun _ h₃ site => ?_
  obtain ⟨ρ', under', above', g'⟩ := site.done (sub_one_lt q)
  exact .pure ⟨ρ', under', (above.mono (sub_one_lt q).le).trans above', g'⟩

/-- An address that a record of the rank may refer to, and that stays as long as nothing is dropped.
-/
def Refers (h₀ : Heap) (ρ : Address → ℚ) (h : Heap) (q : ℚ) (b : Address) : Prop :=
  Under h₀ ρ q b ∧ (b = .nil ∨ h.isLive b)

theorem Old.refers (g : Raised P B h₀ ρ n O h) (old : Old h₀ a) : Refers h₀ ρ h q a :=
  ⟨old.under, old.imp_right g.live⟩

theorem Heap.Raised.refers (g : Raised P B h₀ ρ n O h) (ha : a ∈ O) (under : Under h₀ ρ q a) :
    Refers h₀ ρ h q a :=
  ⟨under, (em (a = .nil)).imp_right (g.isLive_of_mem ha)⟩

/-- What stands in a new record. -/
theorem Heap.Raised.child_refers (g : Raised P B h₀ ρ n O h) (dead : h₀.isLive s = false)
    (asked : Query.child s t i h = .ok b) : Refers h₀ ρ h (ρ s) b := by
  obtain ⟨c, hc, -, at_i⟩ := g.sound.child_ok.1 (ofHeap_ok.1 asked)
  have hb := List.mem_of_getElem? at_i
  exact ⟨g.ranked hc dead hb, g.owns.exact.closed (by simp [Heap.mem_edges.2 ⟨s, c, hc, hb⟩])⟩

/-- There is a rank for a record between a higher one and what it is to refer to. -/
theorem Refers.between (ha : Refers h₀ ρ h q a) (hb : Refers h₀ ρ h q b) (hv : Refers h₀ ρ h q v) :
    ∃ r < q, Refers h₀ ρ h r a ∧ Refers h₀ ρ h r b ∧ Refers h₀ ρ h r v := by
  obtain ⟨r, lt, ua, ub⟩ := ha.1.between hb.1
  obtain ⟨r', lt', uv, -⟩ := hv.1.between hv.1
  exact ⟨max r r', max_lt lt lt', ⟨ua.mono (le_max_left ..), ha.2⟩,
    ⟨ub.mono (le_max_left ..), hb.2⟩,
    uv.mono (le_max_right ..), hv.2⟩

/-- A record of old things and of others that have been made before. -/
structure Combines (P B : Multiset Address) (h₀ : Heap) (ρ : Address → ℚ) (h : Heap) (q : ℚ)
    (n : Nat)
    (O : Multiset Address) (s : Address) (h' : Heap) : Prop where
  fresh : h₀.isLive s = false
  some : s ≠ .nil
  raised : ∃ ρ', ρ' s = q ∧ (∀ b, h.isLive b → ρ' b = ρ b) ∧ Above q ρ h ρ' h' ∧
  Raised P B h₀ ρ' n (s ::ₘ O) h'

namespace Combines

theorem allocate {fields children : Nat} (g : Raised P B h₀ ρ n O h) (q : ℚ) :
    Restores P B h₀ n O (liftM (HeapM.allocate t fields children)) h (Combines P B h₀ ρ h q n O) :=
  (Restores.allocate g q).mono fun _ _ ⟨dead, hn, ρ', rank, above, g'⟩ =>
    ⟨dead, hn, ρ', rank, fun _ live => (Above.all above live).2, above q, g'⟩

theorem setField (combines : Combines P B h₀ ρ h q n O s h') :
    Restores P B h₀ n F (liftM (HeapM.setField s t i w)) h'
    fun _ => Combines P B h₀ ρ h q n O s := by
  obtain ⟨dead, hn, ρ', rank, same, above, g⟩ := combines
  refine .lawful .setField (Yields.heap ((g.setField dead).mono fun _ h'' ⟨g', live⟩ => ?_))
  exact ⟨dead, hn, ρ', rank, same, above.trans fun b hb _ => ⟨live b hb, rfl⟩, g'⟩

theorem setChild (combines : Combines P B h₀ ρ h q (n + 1) O s h') (refers : Refers h₀ ρ h q b) :
    Restores P B h₀ (n + 1) F (liftM (HeapM.setChild s t i b)) h' fun _ =>
    Combines P B h₀ ρ h q (n + 1) O s := by
  obtain ⟨dead, hn, ρ', rank, same, above, g⟩ := combines
  have under : Under h₀ ρ' (ρ' s) b := rank.symm ▸ refers.1.congr fun _ there =>
    same b (refers.2.resolve_left there)
  refine .lawful .setChild (Yields.heap ((g.setChild dead under).mono fun _ h'' ⟨g', above'⟩ => ?_))
  exact ⟨dead, hn, ρ', rank, same, above.trans (rank ▸ above'), g'⟩

theorem done (combines : Combines P B h₀ ρ h r n O s h') (lt : r < q) :
    ∃ ρ', Under h₀ ρ' q s ∧ Above q ρ h ρ' h' ∧ Raised P B h₀ ρ' n (s ::ₘ O) h' := by
  obtain ⟨-, -, ρ', rank, -, above, g⟩ := combines
  exact ⟨ρ', .inr (.inr (rank ▸ lt)), above.mono lt.le, g⟩

/-- What was made before is dropped. -/
theorem drops {z : Address} (combines : Combines P B h₀ ρ h q n (z ::ₘ O) s h')
    (refers : Refers h₀ ρ h q z) :
    Gives (HeapM.free z) h' fun _ h'' => Combines P B h₀ ρ h q n O s h'' := by
  obtain ⟨dead, hn, ρ', rank, same, above, g⟩ := combines
  have under : Under h₀ ρ' q z := refers.1.congr fun _ there => same z (refers.2.resolve_left there)
  exact g.swap.free.mono fun _ h'' ⟨g', kept⟩ =>
    ⟨dead, hn, ρ', rank, same, above.trans (kept _ under), g'⟩

end Combines

theorem Variable.create_joins (g : Raised P B h₀ ρ (n + 1) O h) (ht : Refers h₀ ρ h q type)
    (hv : Refers h₀ ρ h q value) :
    Restores P B h₀ (n + 1) O (Variable.create type value) h (Combines P B h₀ ρ h q (n + 1) O) :=
  (Combines.allocate g q).bind fun _ _ combines => (combines.setChild ht).bind fun _ _ combines =>
    (combines.setChild hv).bind fun _ _ combines => .pure combines

theorem Entry.create_joins (g : Raised P B h₀ ρ (n + 1) O h) (hk : Refers h₀ ρ h q key)
    (hv : Refers h₀ ρ h q value) (hn : Refers h₀ ρ h q next) :
    Restores P B h₀ (n + 1) O (Entry.create key value next) h (Combines P B h₀ ρ h q (n + 1) O) :=
  (Combines.allocate g q).bind fun _ _ combines => (combines.setChild hk).bind fun _ _ combines =>
    (combines.setChild hv).bind fun _ _ combines => (combines.setChild hn).bind fun _ _ combines =>
    .pure combines

theorem Frame.create_joins (g : Raised P B h₀ ρ (n + 1) O h) :
    Restores P B h₀ (n + 1) O (Frame.create .nil) h (Combines P B h₀ ρ h q (n + 1) O) :=
  (Combines.allocate g q).bind fun _ _ combines =>
  (combines.setChild ⟨.inl rfl, .inl rfl⟩).bind fun _ _ combines => .pure combines

theorem Slice.create_joins {offset size cap : Nat} (g : Raised P B h₀ ρ (n + 1) O h)
    (ha : Refers h₀ ρ h q array)
    (he : Refers h₀ ρ h q elem) : Restores P B h₀ (n + 1) O
    (Slice.create array elem offset size cap) h
      (Combines P B h₀ ρ h q (n + 1) O) :=
  (Combines.allocate g q).bind fun _ _ combines => combines.setField.bind fun _ _ combines =>
  combines.setField.bind
    fun _ _ combines => combines.setField.bind fun _ _ combines =>
    (combines.setChild ha).bind fun _ _ combines =>
      (combines.setChild he).bind fun _ _ combines => .pure combines

theorem Variable.create_raises (ht : Old h₀ type) (hv : Old h₀ value) :
    Raises P B h₀ (Variable.create type value) := fun q g =>
  (create_joins (q := q - 1) g (ht.refers g) (hv.refers g)).mono fun _ _ combines =>
  combines.done (sub_one_lt q)

theorem Slice.create_raises {offset size cap : Nat} (ha : Old h₀ array) (he : Old h₀ elem) :
    Raises P B h₀ (Slice.create array elem offset size cap) := fun q g =>
  (create_joins (q := q - 1) g (ha.refers g) (he.refers g)).mono fun _ _ combines =>
  combines.done (sub_one_lt q)

theorem Env.create_raises (hf : Old h₀ frame) (hs : Old h₀ structs) :
    Raises P B h₀ (Env.create frame structs) :=
  fun q g => (Site.allocate g (q - 1)).bind fun _ _ site => (site.setChild hf).bind fun _ _ site =>
    (site.setChild hs).bind fun _ _ site => .pure (site.done (sub_one_lt q))

theorem Thread.create_raises (hf : Old h₀ frame) (hs : Old h₀ structs) :
    Raises P B h₀ (Thread.create id frame structs) := by
  intro ρ n O h q g
  refine (Site.allocate g (q - 1)).bind fun t h₁ site => ?_
  refine (Restores.orRelease (Q := fun _ => Site P B h₀ ρ h (q - 1) (n + 1) O t) ?_).bind
    fun _ h₂ site => .pure (site.done (sub_one_lt q))
  refine site.setField.bind fun _ h₂ site => ?_
  refine (site.make allocate_raises).bind fun _ h₃ held => ?_
  refine held.put.bind fun _ h₄ site => ?_
  refine (site.make allocate_raises).bind fun _ h₅ held => ?_
  refine held.put.bind fun _ h₆ site => ?_
  exact (site.make (Env.create_raises hf hs)).bind fun _ h₇ held => held.put

theorem Channel.create_raises {cap : Int} (he : Old h₀ elem) :
    Raises P B h₀ (Channel.create elem cap) := by
  intro ρ n O h q g
  refine .guard g fun _ => (Site.allocate g (q - 1)).bind fun ch h₁ site => ?_
  refine (Restores.orRelease (Q := fun _ => Site P B h₀ ρ h (q - 1) (n + 1) O ch) ?_).bind
    fun _ h₂ site => .pure (site.done (sub_one_lt q))
  refine site.setField.bind fun _ h₂ site => ?_
  refine (site.forIn fun i _ h₃ site => ?_).bind fun _ h₃ site => site.setChild he
  exact (site.make allocate_raises).bind fun _ h₄ held => held.put.bind fun _ h₅ site =>
    .pure ⟨rfl, site⟩

/-- The elements of an array are made in turn. -/
theorem ArrayValue.build_raises {size : Nat} {make : Nat → Action Address}
    (raises : ∀ i, Raises P B h₀ (make i)) :
    Raises P B h₀ (ArrayValue.build size make) := by
  intro ρ n O h q g
  refine (Site.allocate g (q - 1)).bind fun arr h₁ site => ?_
  refine (site.forIn fun i _ h₂ site => ?_).bind fun _ h₂ site => .pure (site.done (sub_one_lt q))
  refine (Restores.orRelease (site.make (raises i))).bind fun var h₃ held => ?_
  exact held.put.bind fun _ h₄ site => .pure ⟨rfl, site⟩

theorem ArrayValue.ofValues_raises {values : List Address} (he : Old h₀ elem)
    (hv : ∀ a ∈ values, Old h₀ a) :
    Raises P B h₀ (ArrayValue.ofValues elem values) := by
  refine build_raises fun i => Variable.create_raises he ?_
  rw [Array.getD_eq_getD_getElem?, List.getElem?_toArray]
  cases found : values[i]? with
  | none => exact .inl rfl
  | some v => exact hv v (List.mem_of_getElem? found)

/-- A variable of a value that was made for it. -/
theorem Variable.of_raises {make : Action Address} (raises : Raises P B h₀ make)
    (ht : Old h₀ type) :
    Raises P B h₀ (do Variable.createOwned type (← make)) := by
  intro ρ n O h q g
  refine (raises (q - 1) g).bind fun value h₁ ⟨ρ₁, under, above, g₁⟩ => ?_
  have value_refers := g₁.refers (Multiset.mem_cons_self ..) under
  refine Restores.releasing (Variable.create_joins g₁ (ht.refers g₁) value_refers) ?_
  rintro var h₂ combines
  refine (combines.drops value_refers).mono fun _ h₃ combines => ?_
  obtain ⟨ρ', under', above', g'⟩ := combines.done (sub_one_lt q)
  exact ⟨ρ', under', (above.mono (sub_one_lt q).le).trans above', g'⟩

/-- A binding comes to a frame that is being built. -/
theorem Frame.insert_raises (g : Raised P B h₀ ρ (n + 1) O h) (dead : h₀.isLive frame = false)
    (hk : Refers h₀ ρ h (ρ frame) key) (hv : Refers h₀ ρ h (ρ frame) value) :
    Restores P B h₀ (n + 1) O (Frame.insert frame key value) h fun _ h' =>
    ∃ ρ', (∀ b, h.isLive b → ρ' b = ρ b) ∧
      Above (ρ frame) ρ h ρ' h' ∧ Raised P B h₀ ρ' (n + 1) O h' := by
  refine .read g fun first asked => ?_
  have live : h.isLive frame := by
    obtain ⟨c, hc, -⟩ := g.sound.child_ok.1 (ofHeap_ok.1 asked)
    exact (Heap.cell?_eq_some.1 hc).1
  obtain ⟨r, lt, key_refers, value_refers, first_refers⟩ :=
    hk.between hv (g.child_refers dead asked)
  refine (Entry.create_joins g key_refers value_refers first_refers).bind
    fun entry h₁ ⟨new, _, ρ₁, rank, same, above, g₁⟩ => ?_
  have here := same frame live
  refine .lawful .setChildOwned (Yields.heap ((g₁.setChildOwned dead (.inr (.inr ?_))).mono
    fun _ h₂ ⟨g₂, above', _⟩ => ⟨ρ₁, same, ?_, g₂⟩))
  · rwa [rank, here]
  · exact (above.mono lt.le).trans (here ▸ above')

/-! ## Struct types and zero values -/

/-- What stands in old records is old. -/
theorem Old.child (g : Raised P B h₀ ρ n O h) (old : Old h₀ a)
    (asked : Query.child a t i h = .ok b) : Old h₀ b := by
  obtain ⟨c, hc, -, hb⟩ := g.sound.child_ok.1 (ofHeap_ok.1 asked)
  exact g.old_child (old.resolve_left (g.sound.ne_nil (Heap.cell?_eq_some.1 hc).1)) hc
    (List.mem_of_getElem? hb)

theorem Old.children {l : List Address} (g : Raised P B h₀ ρ n O h) (old : Old h₀ a)
    (asked : Query.children a h = .ok l) : ∀ b ∈ l, Old h₀ b := by
  rcases g.sound.children_ok.1 (ofHeap_ok.1 asked) with ⟨-, rfl⟩ | ⟨c, hc, rfl⟩
  · simp
  · exact fun b hb => g.old_child
      (old.resolve_left (g.sound.ne_nil (Heap.cell?_eq_some.1 hc).1)) hc hb

theorem Text.concat_raises (ha : Old h₀ a) (hb : Old h₀ b) : Raises P B h₀ (Text.concat a b) := by
  intro ρ n O h q g
  refine .read g fun _ _ => .read g fun _ _ => .read g fun l asked => .read g fun l' asked' => ?_
  exact ofRunes_raises (fun c hc => (List.mem_append.1 hc).elim (ha.children g asked c)
    (hb.children g asked' c)) q g

theorem Text.substring_raises {low high : Int} (ha : Old h₀ a) :
    Raises P B h₀ (Text.substring a low high) := by
  intro ρ n O h q g
  refine .read g fun size _ => .guard g fun _ => .guard g fun _ => .read g fun l asked => ?_
  exact ofRunes_raises
    (fun c hc => ha.children g asked c (List.mem_of_mem_take (List.mem_of_mem_drop hc))) q g

theorem Old.elemType (g : Raised P B h₀ ρ n O h) (old : Old h₀ type)
    (asked : TypeDesc.elem type h = .ok a) :
    Old h₀ a := by
  obtain ⟨tag, -, asked⟩ := query_bind_ok.1 asked
  cases tag <;> first | exact old.child g asked | cases asked

theorem Old.entries (g : Raised P B h₀ ρ n O h) : ∀ {m a l}, Old h₀ a → Entry.take m a h = .ok l →
    ∀ p ∈ l, Old h₀ p.1 ∧ Old h₀ p.2
  | 0, _, _, _, asked => by
    cases asked
    simp
  | m + 1, a, l, old, asked => by
    unfold Entry.take at asked
    split_ifs at asked
    · cases asked
      simp
    obtain ⟨key, key_asked, asked⟩ := query_bind_ok.1 asked
    obtain ⟨value, value_asked, asked⟩ := query_bind_ok.1 asked
    obtain ⟨next, next_asked, asked⟩ := query_bind_ok.1 asked
    obtain ⟨rest, rest_asked, asked⟩ := query_bind_ok.1 asked
    obtain rfl := query_pure_ok.1 asked
    intro p hp
    rcases List.mem_cons.1 hp with rfl | hp
    · exact ⟨old.child g key_asked, old.child g value_asked⟩
    · exact Old.entries g (old.child g next_asked) rest_asked p hp

theorem Old.members {l : List (Address × Address)} (g : Raised P B h₀ ρ n O h) (old : Old h₀ decl)
    (asked : TypeDesc.members decl h = .ok l) : ∀ p ∈ l, Old h₀ p.1 ∧ Old h₀ p.2 := by
  obtain ⟨first, first_asked, asked⟩ := query_bind_ok.1 asked
  obtain ⟨heap, -, asked⟩ := query_bind_ok.1 asked
  exact Old.entries g (old.child g first_asked) asked

theorem Old.find {matching : Address → Query Bool} (g : Raised P B h₀ ρ n O h) : ∀ {m a}, Old h₀ a →
    Entry.find? matching m a h = .ok (some b) → Old h₀ b
  | 0, _, _, asked => by cases asked
  | m + 1, a, old, asked => by
    unfold Entry.find? at asked
    split_ifs at asked
    · cases asked
    obtain ⟨key, key_asked, asked⟩ := query_bind_ok.1 asked
    obtain ⟨found, -, asked⟩ := query_bind_ok.1 asked
    split at asked
    · obtain ⟨value, value_asked, asked⟩ := query_bind_ok.1 asked
      cases query_pure_ok.1 asked
      exact old.child g value_asked
    · obtain ⟨next, next_asked, asked⟩ := query_bind_ok.1 asked
      exact Old.find g (old.child g next_asked) asked

theorem Old.findAmong {matching : Address → Query Bool} (g : Raised P B h₀ ρ n O h) : ∀ {m a},
    Old h₀ a →
    Frame.findAmong? matching m a h = .ok (some b) → Old h₀ b
  | 0, _, _, asked => by cases asked
  | m + 1, a, old, asked => by
    unfold Frame.findAmong? at asked
    split_ifs at asked
    · cases asked
    obtain ⟨found, found_asked, asked⟩ := query_bind_ok.1 asked
    cases found with
    | some value =>
      cases query_pure_ok.1 asked
      obtain ⟨first, first_asked, found_asked⟩ := query_bind_ok.1 found_asked
      obtain ⟨heap, -, found_asked⟩ := query_bind_ok.1 found_asked
      exact Old.find g (old.child g first_asked) found_asked
    | none =>
      obtain ⟨parent, parent_asked, asked⟩ := query_bind_ok.1 asked
      exact Old.findAmong g (old.child g parent_asked) asked

theorem Old.resolve (g : Raised P B h₀ ρ n O h) (old : Old h₀ structs)
    (asked : TypeDesc.resolve structs type h = .ok decl) : Old h₀ decl := by
  obtain ⟨name, -, asked⟩ := query_bind_ok.1 asked
  obtain ⟨found, found_asked, asked⟩ := query_bind_ok.1 asked
  cases found with
  | none => cases asked
  | some d =>
    cases query_pure_ok.1 asked
    obtain ⟨heap, -, found_asked⟩ := query_bind_ok.1 found_asked
    exact Old.findAmong g old found_asked

/-- A struct that is being built, with the frame of its members. -/
structure Members (P B : Multiset Address) (h₀ : Heap) (ρ : Address → ℚ) (h : Heap) (q : ℚ)
    (n : Nat)
    (O : Multiset Address) (s frame : Address) (h' : Heap) : Prop where
  fresh : h₀.isLive s = false
  some : s ≠ .nil
  dead : h₀.isLive frame = false
  live : h'.isLive frame
  raised : ∃ ρ', ρ' s = q ∧ ρ' frame = q - 1 ∧ Above q ρ h ρ' h' ∧ Raised P B h₀ ρ' n (s ::ₘ O) h'

/-- A new frame for the members of a struct. -/
theorem Site.makeFrame (site : Site P B h₀ ρ h q (n + 1) O s h') :
    Restores P B h₀ (n + 1) (s ::ₘ O) (Frame.create .nil) h' fun frame h₁ =>
    h₀.isLive frame = false ∧
      frame ≠ .nil ∧ ∃ ρ', ρ' s = q ∧ ρ' frame = q - 1 ∧ Above q ρ h ρ' h₁ ∧
        Raised P B h₀ ρ' (n + 1) (frame ::ₘ s ::ₘ O) h₁ := by
  obtain ⟨-, there, ρ₁, rank, above, g⟩ := site
  refine (Frame.create_joins (q := q - 1) g).mono
    fun frame h₁ ⟨dead, frame_some, ρ₂, rank', same, above', g'⟩ => ?_
  refine ⟨dead, frame_some, ρ₂,
    (same s (g.isLive_of_mem (Multiset.mem_cons_self ..) there)).trans rank, rank', ?_, g'⟩
  exact above.trans (above'.mono (sub_one_lt q).le)

/-- The frame comes to the struct. -/
theorem Members.start {frame : Address} (fresh : h₀.isLive s = false) (there : s ≠ .nil)
    (framed : h₀.isLive frame = false ∧ frame ≠ .nil ∧ ∃ ρ', ρ' s = q ∧ ρ' frame = q - 1 ∧
    Above q ρ h ρ' h' ∧
      Raised P B h₀ ρ' (n + 1) (frame ::ₘ s ::ₘ O) h') :
    Restores P B h₀ (n + 1) (s ::ₘ O) (liftM (HeapM.setChildOwned s .struct 0 frame)) h'
      fun _ => Members P B h₀ ρ h q (n + 1) O s frame := by
  obtain ⟨dead, frame_some, ρ', rank, rank', above, g⟩ := framed
  have under : Under h₀ ρ' (ρ' s) frame := .inr (.inr (by rw [rank', rank]; exact sub_one_lt q))
  refine .lawful .setChildOwned
    (Yields.heap ((g.setChildOwned fresh under).mono fun _ h₁ ⟨g', above', here⟩ => ?_))
  exact ⟨fresh, there, dead, here.resolve_left frame_some, ρ', rank, rank',
    above.trans (rank ▸ above'), g'⟩

/-- A variable that was made comes to the frame of the members. -/
theorem Members.insert {name : Address} (members : Members P B h₀ ρ h q (n + 1) O s frame h')
    (hk : Old h₀ name) {make : Action Address} (raises : Raises P B h₀ make) :
    Restores P B h₀ (n + 1) (s ::ₘ O)
      (do
        let var ← make
        Action.releasing var (Frame.insert frame name var)
        pure (ForInStep.yield PUnit.unit)) h'
      fun r h'' => r = .yield ⟨⟩ ∧ Members P B h₀ ρ h q (n + 1) O s frame h'' := by
  obtain ⟨fresh, there, dead, live, ρ₁, rank, rank', above, g⟩ := members
  have s_live := g.isLive_of_mem (Multiset.mem_cons_self ..) there
  refine (raises (q - 1) g).bind fun var h₂ ⟨ρ₂, under, above₂, g₂⟩ => ?_
  obtain ⟨live₂, frame₂⟩ := above₂ frame live rank'.ge
  obtain ⟨s_live₂, s₂⟩ := above₂ s s_live (rank ▸ (sub_one_lt q).le)
  have rank₂ : ρ₂ frame = q - 1 := frame₂.trans rank'
  have var_refers : Refers h₀ ρ₂ h₂ (ρ₂ frame) var :=
    g₂.refers (Multiset.mem_cons_self ..) (rank₂ ▸ under)
  suffices put : Restores P B h₀ (n + 1) (s ::ₘ O)
    (Action.releasing var (Frame.insert frame name var)) h₂
      fun _ => Members P B h₀ ρ h q (n + 1) O s frame from put.bind fun _ h₃ members =>
      .pure ⟨rfl, members⟩
  refine Restores.releasing (Frame.insert_raises g₂ dead (hk.refers g₂) var_refers) ?_
  rintro _ h₃ ⟨ρ₃, same, above₃, g₃⟩
  have under₃ : Under h₀ ρ₃ (q - 1) var := under.congr fun _ there =>
    same var (var_refers.2.resolve_left there)
  rw [rank₂] at above₃
  have kept := above₂.trans above₃
  refine g₃.free.mono fun _ h₄ ⟨g₄, above₄⟩ => ?_
  have kept := kept.trans (above₄ _ under₃)
  obtain ⟨live₄, frame₄⟩ := kept frame live rank'.ge
  obtain ⟨-, s₄⟩ := kept s s_live (rank ▸ (sub_one_lt q).le)
  exact ⟨fresh, there, dead, live₄, ρ₃, s₄.trans rank, frame₄.trans rank',
    above.trans (kept.mono (sub_one_lt q).le), g₄⟩

/-- The members of a struct come to its frame one after another. -/
theorem StructValue.build_raises {make : Address → Action Address} (raises : ∀ a, Old h₀ a →
    Raises P B h₀ (make a))
    (hd : Old h₀ decl) : Raises P B h₀ (StructValue.build make decl) := by
  intro ρ n O h q g
  refine (Site.allocate g (q - 1)).bind fun s h₁ site => ?_
  refine (Restores.orRelease (Q := fun _ => Site P B h₀ ρ h (q - 1) (n + 1) O s) ?_).bind
    fun _ h₂ site => .pure (site.done (sub_one_lt q))
  refine (site.setChild hd).bind fun _ h₂ site => ?_
  refine site.makeFrame.bind fun frame h₃ framed => ?_
  refine (Members.start site.fresh site.some framed).bind fun _ h₄ members => ?_
  obtain ⟨_, _, _, _, ρ₄, -, -, -, g₄⟩ := id members
  refine .read g₄ fun l asked => ?_
  have old := hd.members g₄ asked
  exact (Restores.forIn (I := fun _ => Members P B h₀ ρ h (q - 1) (n + 1) O s frame) members
    fun p _ h₅ hp members => members.insert (old p hp).1 (raises _ (old p hp).2)).bind
      fun _ h₅ ⟨fresh, there, _, _, ρ', rank, _, above, g₅⟩ =>
      .pure ⟨fresh, there, ρ', rank, above, g₅⟩

theorem zeroValueTo_raises (hs : Old h₀ structs) :
    ∀ {depth : Nat} {type : Address}, Old h₀ type → Raises P B h₀ (zeroValueTo depth structs type)
  | 0, type, ht, ρ, n, O, h, q, g => Ends.get (Restores.throw g)
  | depth + 1, type, ht, ρ, n, O, h, q, g => by
    have member : ∀ a, Old h₀ a →
      Raises P B h₀ (do Variable.createOwned a (← zeroValueTo depth structs a)) :=
      fun a ha => Variable.of_raises (zeroValueTo_raises hs ha) ha
    have nilBuilt : Restores P B h₀ (n + 1) O (pure .nil : Action Address) h fun a h' =>
      ∃ ρ', Under h₀ ρ' q a ∧
        Above q ρ h ρ' h' ∧ Raised P B h₀ ρ' (n + 1) (a ::ₘ O) h' :=
      .pure ⟨ρ, .inl rfl, .refl, Raised.cons_nil.2 g⟩
    unfold zeroValueTo
    refine .read g fun tag _ => ?_
    cases tag
    case typeBool => exact Scalar.new_raises q g
    case typeInt32 => exact Scalar.new_raises q g
    case typeFloat32 => exact Scalar.new_raises q g
    case typeRune => exact Scalar.new_raises q g
    case typeString => exact Text.create_raises q g
    case typeArray =>
      refine .read g fun elem asked => .read g fun size _ => ?_
      exact ArrayValue.build_raises (fun _ => member elem (ht.elemType g asked)) q g
    case typeSlice =>
      exact .read g fun elem asked => Slice.create_raises (.inl rfl) (ht.elemType g asked) q g
    case typeStruct =>
      exact .read g fun decl asked => StructValue.build_raises member (hs.resolve g asked) q g
    case typeStructDecl => exact StructValue.build_raises member ht q g
    case typeMutex => exact LockKind.create_raises q g
    case typeWaitGroup => exact LockKind.create_raises q g
    all_goals first | exact nilBuilt | exact .throw g

theorem zeroValue_raises (hs : Old h₀ structs) (ht : Old h₀ type) :
    Raises P B h₀ (zeroValue structs type) :=
  fun q g => Ends.get (zeroValueTo_raises hs ht q g)

theorem zeroVariable_raises (hs : Old h₀ structs) (ht : Old h₀ type) :
    Raises P B h₀ (zeroVariable structs type) :=
  Variable.of_raises (zeroValue_raises hs ht) ht

theorem ArrayValue.zeroed_raises {size : Nat} (hs : Old h₀ structs) (he : Old h₀ elem) :
    Raises P B h₀ (ArrayValue.zeroed structs elem size) := build_raises fun _ =>
    zeroVariable_raises hs he

theorem StructValue.zeroed_raises (hs : Old h₀ structs) (hd : Old h₀ decl) :
    Raises P B h₀ (StructValue.zeroed structs decl) :=
    build_raises (fun _ ht => zeroVariable_raises hs ht) hd

theorem Slice.make_raises {size cap : Int} (hs : Old h₀ structs) (he : Old h₀ elem) :
    Raises P B h₀ (Slice.make structs elem size cap) := by
  intro ρ n O h q g
  refine .guard g fun _ => .guard g fun _ => ?_
  refine (ArrayValue.zeroed_raises hs he (q - 1) g).bind fun array h₁ ⟨ρ₁, under, above, g₁⟩ => ?_
  have refers := g₁.refers (Multiset.mem_cons_self ..) under
  refine Restores.releasing (Slice.create_joins g₁ refers (he.refers g₁)) fun s h₂ combines => ?_
  refine (combines.drops refers).mono fun _ h₃ combines => ?_
  obtain ⟨ρ', under', above', g'⟩ := combines.done (sub_one_lt q)
  exact ⟨ρ', under', (above.mono (sub_one_lt q).le).trans above', g'⟩

/-- A member comes to a declaration that is being built. -/
theorem TypeDesc.addMember_raises {member : String} (site : Site P B h₀ ρ h q (n + 1) O decl h')
    (ht : Old h₀ type) :
    Restores P B h₀ (n + 1) (decl ::ₘ O) (addMember decl member type) h'
      fun _ => Site P B h₀ ρ h q (n + 1) O decl := by
  refine (site.make Text.create_raises).bind fun key h₁ ⟨dead, hn, ρ₁, rank, under, above, g₁⟩ => ?_
  have key_refers := g₁.refers (Multiset.mem_cons_self ..) under
  refine (Restores.lawful (Q := fun first h₂ => Refers h₀ ρ₁ h₁ q first ∧ h₂ = h₁) .child
    (Yields.query fun first asked => ⟨rank ▸ g₁.child_refers dead asked, rfl⟩)).bind ?_
  rintro first _ ⟨first_refers, rfl⟩
  obtain ⟨r, lt, hk, ht, hf⟩ := key_refers.between (ht.refers g₁) first_refers
  refine (Restores.releasing (Entry.create_joins g₁ hk ht hf) fun link h₂ combines =>
    combines.drops hk).bind
    fun link h₂ ⟨_, _, ρ₂, rank₂, _, above₂, g₂⟩ => ?_
  have here := (above₂ decl (g₁.isLive_of_mem (by simp) hn) (rank.symm ▸ lt.le)).2
  exact Holding.put ⟨dead, hn, ρ₂, here.trans rank, .inr (.inr (rank₂ ▸ lt)),
    above.trans (above₂.mono lt.le), g₂⟩

theorem TypeDesc.declare_raises {name : String} {members : List (String × Address)}
    (ht : ∀ m ∈ members, Old h₀ m.2) : Raises P B h₀ (TypeDesc.declare name members) := by
  intro ρ n O h q g
  refine (Site.allocate g (q - 1)).bind fun decl h₁ site => ?_
  refine (Restores.orRelease (Q := fun _ => Site P B h₀ ρ h (q - 1) (n + 1) O decl) ?_).bind
    fun _ h₂ site => .pure (site.done (sub_one_lt q))
  refine (site.make Text.create_raises).bind fun key h₂ held => ?_
  refine held.put.bind fun _ h₃ site => ?_
  refine (site.forIn fun m hm h₄ site => ?_).bind fun _ h₄ site => .pure site
  exact (addMember_raises site (ht m (List.mem_reverse.1 hm))).bind fun _ h₅ site =>
    .pure ⟨rfl, site⟩

/-! ## What is put into containers -/

/-- A binding comes to an old frame, or nothing is left of it. -/
theorem Frame.insertText_restores {name : String} (g : Raised P B h₀ ρ (n + 1) O h)
    (hf : Old h₀ frame)
    (hv : Old h₀ value) : Restores P B h₀ (n + 1) O (Frame.insertText frame name value) h fun _ _ =>
    True := by
  refine (Text.create_raises 0 g).bind fun key h₁ ⟨ρ₁, under, above, g₁⟩ => ?_
  refine Restores.releasing (Q := fun _ h' => Heap.Owns P (n + 1) (key ::ₘ (O + B)) h') ?_
    fun _ h₂ own => own.frees.mono fun _ _ _ => trivial
  have key_refers := g₁.refers (Multiset.mem_cons_self ..) under
  refine .read g₁ fun first asked => ?_
  refine (Entry.create_joins g₁ key_refers (hv.refers g₁) ((hf.child g₁ asked).refers g₁)).bind
    fun entry h₂ ⟨_, _, ρ₂, _, _, _, g₂⟩ => ?_
  have own := g₂.owns
  rw [Multiset.cons_add, Multiset.cons_add] at own
  exact .lawful .setChildOwned (Yields.heap own.setChildOwned.yields)

/-- A link of a chain, or nothing is left of it. -/
theorem Chain.createOwned_restores (g : Raised P B h₀ ρ n (value ::ₘ O) h) :
    Restores P B h₀ n O (Chain.createOwned value next) h fun _ _ => True := by
  refine (Restores.orRelease ((Restores.allocate g 0).mono fun _ _ _ => trivial)).bind
    fun node h₁ _ => ?_
  exact .lawful (.bind .setChildOwned fun _ => .bind .setChild fun _ => fun _ _ _ run => by
    cases run) fun _ _ _ => trivial

theorem Queue.enqueue_restores {queue : Address} (g : Raised P B h₀ ρ (n + 1) O h) :
    Restores P B h₀ n O (Queue.enqueue queue value) h fun _ _ => True := by
  refine (Restores.lawful .reference (Yields.heap g.reference)).bind fun _ h₁ ⟨_, g₁, _⟩ => ?_
  refine (Chain.createOwned_restores g₁).bind fun node h₂ _ => .lawful ?_ fun _ _ _ => trivial
  refine .bind .child fun back => ?_
  extract_lets rest
  have rest_lawful : Lawful (rest ⟨⟩) :=
    .bind .setChildOwned fun _ => .bind .field fun _ => .setField
  split
  · exact .bind .setChild fun _ => rest_lawful
  · exact .bind .setChild fun _ => rest_lawful

theorem Stack.push_restores {stack : Address} (g : Raised P B h₀ ρ (n + 1) O h) :
    Restores P B h₀ n O (Stack.push stack value) h fun _ _ => True := by
  refine (Restores.lawful .reference (Yields.heap g.reference)).bind fun _ h₁ ⟨_, g₁, _⟩ => ?_
  refine (Restores.lawful (Q := fun _ h₂ => h₂ = h₁) .tag (Yields.query fun _ _ => rfl)).bind
    fun tag h₂ e => ?_
  refine (Restores.lawful (Q := fun _ h₃ => h₃ = h₂) .child (Yields.query fun _ _ => rfl)).bind
    fun top h₃ e' => ?_
  subst e e'
  refine (Chain.createOwned_restores g₁).bind fun node h₄ _ => .lawful ?_ fun _ _ _ => trivial
  exact .bind .setChildOwned fun _ => .bind .field fun _ => .setField

end
end
end GoMachine
