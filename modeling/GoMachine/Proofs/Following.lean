import GoMachine.Proofs.Tasks.Poised
/-!
# Following pointers

What a pointer or a variable leads to is looked for hop by hop, and nothing bounds the hops.
Programs come without a check of their types, so a variable may be set to a pointer to itself. Such
a chain closes, and the hops go round on it; all others come to an end.

* `Pointer.followTo_add`: hops are made one after another.
* `Pointer.ends_or_circles`: no chain has more hops than there are records, or it comes back to one
  of them.
* `Machine.follow_ends_or_circles`: the values that a machine comes to have.
-/
namespace GoMachine

open Heap (Exact)

theorem query_bind_of_ok {α β : Type} {q : Query α} {f : α → Query β} {h : Heap} {a : α}
    (e : q h = .ok a) :
    (q >>= f) h = f a h := by
  simp only [bind, ReaderT.bind, e, Except.bind]

variable {h : Heap} {P O : Multiset Address} {a b : Address} {i j k n : Nat} {t : Tag}

namespace Pointer

/-- A pointer or a variable. -/
def LeadsOn (h : Heap) (a : Address) : Prop :=
  ∃ t, Query.tag a h = .ok t ∧ (t = .pointer ∨ t = .variable)

/-- The hops from `a` come to `b` after `n` of them, which is neither a pointer nor a variable. -/
structure Ends (h : Heap) (a b : Address) (n : Nat) : Prop where
  before : ∀ i < n, ∃ c, followTo i a h = .ok c ∧ LeadsOn h c
  last : ∃ t, Query.tag b h = .ok t ∧ t ≠ .pointer ∧ t ≠ .variable
  there : ∀ i ≥ n, followTo i a h = .ok b

/-- The hops from `a` go on for ever, and after `j` of them they are where they were after `i`. -/
structure Circles (h : Heap) (a : Address) (i j : Nat) : Prop where
  on : ∀ n, ∃ c, followTo n a h = .ok c ∧ LeadsOn h c
  back : followTo j a h = followTo i a h

theorem Ends.not_circles (e : Ends h a b n) : ¬Circles h a i j := by
  intro c
  obtain ⟨d, run, t, tagged, leads⟩ := c.on n
  obtain ⟨t', tagged', no⟩ := e.last
  rw [e.there n le_rfl, Except.ok.injEq] at run
  subst run
  rw [tagged', Except.ok.injEq] at tagged
  subst tagged
  exact leads.elim no.1 no.2

/-! ## Hops -/

theorem followTo_pointer (tagged : Query.tag a h = .ok .pointer)
    (read : Query.child a .pointer 0 h = .ok b) :
    followTo (n + 1) a h = followTo n b h := by
  have target : target a h = .ok b := (query_bind_of_ok tagged).trans read
  rw [followTo, query_bind_of_ok tagged]
  exact query_bind_of_ok target

theorem followTo_variable (tagged : Query.tag a h = .ok .variable)
    (read : Query.child a .variable 1 h = .ok b) :
    followTo (n + 1) a h = followTo n b h := by
  have checked : Variable.check a h = .ok () := by
    rw [Variable.check, Query.require, query_bind_of_ok tagged, if_pos rfl]
    rfl
  have value : Variable.value a h = .ok b := by rw [Variable.value, query_bind_of_ok checked, read]
  rw [followTo, query_bind_of_ok tagged]
  exact query_bind_of_ok value

theorem followTo_other (tagged : Query.tag a h = .ok t) (notPointer : t ≠ .pointer)
    (notVariable : t ≠ .variable) :
    followTo n a h = .ok a := by
  cases n with
  | zero => rfl
  | succ n =>
    rw [followTo, query_bind_of_ok tagged]
    split
    · exact absurd rfl notPointer
    · exact absurd rfl notVariable
    · rfl

/-- What comes after some hops is what they lead to. -/
theorem followTo_add (first : followTo n a h = .ok b) : followTo (n + k) a h = followTo k b h := by
  induction n generalizing a with
  | zero =>
    obtain rfl := query_pure_ok.1 first
    rw [Nat.zero_add]
  | succ n ih =>
    rw [Nat.add_right_comm]
    rw [followTo] at first ⊢
    obtain ⟨t, tagged, first⟩ := query_bind_ok.1 first
    rw [query_bind_of_ok tagged]
    split at first
    · obtain ⟨c, read, first⟩ := query_bind_ok.1 first
      exact (query_bind_of_ok read).trans (ih first)
    · obtain ⟨c, read, first⟩ := query_bind_ok.1 first
      exact (query_bind_of_ok read).trans (ih first)
    · next notPointer notVariable =>
      obtain rfl := query_pure_ok.1 first
      exact (followTo_other tagged notPointer notVariable).symm

section

variable (x : Exact P O h) (shaped : Facts.Shaped h.body?)

include x

/-- A pointer and a variable refer to something, as far as they have the slot for it. -/
theorem child_there (tagged : h.HasTag t a) (slot : i < t.slots) (shaped : Facts.Shaped h.body?) :
    ∃ b, Query.child a t i h = .ok b ∧ (b = .nil ∨ h.isLive b) := by
  obtain ⟨c, hc, rfl⟩ := tagged
  have fits := shaped (Heap.body?_eq_some.2 ⟨c, hc, rfl⟩)
  have inside : i < c.children.length := slot.trans_le fits
  refine ⟨c.children[i],
    ofHeap_ok.2 (x.sound.child_ok.2 ⟨c, hc, rfl, List.getElem?_eq_getElem inside⟩), ?_⟩
  exact x.closed (by simp [Heap.mem_edges.2 ⟨a, c, hc, List.getElem_mem inside⟩])

include shaped

/-- A single hop leads to something that is there, or the value is neither a pointer nor a variable.
-/
theorem hop (live : a = .nil ∨ h.isLive a) : ∃ b, followTo 1 a h = .ok b ∧ (b = .nil ∨ h.isLive b) ∧
    (LeadsOn h a ∨ ∃ t, Query.tag a h = .ok t ∧ t ≠ .pointer ∧ t ≠ .variable) := by
  rcases live with rfl | live
  · have tagged : Query.tag .nil h = .ok .nil := ofHeap_ok.2 (x.sound.tag_ok.2 (.inl ⟨rfl, rfl⟩))
    exact ⟨.nil, followTo_other tagged nofun nofun, .inl rfl, .inr ⟨_, tagged, nofun, nofun⟩⟩
  · have hc := Heap.cell?_eq_some.2 ⟨live, rfl⟩
    have tagged : Query.tag a h = .ok (h.cellAt a).tag :=
      ofHeap_ok.2 (x.sound.tag_ok.2 (.inr ⟨_, hc, rfl⟩))
    have hasTag : h.HasTag (h.cellAt a).tag a := ⟨_, hc, rfl⟩
    generalize (h.cellAt a).tag = t at tagged hasTag
    by_cases isPointer : t = .pointer
    · subst isPointer
      obtain ⟨b, read, there⟩ := child_there x hasTag (i := 0) Nat.one_pos shaped
      exact ⟨b, followTo_pointer tagged read, there, .inl ⟨_, tagged, .inl rfl⟩⟩
    by_cases isVariable : t = .variable
    · subst isVariable
      obtain ⟨b, read, there⟩ := child_there x hasTag (i := 1) Nat.one_lt_two shaped
      exact ⟨b, followTo_variable tagged read, there, .inl ⟨_, tagged, .inr rfl⟩⟩
    · exact ⟨a, followTo_other tagged isPointer isVariable, .inr live,
        .inr ⟨t, tagged, isPointer, isVariable⟩⟩

/-- No hop fails. -/
theorem hops (live : a = .nil ∨ h.isLive a) (n : Nat) :
    ∃ b, followTo n a h = .ok b ∧ (b = .nil ∨ h.isLive b) := by
  induction n with
  | zero => exact ⟨a, rfl, live⟩
  | succ n ih =>
    obtain ⟨b, run, there⟩ := ih
    obtain ⟨c, next, there', -⟩ := hop x shaped there
    exact ⟨c, (followTo_add run).trans next, there'⟩

/-- A chain comes to an end after no more hops than there are records, or it comes back to one of
them. -/
theorem ends_or_circles (live : a = .nil ∨ h.isLive a) :
    (∃ b n, Ends h a b n ∧ n ≤ h.liveCount ∧ n ≤ 2 ^ 31) ∨ ∃ i j, Circles h a i j ∧ i < j ∧
    j ≤ h.liveCount := by
  choose f run there using hops x shaped live
  have onward : ∀ n, LeadsOn h (f n) → h.isLive (f n) := by
    intro n ⟨t, tagged, leads⟩
    refine (there n).resolve_left fun absent => ?_
    rw [absent] at tagged
    rcases x.sound.tag_ok.1 (ofHeap_ok.1 tagged) with ⟨-, rfl⟩ | ⟨c, hc, -⟩
    · exact leads.elim nofun nofun
    · exact x.sound.ne_nil (Heap.cell?_eq_some.1 hc).1 rfl
  -- while the hops lead on to new records, they are no more than these
  have bounded : ∀ n, (∀ i < n, LeadsOn h (f i)) → (∀ i j, i < j → j < n → f i ≠ f j) →
      n ≤ h.liveCount ∧ n ≤ 2 ^ 31 := by
    intro n leads new
    have distinct : ((List.range n).map f).Nodup := by
      refine List.Nodup.map_on (fun i hi j hj same => ?_) List.nodup_range
      rw [List.mem_range] at hi hj
      by_contra ne
      rcases Nat.lt_or_gt_of_ne ne with lt | lt
      · exact new i j lt hj same
      · exact new j i lt hi same.symm
    have few := x.sound.length_le distinct fun b hb => by
      obtain ⟨i, hi, rfl⟩ := List.mem_map.1 hb
      exact onward i (leads i (List.mem_range.1 hi))
    simpa using few
  by_cases always : ∀ n, LeadsOn h (f n)
  · right
    obtain ⟨i, j, lt, le, same⟩ : ∃ i j, i < j ∧ j ≤ h.liveCount ∧ f i = f j := by
      by_contra apart
      push Not at apart
      have := bounded (h.liveCount + 1) (fun i _ => always i) fun i j lt lt' =>
        apart i j lt (by omega)
      omega
    exact ⟨i, j, ⟨fun n => ⟨f n, run n, always n⟩, by rw [run, run, same]⟩, lt, le⟩
  · left
    classical
    have stop : ∃ n, ¬LeadsOn h (f n) := not_forall.1 always
    have before : ∀ i < Nat.find stop, LeadsOn h (f i) := fun i hi =>
      not_not.1 (Nat.find_min stop hi)
    have last : ∃ t, Query.tag (f (Nat.find stop)) h = .ok t ∧ t ≠ .pointer ∧ t ≠ .variable := by
      obtain ⟨_, -, -, kind⟩ := hop x shaped (there (Nat.find stop))
      exact kind.resolve_left (Nat.find_spec stop)
    generalize Nat.find stop = n at before last
    have there : ∀ i ≥ n, followTo i a h = .ok (f n) := by
      intro i hi
      obtain ⟨k, rfl⟩ := Nat.exists_eq_add_of_le hi
      obtain ⟨t, tagged, notPointer, notVariable⟩ := last
      rw [followTo_add (run n), followTo_other tagged notPointer notVariable]
    refine ⟨f n, n, ⟨fun i hi => ⟨f i, run i, before i hi⟩, last, there⟩,
      bounded n before fun i j lt lt' same => ?_⟩
    -- from the same record on the hops are the same, but the later ones are at the end sooner
    have sooner : followTo (i + (n - j)) a h = .ok (f n) := by
      rw [followTo_add (run i), same, ← followTo_add (run j), Nat.add_sub_cancel' lt'.le, run]
    obtain ⟨t, tagged, leads⟩ := before (i + (n - j)) (by omega)
    obtain ⟨t', tagged', notPointer, notVariable⟩ := last
    rw [run, Except.ok.injEq] at sooner
    rw [sooner, tagged', Except.ok.injEq] at tagged
    subst tagged
    exact leads.elim notPointer notVariable

end

/-- A chain that has closed goes round for ever. -/
theorem circles_of_back (pos : 0 < j) (leads : ∀ i < j, ∃ c, followTo i a h = .ok c ∧ LeadsOn h c)
    (back : followTo j a h = .ok a) : Circles h a 0 j := by
  refine ⟨fun n => ?_, back⟩
  induction n using Nat.strong_induction_on with
  | _ n ih =>
    rcases Nat.lt_or_ge n j with lt | le
    · exact leads n lt
    · obtain ⟨k, rfl⟩ := Nat.exists_eq_add_of_le le
      rw [followTo_add back]
      exact ih k (by omega)

end Pointer

theorem Chain.take_mem {vs : List Address} (run : Chain.take n a h = .ok vs) (mem : b ∈ vs) :
    ∃ x, Query.child x .linkedList 0 h = .ok b := by
  induction n generalizing a vs with
  | zero =>
    obtain rfl := query_pure_ok.1 run
    cases mem
  | succ n ih =>
    rw [Chain.take] at run
    split at run
    · obtain rfl := query_pure_ok.1 run
      cases mem
    · obtain ⟨v, read, run⟩ := query_bind_ok.1 run
      obtain ⟨next, -, run⟩ := query_bind_ok.1 run
      obtain ⟨rest, others, run⟩ := query_bind_ok.1 run
      obtain rfl := query_pure_ok.1 run
      rcases List.mem_cons.1 mem with rfl | mem
      · exact ⟨a, read⟩
      · exact ih others mem

namespace Machine

variable {m : Machine}

/-- A value that is on the stash of a thread or in a variable. -/
inductive HasValue (m : Machine) (a : Address) : Prop
  | onStash {u : Address} {vs : List Address} : (Thread.stash u >>= Stack.values) m.heap = .ok vs →
      a ∈ vs →
    HasValue m a
  | inVariable {x : Address} : Variable.value x m.heap = .ok a → HasValue m a

theorem HasValue.there (value : m.HasValue a) (x : Exact P O m.heap) : a = .nil ∨
    m.heap.isLive a := by
  have slot : ∀ {b i t}, Query.child b t i m.heap = .ok a → a = .nil ∨ m.heap.isLive a := by
    intro b i t read
    obtain ⟨c, hc, -, here⟩ := x.sound.child_ok.1 (ofHeap_ok.1 read)
    exact x.closed (by simp [Heap.mem_edges.2 ⟨b, c, hc, List.mem_of_getElem? here⟩])
  cases value with
  | onStash read mem =>
    obtain ⟨s, -, read⟩ := query_bind_ok.1 read
    obtain ⟨t, -, read⟩ := query_bind_ok.1 read
    obtain ⟨top, -, read⟩ := query_bind_ok.1 read
    obtain ⟨h, -, read⟩ := query_bind_ok.1 read
    obtain ⟨link, read⟩ := Chain.take_mem read mem
    exact slot read
  | inVariable read =>
    obtain ⟨-, -, read⟩ := query_bind_ok.1 read
    exact slot read

/-- Following a value leads to one that is neither a pointer nor a variable, after no more hops than
there are records. If it does not, the hops come back to where they were, and go on for ever. -/
theorem follow_ends_or_circles (reached : m.Reached) (value : m.HasValue a) :
    (∃ b n, Pointer.Ends m.heap a b n ∧ n ≤ m.heap.liveCount ∧ Pointer.follow a m.heap = .ok b) ∨
      ∃ i j, Pointer.Circles m.heap a i j ∧ i < j ∧ j ≤ m.heap.liveCount := by
  obtain ⟨σ, g, -⟩ := reached.poised
  have x : Exact 0 m.handles m.heap := reached.accounted
  refine (Pointer.ends_or_circles x g.shaped (value.there x)).imp_left
    fun ⟨b, n, ends, few, small⟩ => ?_
  exact ⟨b, n, ends, few, ends.there _ (small.trans (by norm_num [Pointer.maxHops]))⟩

/-! ## A pointer to itself -/

/-- A pointer is set to point to its own variable, and then a member of what it points to is asked
for. -/
def knotProgram : Program :=
  ⟨[], [.func { name := "main", params := [], result := none, body := [
    .declare "x" .int32 none,
    .declare "p" (.pointer .int32) (some (.addressOf (.name "x"))),
    .assign (.name "p") (.addressOf (.name "p")),
    .expr (.member (.name "p") "x")] }]⟩

/-- The tag of what some hops lead to. -/
def tagAfter (n : Nat) (v : Address) (m : Machine) : Option Tag :=
  ((Pointer.followTo n v >>= Query.tag) m.heap).toOption

/-- The pointer `v` is on the stash before the assignment, when it leads to a number, and again when
a member of it is asked for, when it leads to itself. -/
structure Knot (m₁ m₂ m₃ : Machine) (v : Address) : Prop where
  sets : ∃ n, advance 19 m₁ = .ok (n, true) m₂
  asks : ∃ n, advance 4 m₂ = .ok (n, true) m₃
  target : m₂.HasValue v
  object : m₃.HasValue v
  next : (m₃.tagsOf m₁.mainThread).head? = some .memberI
  ends : tagAfter 4 v m₂ = some .int32
  isPointer : tagAfter 0 v m₃ = some .pointer
  toVariable : tagAfter 1 v m₃ = some .variable
  back : Pointer.followTo 2 v m₃.heap = .ok v

/-- What is seen on the way. -/
def seesKnot (t : Address) (m₂ m₃ : Machine) : Bool :=
  match (Thread.stash t >>= Stack.values) m₂.heap, (Thread.stash t >>= Stack.values) m₃.heap with
  | .ok [_, v], .ok [w] =>
    v.index = w.index ∧ (m₃.tagsOf t).head? = some .memberI ∧ tagAfter 4 v m₂ = some .int32 ∧
    tagAfter 0 v m₃ = some .pointer ∧ tagAfter 1 v m₃ = some .variable ∧
    (Pointer.followTo 2 v m₃.heap).toOption.map Address.index = some v.index
  | _, _ => false

/-- The program is loaded into a new machine and runs until a member of the pointer is to be found.
-/
def knotRun (made : Except Fault Machine) : Bool :=
  match made with
  | .error _ => false
  | .ok m₀ => match load knotProgram m₀ with
    | .error _ _ => false
    | .ok _ m₁ => match advance 19 m₁ with
      | .ok (_, true) m₂ => match advance 4 m₂ with
        | .ok (_, true) m₃ => seesKnot m₁.mainThread m₂ m₃
        | _ => false
      | _ => false

theorem knot_runs {made : Except Fault Machine} (ran : knotRun made) : ∃ m₀ m₁ m₂ m₃ : Machine, ∃ v,
    made = .ok m₀ ∧ load knotProgram m₀ = .ok () m₁ ∧ Knot m₁ m₂ m₃ v := by
  unfold knotRun at ran
  split at ran
  · cases ran
  next m₀ =>
  split at ran
  · cases ran
  next m₁ loaded =>
  split at ran
  case h_2 => cases ran
  next n₂ m₂ sets =>
  split at ran
  case h_2 => cases ran
  next n₃ m₃ asks =>
  unfold seesKnot at ran
  split at ran
  case h_2 => cases ran
  next _ v w before after =>
  obtain ⟨same, next, ends, isPointer, toVariable, back⟩ := of_decide_eq_true ran
  have eq_of_index : ∀ {a b : Address}, a.index = b.index → a = b := fun {a b} e => by
    cases a
    cases b
    cases e
    rfl
  obtain ⟨v', read, returned⟩ := Option.map_eq_some_iff.1 back
  obtain rfl := eq_of_index same
  obtain rfl := eq_of_index returned
  exact ⟨m₀, m₁, m₂, m₃, v', rfl, loaded, ⟨n₂, sets⟩, ⟨n₃, asks⟩, .onStash before (by simp),
    .onStash after (by simp), next, ends, isPointer, toVariable, eq_ok_of_toOption read⟩

theorem knot : ∃ m₀ m₁ m₂ m₃ : Machine, ∃ v, new { heapWords := 1024 } = .ok m₀ ∧
    load knotProgram m₀ = .ok () m₁ ∧ Knot m₁ m₂ m₃ v := by
  have ran : knotRun (new { heapWords := 1024 }) := by decide +kernel
  exact knot_runs ran

theorem leadsOn_of_tagAfter (tagged : tagAfter n a m = some t) (leads : t = .pointer ∨
    t = .variable) :
    ∃ c, Pointer.followTo n a m.heap = .ok c ∧ Pointer.LeadsOn m.heap c := by
  obtain ⟨c, run, tagged⟩ := query_bind_ok.1 (eq_ok_of_toOption tagged)
  exact ⟨c, run, t, tagged, leads⟩

theorem Knot.circles {m₁ m₂ m₃ : Machine} (k : Knot m₁ m₂ m₃ a) :
    Pointer.Circles m₃.heap a 0 2 := by
  refine Pointer.circles_of_back Nat.two_pos (fun i hi => ?_) k.back
  interval_cases i
  · exact leadsOn_of_tagAfter k.isPointer (.inl rfl)
  · exact leadsOn_of_tagAfter k.toVariable (.inr rfl)

theorem Knot.not_circles {m₁ m₂ m₃ : Machine} (k : Knot m₁ m₂ m₃ a) :
    ¬Pointer.Circles m₂.heap a i j := by
  intro c
  obtain ⟨b, run, t, tagged, leads⟩ := c.on 4
  have ends := eq_ok_of_toOption k.ends
  rw [query_bind_of_ok run, tagged, Except.ok.injEq] at ends
  subst ends
  exact leads.elim nofun nofun

/-- When the member is asked for, the hops from the pointer do not come to an end. -/
theorem follow_knot_forever : ∃ m₀ m₁ m₂ m₃ : Machine, ∃ n k v, new { heapWords := 1024 } = .ok m₀ ∧
    load knotProgram m₀ = .ok () m₁ ∧ advance 19 m₁ = .ok (n, true) m₂ ∧
    advance 4 m₂ = .ok (k, true) m₃ ∧
    (m₃.tagsOf m₁.mainThread).head? = some .memberI ∧ m₃.HasValue v ∧
    ∀ hops, ∃ c, Pointer.followTo hops v m₃.heap = .ok c ∧ Pointer.LeadsOn m₃.heap c := by
  obtain ⟨m₀, m₁, m₂, m₃, v, made, loaded, k⟩ := knot
  obtain ⟨n, sets⟩ := k.sets
  obtain ⟨n', asks⟩ := k.asks
  exact ⟨m₀, m₁, m₂, m₃, n, n', v, made, loaded, sets, asks, k.next, k.object, k.circles.on⟩

/-- The pointer leads to a number before its variable is set to it, and then round to itself. -/
theorem follow_before_and_in_knot : ∃ m₀ m₁ m₂ m₃ : Machine, ∃ n k v,
    new { heapWords := 1024 } = .ok m₀ ∧
    load knotProgram m₀ = .ok () m₁ ∧ advance 19 m₁ = .ok (n, true) m₂ ∧
    advance 4 m₂ = .ok (k, true) m₃ ∧
    m₂.HasValue v ∧ m₃.HasValue v ∧
    (∃ b n, Pointer.Ends m₂.heap v b n ∧ n ≤ m₂.heap.liveCount ∧ Pointer.follow v m₂.heap = .ok b) ∧
    ∃ i j, Pointer.Circles m₃.heap v i j ∧ i < j ∧ j ≤ m₃.heap.liveCount := by
  obtain ⟨m₀, m₁, m₂, m₃, v, made, loaded, k⟩ := knot
  obtain ⟨n, sets⟩ := k.sets
  obtain ⟨n', asks⟩ := k.asks
  have reached₂ : m₂.Reached := (Reached.load (.new made) loaded).stepsAfter sets
  have reached₃ : m₃.Reached := reached₂.stepsAfter asks
  refine ⟨m₀, m₁, m₂, m₃, n, n', v, made, loaded, sets, asks, k.target, k.object, ?_, ?_⟩
  · refine (follow_ends_or_circles reached₂ k.target).resolve_right ?_
    rintro ⟨i, j, circles, -⟩
    exact k.not_circles circles
  · refine (follow_ends_or_circles reached₃ k.object).resolve_left ?_
    rintro ⟨b, n, ends, -⟩
    exact ends.not_circles k.circles

end Machine
end GoMachine
