import GoMachine.Proofs.Aggregates.Recalls
/-!
# Values made of new records

A function that makes a value makes new records for it and changes no other one. `Grows h₀ x R` says
so of `x`, on any heap that has grown from `h₀`: the new records are its `parts`, none of them
twice, and `R` says what they come to.

* `Gains`: what the records say before and after, and the parts.
* `ArrayValue.build_grows`, `StructValue.build_grows`: arrays and structs of variables that are made
  in turn; `Each` lists these with their parts.
-/
namespace GoMachine

open Heap (Reports Backed)

variable {P O : Multiset Address} {n : Nat} {F F' F₁ : Facts} {h₀ h h' : Heap} {a b e v : Address}
    {D : Body}
  {parts more : Multiset Address}

/-! ## Parts -/

/-- New records come to those that there are, and these say what they said. -/
structure Gains (F F' : Facts) (parts : Multiset Address) : Prop where
  rest : ∀ a ∉ parts, F' a = F a
  nodup : parts.Nodup
  new : ∀ a ∈ parts, F a = none ∧ F' a ≠ none

namespace Gains

theorem sub (k : Gains F F' parts) : F.Sub F' := by
  intro a D ha
  rw [k.rest a, ha]
  intro hp
  rw [(k.new a hp).1] at ha
  cases ha

theorem refl : Gains F F 0 := ⟨fun _ _ => rfl, Multiset.nodup_zero, by simp⟩

theorem trans (k : Gains F F₁ parts) (k' : Gains F₁ F' more) : Gains F F' (parts + more) := by
  refine ⟨fun a ha => ?_, Multiset.nodup_add.2
    ⟨k.nodup, k'.nodup, Multiset.disjoint_left.2 fun ha hb =>
    (k.new _ ha).2 (k'.new _ hb).1⟩, fun a ha => ?_⟩
  · rw [Multiset.mem_add, not_or] at ha
    rw [k'.rest a ha.2, k.rest a ha.1]
  rcases Multiset.mem_add.1 ha with ha | ha
  · obtain ⟨new, noted⟩ := k.new a ha
    obtain ⟨D, hD⟩ := Option.ne_none_iff_exists'.1 noted
    exact ⟨new, by simp [k'.sub hD]⟩
  · obtain ⟨new, noted⟩ := k'.new a ha
    refine ⟨?_, noted⟩
    by_contra known
    obtain ⟨D, hD⟩ := Option.ne_none_iff_exists'.1 known
    rw [k.sub hD] at new
    cases new

/-- One new record. -/
theorem one (new : F a = none) : Gains F (Function.update F a (some D)) {a} := by
  refine ⟨fun b hb => Function.update_of_ne (by simpa using hb) .., Multiset.nodup_singleton a,
    fun b hb => ?_⟩
  obtain rfl := Multiset.mem_singleton.1 hb
  exact ⟨new, by simp⟩

/-- A new record is written. -/
theorem write (k : Gains F F' parts) (ha : a ∈ parts) :
    Gains F (Function.update F' a (some D)) parts := by
  refine ⟨fun b hb => ?_, k.nodup, fun b hb => ⟨(k.new b hb).1, ?_⟩⟩
  · rw [Function.update_of_ne, k.rest b hb]
    rintro rfl
    exact hb ha
  · by_cases e : b = a
    · subst e
      simp
    · rw [Function.update_of_ne e]
      exact (k.new b hb).2

theorem congr (k : Gains F F' parts) (e : parts = more) : Gains F F' more := e ▸ k

/-- The parts stay the same when other records come. -/
theorem same (k : Gains F F' parts) (sub : F'.Sub F₁) (ha : a ∈ parts) : F₁ a = F' a := by
  obtain ⟨D, hD⟩ := Option.ne_none_iff_exists'.1 (k.new a ha).2
  rw [hD, sub hD]

end Gains

/-- What is said of a value depends on its parts only. -/
def OfParts (R : Facts → Address → Multiset Address → Prop) : Prop :=
  ∀ F F' v parts, (∀ a ∈ parts, F' a = F a) → R F v parts → R F' v parts

/-- A new value is made of new records, and `R` says what they come to. -/
def Grows (h₀ : Heap) (x : Action Address) (R : Facts → Address → Multiset Address → Prop) : Prop :=
  ∀ {P n O F h}, Reports P (n + 1) O F h → Facts.Sub h₀.body? F → Yields x h fun v h' =>
    ∃ F' parts, Reports P (n + 1) (v ::ₘ O) F' h' ∧ Gains F F' parts ∧ R F' v parts

/-- Values that were made in turn, each for one of a list, with the parts of all of them. -/
inductive Each {ι : Type} (R : ι → Address → Multiset Address → Prop) :
    List ι → List Address → Multiset Address → Prop
  | nil : Each R [] [] 0
  | cons {i : ι} {v : Address} {is : List ι} {vs : List Address} {p q : Multiset Address} :
    R i v p → Each R is vs q → Each R (i :: is) (v :: vs) (p + q)

namespace Each

variable {ι : Type} {R R' : ι → Address → Multiset Address → Prop} {is : List ι} {vs : List Address}
  {p q : Multiset Address} {i : ι}

theorem length_eq (k : Each R is vs q) : vs.length = is.length := by
  induction k with
  | nil => rfl
  | cons _ _ ih => simp [ih]

theorem snoc (k : Each R is vs q) (last : R i v p) : Each R (is ++ [i]) (vs ++ [v]) (q + p) := by
  induction k with
  | nil => simpa using Each.cons last .nil
  | cons first _ ih =>
    rw [add_assoc]
    exact .cons first ih

theorem mono (k : Each R is vs q) (imp : ∀ i v p, p ≤ q → R i v p → R' i v p) :
    Each R' is vs q := by
  induction k with
  | nil => exact .nil
  | cons first _ ih =>
    exact .cons (imp _ _ _ (Multiset.le_add_right _ _) first)
      (ih fun i v p le => imp i v p (le.trans (Multiset.le_add_left _ _)))

/-- The parts are as they were. -/
theorem still {R : ι → Facts → Address → Multiset Address → Prop} (ofParts : ∀ i, OfParts (R i))
    (k : Each (fun i => R i F) is vs q) (same : ∀ a ∈ q, F' a = F a) :
    Each (fun i => R i F') is vs q :=
  k.mono fun i _ _ le => ofParts i _ _ _ _ fun a ha => same a (Multiset.mem_of_le le ha)

end Each

/-! ## Arrays and variables -/

/-- A new record of which nothing but the fields is set. -/
theorem Scalar.new_reports {t : Tag} {w : UInt64} (g : Reports P n O F h) :
    Yields (new t w) h fun v h' => F v = none ∧
      Reports P n (v ::ₘ O) (Function.update F v (some ⟨t, [w], []⟩)) h' := by
  refine g.allocate.heap.bind fun v h₁ ⟨new, g⟩ => ?_
  refine (g.setField (Function.update_self ..)).heap.bind fun _ h₂ g => .pure ⟨new, ?_⟩
  rwa [Function.update_idem] at g

theorem Variable.create_reports {type value : Address} (g : Reports P (n + 1) O F h) :
    Yields (create type value) h fun var h' => F var = none ∧
      Reports P (n + 1) (var ::ₘ O)
      (Function.update F var (some ⟨.variable, [], [type, value]⟩)) h' := by
  refine g.allocate.heap.bind fun var h₁ ⟨new, g⟩ => ?_
  refine (g.setChild (Function.update_self ..) fun d hd => .inl (by simpa using hd.symm)).heap.bind
    fun _ h₂ g => ?_
  refine (g.setChild (Function.update_self ..) fun d hd => .inl (by simpa using hd.symm)).heap.bind
    fun _ h₃ g => ?_
  rw [Function.update_idem, Function.update_idem] at g
  exact .pure ⟨new, g⟩

theorem Variable.createOwned_reports {type value : Address}
    (g : Reports P (n + 1) (value ::ₘ O) F h) :
    Yields (createOwned type value) h fun var h' => F var = none ∧
      Reports P (n + 1) (var ::ₘ O)
      (Function.update F var (some ⟨.variable, [], [type, value]⟩)) h' := by
  refine Yields.afterwards (create_reports g) fun var h₁ ⟨new, g⟩ => ?_
  refine (g.swap.free (.inr (.inr ⟨var, _, Function.update_self .., by simp⟩))).yields.mono
    fun _ h₂ g => ⟨new, g⟩

/-- The elements of an array that is being built. -/
theorem set_next {vars : List Address} {size : Nat} (lt : vars.length < size) :
    (vars ++ List.replicate (size - vars.length) Address.nil).set vars.length v =
      (vars ++ [v]) ++ List.replicate (size - (vars ++ [v]).length) .nil := by
  obtain ⟨k, hk⟩ := Nat.exists_eq_add_of_lt lt
  obtain rfl : size = vars.length + (k + 1) := by omega
  simp [List.replicate_succ]
  omega

/-- An array of variables that are made in turn. -/
theorem ArrayValue.build_grows {size : Nat} {make : Nat → Action Address}
    {R : Nat → Facts → Address → Multiset Address → Prop} (ofParts : ∀ i, OfParts (R i))
    (grows : ∀ i, Grows h₀ (make i) (R i)) : Grows h₀ (build size make) fun F arr parts =>
      ∃ vars q, F arr = some ⟨.array, [], vars⟩ ∧ Each (fun i => R i F) (List.range size) vars q ∧
        parts = arr ::ₘ q := by
  intro P n O F h g sub
  refine g.allocate.heap.bind fun arr h₁ ⟨new, g⟩ => ?_
  let Inv (rest : List Nat) (h' : Heap) : Prop := ∃ F' done vars q, List.range size = done ++ rest ∧
    Reports P (n + 1) (arr ::ₘ O) F' h' ∧ Gains F F' (arr ::ₘ q) ∧
    F' arr = some ⟨.array, [], vars ++ .replicate (size - vars.length) .nil⟩ ∧
    Each (fun i => R i F') done vars q
  have start : Inv (List.range size) h₁ := by
    refine ⟨_, [], [], 0, by simp, g, ?_, by simp, .nil⟩
    simpa using Gains.one new
  refine (Yields.forIn (I := Inv) start fun i rest h' inv => ?_).bind fun _ h' inv => ?_
  · obtain ⟨F₁, done, vars, q, e, g, gains, harr, each⟩ := inv
    have lt : done.length < size := by
      have := congrArg List.length e
      simp at this
      omega
    have at_i : i = done.length := by
      have := congrArg (·[done.length]?) e
      simpa [lt] using this.symm
    have vlen := each.length_eq
    refine (Yields.orRelease (grows i g (sub.trans gains.sub))).bind
      fun var h₂ ⟨F₂, p, g, gains₂, made⟩ => ?_
    have harr₂ := gains₂.sub harr
    refine (g.setChildOwned harr₂ fun d hd => .inl ?_).heap.bind fun _ h₃ g => .pure ⟨rfl, ?_⟩
    · rw [at_i, ← vlen, List.getElem?_append_right le_rfl, Nat.sub_self] at hd
      exact List.eq_of_mem_replicate (List.mem_of_getElem? hd)
    have both := (gains.trans gains₂).congr (Multiset.cons_add arr q p)
    have notin := (Multiset.nodup_cons.1 both.nodup).1
    have still {a : Address} {o : Option Body} (ha : a ∈ q + p) :
      Function.update F₂ arr o a = F₂ a :=
      Function.update_of_ne (by rintro rfl; exact notin ha) ..
    refine ⟨_, done ++ [i], vars ++ [var], q + p, by
      simp [e], g, both.write (Multiset.mem_cons_self ..), ?_, ?_⟩
    · rw [Function.update_self, at_i, ← vlen, set_next (vlen ▸ lt)]
    · refine Each.snoc (each.still ofParts fun a ha => ?_) (ofParts i _ _ _ _ (fun a ha => ?_) made)
      · rw [still (Multiset.mem_add.2 (.inl ha))]
        exact gains.same gains₂.sub (Multiset.mem_cons_of_mem ha)
      · exact still (Multiset.mem_add.2 (.inr ha))
  · obtain ⟨F₁, done, vars, q, e, g, gains, harr, each⟩ := inv
    rw [List.append_nil] at e
    subst e
    have vlen := each.length_eq
    rw [List.length_range] at vlen
    rw [vlen, Nat.sub_self, List.replicate_zero, List.append_nil] at harr
    exact .pure ⟨F₁, _, g, gains, vars, q, harr, each, rfl⟩

/-! ## Structs -/

/-- The keys and values of a chain of entries, and the entries. -/
inductive Entries (F : Facts) : Address → List (Address × Address) → Multiset Address → Prop
  | nil : Entries F .nil [] 0
  | cons {e key value next : Address} {l : List (Address × Address)} {links : Multiset Address} :
    F e = some ⟨.entry, [], [key, value, next]⟩ → Entries F next l links →
    Entries F e ((key, value) :: l) (e ::ₘ links)

theorem Entries.still {l : List (Address × Address)} {links : Multiset Address}
    (k : Entries F a l links)
    (same : ∀ b ∈ links, F' b = F b) : Entries F' a l links := by
  induction k with
  | nil => exact .nil
  | cons here _ ih =>
    refine .cons ?_ (ih fun b hb => same b (Multiset.mem_cons_of_mem hb))
    rw [same _ (Multiset.mem_cons_self ..), here]

/-- A binding in front of the others of a frame. -/
theorem Frame.insert_reports {frame key value first : Address} {fs : List UInt64} {parent : Address}
    (g : Reports P (n + 1) O F h) (hf : F frame = some ⟨.frame, fs, [parent, first]⟩) :
    Yields (insert frame key value) h fun _ h' => ∃ e, F e = none ∧ Reports P (n + 1) O
      (Function.update (Function.update F e (some ⟨.entry, [], [key, value, first]⟩)) frame
        (some ⟨.frame, fs, [parent, e]⟩)) h' := by
  refine Yields.read fun first' asked => ?_
  obtain rfl : first' = first := by simpa using (g.child hf asked).symm
  refine (Entry.create_reports g).bind fun e h₁ ⟨new, g₁⟩ => ?_
  have ne : frame ≠ e := by
    rintro rfl
    rw [new] at hf
    cases hf
  refine ((g₁.setChildOwned (Heap.known_update hf ne) fun d hd => .inr (.inr ?_)).heap).mono
    fun _ h₂ g₂ => ⟨e, new, g₂⟩
  refine ⟨e, _, Heap.known_update (Function.update_self ..) ne.symm, ?_⟩
  simp at hd
  simp [hd]

/-- A struct with the variables of the members `ms` in its frame, the entries of which are `links`.
-/
structure Bound (decl s frame first : Address) (R : Address → Facts → Address → Multiset Address →
    Prop)
    (ms : List (Address × Address)) (vars : List Address) (links q : Multiset Address)
    (F F' : Facts) : Prop where
  gains : Gains F F' (s ::ₘ frame ::ₘ (links + q))
  record : F' s = some ⟨.struct, [], [frame, decl]⟩
  scope : F' frame = some ⟨.frame, [], [.nil, first]⟩
  entries : Entries F' first ((ms.map Prod.fst).zip vars).reverse links
  each : Each (fun type => R type F') (ms.map Prod.snd) vars q

section

variable {decl s frame first name type var : Address} {R : Address → Facts → Address →
    Multiset Address → Prop}
  {ms : List (Address × Address)} {vars : List Address} {links q p : Multiset Address}

/-- One more member. -/
theorem Bound.add (k : Bound decl s frame first R ms vars links q F F₁)
    (ofParts : ∀ type, OfParts (R type))
    (gains : Gains F₁ F' p) (made : R type F' var p) (new : F' e = none) :
    Bound decl s frame e R (ms ++ [(name, type)]) (vars ++ [var]) (e ::ₘ links) (q + p) F
      (Function.update (Function.update F' e (some ⟨.entry, [], [name, var, first]⟩)) frame
        (some ⟨.frame, [], [.nil, e]⟩)) := by
  have sum : s ::ₘ frame ::ₘ (links + q) + p + {e} = s ::ₘ frame ::ₘ (e ::ₘ links + (q + p)) := by
    simp only [← Multiset.singleton_add]
    abel
  have all := ((k.gains.trans gains).trans
    (Gains.one new (D := ⟨.entry, [], [name, var, first]⟩))).congr sum
  have len := k.each.length_eq
  obtain ⟨sn, fn⟩ : s ∉ frame ::ₘ (e ::ₘ links + (q + p)) ∧ frame ∉ e ::ₘ links + (q + p) :=
    ⟨(Multiset.nodup_cons.1 all.nodup).1,
    (Multiset.nodup_cons.1 (Multiset.nodup_cons.1 all.nodup).2).1⟩
  have known {a : Address} (ha : a ∈ s ::ₘ frame ::ₘ (links + q)) : a ≠ e := by
    rintro rfl
    obtain ⟨D, hD⟩ := Option.ne_none_iff_exists'.1 (k.gains.new a ha).2
    rw [gains.sub hD] at new
    cases new
  have still {a : Address} {o o' : Option Body} (ha : a ∈ links + q) :
      Function.update (Function.update F' e o) frame o' a = F₁ a := by
    rw [Function.update_of_ne, Function.update_of_ne (known (by simp [Multiset.mem_add.1 ha]))]
    · exact k.gains.same gains.sub (by simp [Multiset.mem_add.1 ha])
    · rintro rfl
      exact fn (by rcases Multiset.mem_add.1 ha with ha | ha <;> simp [ha])
  refine ⟨all.write (by simp), ?_, Function.update_self .., ?_, ?_⟩
  · rw [Function.update_of_ne (by rintro rfl; simp at sn), Function.update_of_ne (known (by simp)),
      gains.sub k.record]
  · rw [List.map_append, List.zip_append (by simp [len]), List.reverse_append]
    refine .cons ?_ (k.entries.still fun a ha => still (Multiset.mem_add.2 (.inl ha)))
    rw [Function.update_of_ne (by rintro rfl; simp at fn), Function.update_self]
  · rw [List.map_append]
    refine Each.snoc (k.each.still ofParts fun a ha => still (Multiset.mem_add.2 (.inr ha)))
      (ofParts type _ _ _ _ (fun a ha => ?_) made)
    obtain ⟨-, noted⟩ := gains.new a ha
    rw [Function.update_of_ne (by rintro rfl; simp [ha] at fn), Function.update_of_ne]
    rintro rfl
    exact noted new

/-- A struct of variables that are made in turn, one for each member that its declaration is found
to have. -/
theorem StructValue.build_grows {make : Address → Action Address} {M : List (Address × Address) →
    Prop}
    (asks : ∀ h ms, h.Sound → Facts.Sub h₀.body? h.body? → TypeDesc.members decl h = .ok ms → M ms)
    (ofParts : ∀ type, OfParts (R type)) (grows : ∀ ms, M ms →
    ∀ m ∈ ms, Grows h₀ (make m.2) (R m.2)) :
    Grows h₀ (build make decl) fun F s parts => ∃ frame first ms vars links q,
      F s = some ⟨.struct, [], [frame, decl]⟩ ∧ F frame = some ⟨.frame, [], [.nil, first]⟩ ∧
      M ms ∧ Entries F first ((ms.map Prod.fst).zip vars).reverse links ∧
      Each (fun type => R type F) (ms.map Prod.snd) vars q ∧
      parts = s ::ₘ frame ::ₘ (links + q) := by
  intro P n O F h g sub
  refine g.allocate.heap.bind fun s h₁ ⟨new, g⟩ => ?_
  -- the members in front of the rest have their variables
  let Inv (all : List (Address × Address)) (frame : Address) (rest : List (Address × Address))
    (h' : Heap) : Prop :=
    ∃ F' done first vars links q, all = done ++ rest ∧ Reports P (n + 1) (s ::ₘ O) F' h' ∧
      Bound decl s frame first R done vars links q F F'
  refine (Yields.orRelease (Q := fun _ h' => ∃ frame ms, M ms ∧ Inv ms frame [] h') ?_).bind
    fun _ h' ⟨frame, ms, asked, F', done, first, vars, links, q, e, g, bound⟩ => ?_
  · refine (g.setChild (Function.update_self ..) fun d hd =>
      .inl (by simpa using hd.symm)).heap.bind fun _ h₂ g => ?_
    rw [Function.update_idem] at g
    refine (Frame.create_reports g).bind fun frame h₃ ⟨new', g⟩ => ?_
    have ne : s ≠ frame := by
      rintro rfl
      simp at new'
    refine (g.setChildOwned (Heap.known_update (Function.update_self ..) ne) fun d hd =>
      .inl (by simpa using hd.symm)).heap.bind fun _ h₄ g => ?_
    have begun := ((Gains.one new).trans (Gains.one (D := ⟨.frame, [], [.nil, .nil]⟩) new')).write
      (a := s)
      (D := ⟨.struct, [], [frame, decl]⟩) (by simp)
    refine .read fun ms asked => ?_
    have asked := asks h₄ ms g.sound (g.body ▸ sub.trans begun.sub) asked
    have start : Inv ms frame ms h₄ := by
      refine ⟨_, [], .nil, [], 0, 0, rfl, g, ?_, Function.update_self .., ?_, .nil, .nil⟩
      · exact begun.congr (by simp)
      · rw [Function.update_of_ne ne.symm, Function.update_self]
    refine (Yields.forIn (I := Inv ms frame) start fun m rest h' inv => ?_).bind
      fun _ h' inv => .pure ⟨frame, ms, asked, inv⟩
    obtain ⟨F₁, done, first, vars, links, q, e, g, bound⟩ := inv
    refine (grows ms asked m (e ▸ by simp) g (sub.trans bound.gains.sub)).bind
      fun var h₅ ⟨F₂, p, g, gains, made⟩ => ?_
    refine (Yields.afterwards (Q := fun _ h' => ∃ e, F₂ e = none ∧
      Reports P (n + 1) (var ::ₘ s ::ₘ O)
      (Function.update (Function.update F₂ e (some ⟨.entry, [], [m.1, var, first]⟩)) frame
        (some ⟨.frame, [], [.nil, e]⟩)) h') (Frame.insert_reports g (gains.sub bound.scope))
      (R := fun _ h' => Inv ms frame rest h') ?_).bind fun _ h₆ inv => .pure ⟨rfl, inv⟩
    rintro _ h₆ ⟨link, new_link, g⟩
    have more : Bound decl s frame link R (done ++ [(m.1, m.2)]) .. :=
      bound.add ofParts gains made new_link
    have link_ne : link ≠ frame := by
      rintro rfl
      rw [gains.sub bound.scope] at new_link
      cases new_link
    refine (g.free (.inr
      (.inr ⟨link, _, Heap.known_update (Function.update_self ..) link_ne, by simp⟩))).yields.mono
      fun _ h₇ g => ⟨_, done ++ [m], link, vars ++ [var], link ::ₘ links, q + p, by
        simp [e], g, more⟩
  · rw [List.append_nil] at e
    subst e
    exact .pure ⟨F', _, g, bound.gains, frame, first, _, vars, links, q, bound.record, bound.scope,
      asked, bound.entries,
      bound.each, rfl⟩

end
end GoMachine
