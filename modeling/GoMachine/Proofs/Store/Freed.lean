import GoMachine.Proofs.Store.Hidden
/-!
# Containers that go away

When the last reference to a stack or a queue is dropped, it goes away with all of its links, and
the references to what it stored are dropped, each as often as it was stored. It does not matter in
which order the cascade comes to them: it is as if the container were not there, and its references
were the client's to give up.

* `Stocks.free_container`: this is all that happens.
-/
namespace GoMachine

namespace Heap

variable {P O loose rest : Multiset Address} {n : Nat} {S : Store} {N : Address → List Address}
    {h h₁ h' : Heap}
  {a l q : Address} {links vs next : List Address} {s : Shape} {c : Cell}
  {r : EStateM.Result HeapError Heap Unit}

/-- The records of a heap without some of them. -/
def Records.without (m : Records) (l : List Address) : Records := fun a =>
    if a ∈ l then none else m a

/-- References are dropped in some order, and then others are left to drop. -/
def DropsTo (h : Heap) (loose : Multiset Address) (h₁ : Heap) (rest : Multiset Address) : Prop :=
  ∀ r, Drains h₁ rest r → Drains h loose r

namespace DropsTo

theorem refl : DropsTo h loose h loose := fun _ => id

theorem trans {left : Multiset Address} (k : DropsTo h loose h₁ rest)
    (k' : DropsTo h₁ rest h' left) : DropsTo h loose h' left :=
  fun r d => k r (k' r d)

theorem drop (run : h.dropOne a = .ok next h₁) : DropsTo h (a ::ₘ rest) h₁ (next + rest) :=
    fun _ d => .drop run d

theorem nil : DropsTo h (.nil ::ₘ rest) h rest := fun _ d =>
  have run : h.dropOne .nil = .ok [] h := by rw [dropOne, if_pos (Address.isNil_iff.2 rfl)]
  .drop run (by simpa using d)

end DropsTo

/-- The one reference to a record is dropped. -/
theorem Exact.drops_last (x : Exact P (a ::ₘ O) h) (hc : h.cell? a = some c) (owned : a ∉ O)
    (pinned : a ∉ P)
    (slots : ∀ d D, h.body? d = some D → a ∉ D.children) :
    ∃ h₁, Becomes h a none h₁ ∧ Exact P (c.children + O) h₁ ∧
    ∀ rest, DropsTo h (a ::ₘ rest) h₁ (c.children + rest) := by
  obtain ⟨next, h₁, run, dropped, x₁, -⟩ := x.dropOne
  have slotless : a ∉ h.edges := fun edge => by
    obtain ⟨d, o, hd, mem⟩ := mem_edges.1 edge
    exact slots d o.body (body?_eq_some.2 ⟨o, hd, rfl⟩) mem
  have last : c.count = 1 ∧ c.pins = 0 := by
    refine ⟨UInt64.toNat_inj.1 ?_, UInt16.toNat_inj.1 ?_⟩
    · rw [x.count hc, Multiset.count_add, Multiset.count_cons_self,
        Multiset.count_eq_zero_of_notMem owned,
        Multiset.count_eq_zero_of_notMem slotless]
      rfl
    · rw [x.pins hc, Multiset.count_eq_zero_of_notMem pinned]
      rfl
  cases dropped with
  | nil => exact absurd rfl (x.sound.ne_nil (cell?_eq_some.1 hc).1)
  | lower hc' _ kept _ =>
    obtain rfl := Option.some_inj.1 (hc.symm.trans hc')
    exact absurd last kept
  | release hc' _ _ u =>
    obtain rfl := Option.some_inj.1 (hc.symm.trans hc')
    rw [Multiset.coe_reverse] at x₁
    refine ⟨h₁, u, x₁, fun rest => ?_⟩
    have leaves : DropsTo h (a ::ₘ rest) h₁ ((c.children.reverse : List Address) + rest) :=
      .drop run
    rwa [Multiset.coe_reverse] at leaves

/-- Nobody but a chain has hold of its links. -/
structure Sealed (P O : Multiset Address) (F : Facts) (links vs : List Address) : Prop where
  linked : Linked F links vs
  nodup : links.Nodup
  outer : ∀ l ∈ links, l ∉ O ∧ l ∉ P ∧ l ∉ vs
  slots : ∀ l ∈ links, ∀ d D, F d = some D → l ∈ D.children → d ∈ links

namespace Sealed

variable {F : Facts} {v : Address}

/-- The first link is gone. -/
theorem tail (k : Sealed P O F (l :: links) (v :: vs)) :
    Sealed P O (Function.update F l none) links vs := by
  have nodup := List.nodup_cons.1 k.nodup
  refine ⟨k.linked.2.congr fun b hb => Function.update_of_ne ?_ .., nodup.2, fun b hb =>
    ?_, fun b hb d D hd mem => ?_⟩
  · rintro rfl
    exact nodup.1 hb
  · obtain ⟨owned, pinned, value⟩ := k.outer b (List.mem_cons_of_mem l hb)
    exact ⟨owned, pinned, fun hv => value (List.mem_cons_of_mem v hv)⟩
  · rw [Function.update_apply] at hd
    split_ifs at hd with e
    exact (List.mem_cons.1 (k.slots b (List.mem_cons_of_mem l hb) d D hd mem)).resolve_left e

/-- A chain goes away link by link, and what it stores is left to drop. -/
theorem drains (k : Sealed P O h.body? links vs) (x : Exact P (links.headD .nil ::ₘ (loose + O)) h)
    (out : ∀ l ∈ links, l ∉ loose) : ∃ h₁, h₁.cell? = Records.without h.cell? links ∧
    Exact P (vs + loose + O) h₁ ∧
      DropsTo h (links.headD .nil ::ₘ loose) h₁ (vs + loose) := by
  induction links generalizing h vs loose with
  | nil =>
    obtain rfl : vs = [] := List.length_eq_zero_iff.1 k.linked.length_eq.symm
    refine ⟨h, funext fun b => by simp [Records.without], x.congr fun a ha => ?_, ?_⟩
    · rw [List.headD_nil, Multiset.count_cons_of_ne ha, Multiset.coe_nil, zero_add]
    · simpa using DropsTo.nil
  | cons l links ih =>
    cases vs with
    | nil => exact k.linked.elim
    | cons v vs =>
      rw [List.headD_cons] at x ⊢
      obtain ⟨c, hc, body⟩ := body?_eq_some.1 k.linked.1
      obtain ⟨owned, pinned, value⟩ := k.outer l List.mem_cons_self
      have slots : ∀ d D, h.body? d = some D → l ∉ D.children := fun d D hd mem =>
        k.linked.first_lone k.nodup value (x.sound.ne_nil (cell?_eq_some.1 hc).1)
          (k.slots l List.mem_cons_self d D hd mem) hd mem
      obtain ⟨h₁, u, x₁, leaves₁⟩ := x.drops_last hc (by simp [out l, owned]) pinned slots
      have children : c.children = [v, links.headD .nil] := congrArg Body.children body
      have order (M : Multiset Address) : (c.children : Multiset Address) + M = links.headD
        .nil ::ₘ (v ::ₘ M) := by
        rw [children, ← Multiset.cons_coe, ← Multiset.cons_coe, Multiset.coe_nil, Multiset.cons_add,
          Multiset.cons_add,
          zero_add, Multiset.cons_swap]
      have k₁ : Sealed P O h₁.body? links vs := by
        rw [u.body?_eq]
        exact k.tail
      rw [order, ← Multiset.cons_add] at x₁
      have leaves₁ := leaves₁ loose
      rw [order] at leaves₁
      obtain ⟨h₂, cells, x₂, leaves₂⟩ := ih k₁ x₁ fun b hb => by
        have := (k.outer b (List.mem_cons_of_mem l hb)).2.2
        simp only [List.mem_cons, not_or] at this
        simp [this.1, out b (List.mem_cons_of_mem l hb)]
      have total : (vs : Multiset Address) + v ::ₘ loose = ↑(v :: vs) + loose := by
        rw [Multiset.add_cons, ← Multiset.cons_add, Multiset.cons_coe]
      rw [total] at x₂ leaves₂
      refine ⟨h₂, cells.trans (funext fun b => ?_), x₂, leaves₁.trans leaves₂⟩
      by_cases e : b = l
      · simp [Records.without, e, u.cell?_self]
      · simp [Records.without, e, u.cell?_of_ne e]

end Sealed

/-- The last link of a queue has two references. The one that the queue had is dropped. -/
theorem Exact.drops_back {links vs : List Address}
    (x : Exact P (links.getLastD .nil ::ₘ links.headD .nil ::ₘ O) h)
    (linked : Linked h.body? links vs) : ∃ h₁, h₁.body? = h.body? ∧
      Records.without h₁.cell? links = Records.without h.cell? links ∧
      Exact P (links.headD .nil ::ₘ O) h₁ ∧
      DropsTo h (links.getLastD .nil ::ₘ links.headD .nil ::ₘ 0) h₁ (links.headD .nil ::ₘ 0) := by
  rcases List.eq_nil_or_concat links with e | ⟨us, b, e⟩
  · subst e
    exact ⟨h, rfl, rfl, x.congr fun a ha => by simp [Multiset.count_cons_of_ne ha], .nil⟩
  rw [List.concat_eq_append] at e
  subst e
  rw [List.getLastD_concat] at x ⊢
  obtain ⟨ws, w, -, hb⟩ := linked.last
  obtain ⟨c, hc, -⟩ := body?_eq_some.1 hb
  obtain ⟨next, h₁, run, dropped, x₁, -⟩ := x.dropOne
  cases dropped with
  | nil => exact absurd rfl (x.sound.ne_nil (cell?_eq_some.1 hc).1)
  | lower hc' _ _ u =>
    obtain rfl := Option.some_inj.1 (hc.symm.trans hc')
    refine ⟨h₁, ?_, funext fun a => ?_, by simpa using x₁, by simpa using DropsTo.drop run⟩
    · rw [u.body?_eq, Option.map_some, Cell.body_count, Function.update_eq_self_iff,
        body?_eq_some.2 ⟨c, hc, rfl⟩]
    · by_cases e : a = b
      · simp [Records.without, e]
      · simp [Records.without, u.cell?_of_ne e]
  | release hc' last _ u =>
    -- the link is the first one too, or it stands in the link before
    exfalso
    obtain rfl := Option.some_inj.1 (hc.symm.trans hc')
    have count := x.count hc
    rw [last, Multiset.cons_add, Multiset.count_cons_self, Multiset.count_add] at count
    simp only [UInt64.toNat_one] at count
    cases us with
    | nil =>
      rw [List.nil_append, List.headD_cons, Multiset.count_cons_self] at count
      omega
    | cons d us =>
      obtain ⟨d', -, u', found⟩ := linked.before_last (by simp)
      obtain ⟨o, ho, e⟩ := body?_eq_some.1 found
      have slot : b ∈ o.children := by
        rw [show o.children = [u', b] from congrArg Body.children e]
        simp
      have := Multiset.count_pos.2 (mem_edges.2 ⟨d', o, ho, slot⟩)
      omega

/-- What is left when a container goes away is what is left when, in a heap without it, the
references that it held are dropped. -/
structure Frees (q : Address) (s : Shape) (h h' : Heap) (links : List Address) : Prop where
  laid : Laid h.body? q links s
  nodup : links.Nodup
  gone : ∀ l ∈ q :: links, h'.isLive l = false
  rest : Drops (Records.without h.cell? (q :: links)) s.refs h'.cell?

/-- No record has a container in a slot if none refers to it. -/
theorem Lays.not_referred {F : Facts} {d : Address} {D : Body} (lays : Lays S N F)
    (notNil : q ≠ .nil) (hq : S q = some s) (apart : ∀ a s, S a = some s → q ∉ s.refs)
    (hd : F d = some D) : q ∉ D.children := by
  intro mem
  have nowhere : ∀ {r s}, S r = some s → d = r ∨ d ∈ N r → False := by
    intro r s hr ours
    rcases (lays.laid hr).slots ours hd mem with e | link | ref
    · exact notNil e
    · exact lays.link_ne link hq rfl
    · exact apart r s hr ref
  rcases lays.only hd with here | ⟨r, hr⟩
  · obtain ⟨s, hs⟩ := Option.ne_none_iff_exists'.1 here
    exact nowhere hs (.inl rfl)
  · obtain ⟨s, hs⟩ := Option.ne_none_iff_exists'.1 (lays.inner hr).2
    exact nowhere hs (.inr hr)

theorem Laid.linked {F : Facts} (laid : Laid F q links s) (container : ∀ B, s ≠ .plain B) :
    Linked F links s.refs := by
  cases s with
  | plain B => exact absurd rfl (container B)
  | queue vs | stack t vs => exact laid.2

/-- When a container has gone, nobody but its links has hold of them. -/
theorem Lays.links_sealed {F : Facts} (lays : Lays S N F) (outer : Outer P (q ::ₘ O) S N)
    (dead : F .nil = none) (hq : S q = some s) (container : ∀ B, s ≠ .plain B) :
    Sealed P O (Function.update F q none) (N q) s.refs := by
  refine ⟨?_, lays.nodup q, fun l hl => ⟨fun hO => ?_, fun hP => ?_, fun ref => ?_⟩,
    fun l hl d D hd mem => ?_⟩
  · exact ((lays.laid hq).linked container).congr fun l hl =>
      Function.update_of_ne (lays.link_ne hl hq) ..
  · exact outer l q (.inl (Multiset.mem_cons_of_mem hO)) hl
  · exact outer l q (.inr (.inl hP)) hl
  · exact outer l q (.inr (.inr ⟨q, s, hq, ref⟩)) hl
  · rw [Function.update_apply] at hd
    split_ifs at hd with e
    exact (lays.slots outer dead hl hd mem).resolve_left e

/-- Of the references that a container had to its links, that to the first one is dropped last. -/
theorem Exact.drops_ends {F : Facts} (x : Exact P (c.children + O) h) (body : F q = some c.body)
    (laid : Laid F q links s) (container : ∀ B, s ≠ .plain B)
    (linked : Linked h.body? links s.refs) : ∃ h₁, h₁.body? = h.body? ∧
      Records.without h₁.cell? links = Records.without h.cell? links ∧
      Exact P (links.headD .nil ::ₘ (0 + O)) h₁ ∧
      DropsTo h c.children h₁ (links.headD .nil ::ₘ 0) := by
  rw [zero_add]
  cases s with
  | plain B => exact absurd rfl (container B)
  | stack t vs =>
    have children : c.children = [links.headD .nil] :=
      congrArg Body.children (Option.some_inj.1 (body.symm.trans laid.1))
    rw [children] at x ⊢
    exact ⟨h, rfl, rfl, x, .refl⟩
  | queue vs =>
    have children : c.children = [links.headD .nil, links.getLastD .nil] :=
      congrArg Body.children (Option.some_inj.1 (body.symm.trans laid.1))
    have order : (c.children : Multiset Address) =
        links.getLastD .nil ::ₘ links.headD .nil ::ₘ 0 := by
      rw [children, ← Multiset.cons_coe, ← Multiset.cons_coe, Multiset.coe_nil,
        Multiset.cons_swap]
    rw [order] at x ⊢
    rw [Multiset.cons_add, Multiset.cons_add, zero_add] at x
    exact x.drops_back linked

/-- However a reference is dropped, the records are the same afterwards. -/
theorem Exact.free_drained (x : Exact P (q ::ₘ O) h) (drained : Drains h {q} (.ok () h₁)) :
    ∃ h', HeapM.free q h = .ok () h' ∧ Exact P O h' ∧ h'.cell? = h₁.cell? := by
  obtain ⟨h', run, x', -⟩ := x.free
  have drained' : Drains h {q} (.ok () h') := by
    have drains := drainer_drain [q] h
    dsimp only at drains
    rwa [show h.drain [q] = .ok () h' from run] at drains
  rw [← Multiset.singleton_add] at x
  obtain ⟨_, e, -, -, fell⟩ := x.drains drained
  cases e
  obtain ⟨_, e', -, -, fell'⟩ := x.drains drained'
  cases e'
  exact ⟨h', run, x', fell.cells_eq fell'⟩

/-- The last reference to a container is dropped, and the container goes away. -/
theorem Stocks.free_container (st : Stocks P n (q ::ₘ O) S h) (hq : S q = some s)
    (container : ∀ B, s ≠ .plain B)
    (owned : q ∉ O) (pinned : q ∉ P) (apart : ∀ a s, S a = some s → q ∉ s.refs) :
    Gives (HeapM.free q) h fun _ h' => Exact P O h' ∧ ∃ links, Frees q s h h' links := by
  obtain ⟨N, lays, outer, own⟩ := st
  have x := own.exact
  have dead := x.sound.body?_nil
  have laid := lays.laid hq
  obtain ⟨D, hD⟩ := lays.known hq
  obtain ⟨c, hc, rfl⟩ := body?_eq_some.1 hD
  have notNil : q ≠ .nil := x.sound.ne_nil (cell?_eq_some.1 hc).1
  -- first the container goes, then its references to the links, then these one after the other
  obtain ⟨h₁, u, x₁, leaves₁⟩ :=
    x.drops_last hc owned pinned fun d D hd => lays.not_referred notNil hq apart hd
  have links := lays.links_sealed outer dead hq container
  rw [← show h₁.body? = Function.update h.body? q none from u.body?_eq] at links
  obtain ⟨h₂, body₂, cells₂, x₂, leaves₂⟩ := x₁.drops_ends hD laid container links.linked
  rw [← body₂] at links
  obtain ⟨h₃, cells₃, x₃, leaves₃⟩ := links.drains x₂ (by simp)
  rw [add_zero] at x₃ leaves₃
  have cells : h₃.cell? = Records.without h.cell? (q :: N q) := by
    rw [cells₃, cells₂]
    funext b
    by_cases e : b = q
    · simp [Records.without, e, u.cell?_self]
    · simp [Records.without, e, u.cell?_of_ne e]
  -- what the container stored is dropped in the end
  obtain ⟨h₄, run₄, -⟩ := x₃.drain
  have drained : Drains h {q} (.ok () h₄) := by
    have leaves₁ := leaves₁ 0
    rw [add_zero] at leaves₁
    exact (leaves₁.trans (leaves₂.trans leaves₃)) _ (run₄ ▸ drainer_drain s.refs h₃)
  obtain ⟨h', run, x', same⟩ := x.free_drained drained
  have drops := x₃.sound.drain_drops run₄
  rw [← same, cells] at drops
  refine ⟨(), h', run, x', N q, laid, lays.nodup q, fun l hl => ?_, drops⟩
  by_contra live
  obtain ⟨c', hc'⟩ := Option.isSome_iff_exists.1
    ((isSome_cell? (h := h') (a := l)).trans (by simpa using live))
  obtain ⟨_, here, -⟩ := drops.sameAt l c' hc'
  simp [Records.without, List.mem_cons.1 hl] at here

end Heap
end GoMachine
