import GoMachine.Proofs.Exchange.Scene
import GoMachine.Proofs.Tasks.Channels
import GoMachine.Select
/-!
# Select

A `select` tries its cases, which wakes others or gives a value. If none is ready, the thread comes
into one waker for all of them, and each of its instances says which body is to run.

* `Known.Contains`: what is below a node that is known.
* `Knows.select`: what comes of a `select`.
-/
namespace GoMachine

/-- A node that is noted, or one below it. -/
inductive Known.Contains (k : Known) : Address → Code → Prop
  | noted {a c} : (a, Role.code c) ∈ k.notes → Contains k a c
  | part {a tag fs ks ps b p} {i : Nat} : Contains k a (.node tag fs ks ps) → ks[i]? = some b →
      ps[i]? = some p →
    p ≠ .data → p ≠ .nothing → (∀ line, p ≠ .scope line) → Contains k b p

namespace Case

def side : Case → Side
  | send .. => .send
  | receive .. => .receive

end Case

variable {ρ : Roles} {k : Known} {σ σ' : Address → Task} {n m : Nat} {O O' : Multiset Address}
  {h h' : Heap} {a b q t v w s inst ch body : Address} {B D E : Body} {y : Wait} {j : Side}
  {r : Role}
  {fs : List UInt64} {cs ks : List Address} {ps : List Code} {i : Nat} {c p : Code} {tag : Tag}

namespace Knows

theorem code (g : Knows k σ n O h) (ha : k.Contains a c) :
    (∀ {ρ}, Sees ρ σ h.body? → k.Noted ρ → ρ a = .code c) ∧ h.body? a ≠ none := by
  induction ha with
  | @noted a c ha =>
    have role : ∀ {ρ}, Sees ρ σ h.body? → k.Noted ρ → ρ a = .code c := fun _ noted => noted _ ha
    refine ⟨role, (g.live (g.kept _ ha)).resolve_left ?_⟩
    rintro rfl
    obtain ⟨ρ, seen, noted⟩ := g.sees
    have := role seen noted
    simp [seen.nil] at this
  | @part a tag fs ks ps b p i _ hb hp data nothing scope ih =>
    have role : ∀ {ρ}, Sees ρ σ h.body? → k.Noted ρ → h.body? a = some ⟨tag, fs, ks⟩ ∧
      ρ b = .code p := by
      intro ρ seen noted
      obtain ⟨B, hB⟩ := Option.ne_none_iff_exists'.1 ih.2
      have whole := (seen.conforms hB).whole
      rw [ih.1 seen noted] at whole
      obtain ⟨rfl, parts⟩ := whole
      refine ⟨hB, ?_⟩
      rw [List.forall₂_iff_get] at parts
      obtain ⟨hi, eb⟩ := List.getElem?_eq_some_iff.1 hb
      obtain ⟨hj, ep⟩ := List.getElem?_eq_some_iff.1 hp
      have part := parts.2 i hi hj
      simp only [List.get_eq_getElem] at part
      rw [eb, ep] at part
      cases p with
      | data => exact absurd rfl data
      | nothing => exact absurd rfl nothing
      | scope line => exact absurd rfl (scope line)
      | node => exact part
    refine ⟨fun seen noted => (role seen noted).2, ?_⟩
    obtain ⟨ρ, seen, noted⟩ := g.sees
    obtain ⟨hB, roleB⟩ := role seen noted
    refine (g.closed a _ b hB (List.mem_of_getElem? hb)).resolve_left ?_
    rintro rfl
    simp [seen.nil] at roleB

/-- What a node says that is known. -/
theorem node_body (g : Knows k σ n O h) (ha : k.Contains a (.node tag fs ks ps)) :
    h.body? a = some ⟨tag, fs, ks⟩ := by
  obtain ⟨ρ, seen, noted⟩ := g.sees
  obtain ⟨B, hB⟩ := Option.ne_none_iff_exists'.1 (g.code ha).2
  have whole := (seen.conforms hB).whole
  rw [(g.code ha).1 seen noted] at whole
  rw [hB, whole.1]

/-- The parts of a node that is known. -/
theorem node_parts (g : Knows k σ n O h) (ha : k.Contains a (.node tag fs ks ps))
    (seen : Sees ρ σ h.body?)
    (noted : k.Noted ρ) : List.Forall₂ (IsPart ρ) ks ps := by
  obtain ⟨B, hB⟩ := Option.ne_none_iff_exists'.1 (g.code ha).2
  have whole := (seen.conforms hB).whole
  rw [(g.code ha).1 seen noted] at whole
  exact whole.2

theorem node_part (g : Knows k σ n O h) (ha : k.Contains a (.node tag fs ks ps))
    (hb : ks[i]? = some b)
    (hp : ps[i]? = some c) (seen : Sees ρ σ h.body?) (noted : k.Noted ρ) : IsPart ρ b c := by
  have parts := g.node_parts ha seen noted
  rw [List.forall₂_iff_get] at parts
  obtain ⟨hi, rfl⟩ := List.getElem?_eq_some_iff.1 hb
  obtain ⟨hj, rfl⟩ := List.getElem?_eq_some_iff.1 hp
  exact parts.2 i hi hj

/-- The tag of what is a node. -/
theorem tag_of_role (g : Knows k σ n O h) (role : k.Finds σ h fun ρ => ρ a = .code c) {t : Tag}
    (read : Query.tag a h = .ok t) : t = c.tag := by
  obtain ⟨ρ, seen, -, role⟩ := role
  rcases g.sound.tag_read read with ⟨rfl, -⟩ | ⟨D, hD, rfl⟩
  · simp [seen.nil] at role
  · have tagged := (seen.conforms hD).tagged
    rw [role] at tagged
    exact tagged.1

end Knows

/-! ## Cases -/

/-- The channel of a case is kept, and its body takes the value that it receives. -/
def Known.Admits (k : Known) (c : Case) : Prop :=
  k.Keeps c.channel ∧ ∃ code, k.Contains c.body code ∧ Runs code c.side.values

theorem Known.Contains.mono {k' : Known} (ha : k.Contains a c) (more : k.notes ⊆ k'.notes) :
    k'.Contains a c := by
  induction ha with
  | noted ha => exact .noted (more ha)
  | part _ hb hp data nothing scope ih => exact .part ih hb hp data nothing scope

theorem Known.Admits.mono {k' : Known} {c : Case} (admits : k.Admits c) (within : k.Within k')
    (stays : k.stays ≤ k'.stays) : k'.Admits c := by
  refine ⟨?_, admits.2.imp fun _ ⟨contains, runs⟩ => ⟨contains.mono within.notes, runs⟩⟩
  exact admits.1.imp_right (.imp (Multiset.mem_of_le stays) fun ⟨d, D, hd, hm⟩ =>
    ⟨d, D, within.facts hd, hm⟩)

namespace Knows

/-- An instance of a case is left on its channel. -/
theorem registerCase [k.KeptByChains] {c : Case} (g : Knows k σ (n + 2) O h)
    (role : (w, .waker .case) ∈ k.notes)
    (hw : k.facts w = some ⟨.waker, [], [t]⟩) (any : (σ t).offers = Set.univ)
    (admits : k.Admits c) : Yields (Select.register w c) h fun _ h' => Knows k σ (n + 2) O h' := by
  suffices leave : ∀ (i : Nat) value, i < 3 → Channel.queueClass i = .waiting c.side → Yields (do
      let waiters ← Channel.slot c.channel i
      Queue.enqueueOwned waiters (← Waiting.create w value c.body) : Action Unit) h
        fun _ h' => ∃ σ', Knows k σ' (n + 2) O h' ∧ σ' = σ by
    replace leave : ∀ (i : Nat) value, i < 3 → Channel.queueClass i = .waiting c.side → Yields (do
      let waiters ← Channel.slot c.channel i
      Queue.enqueueOwned waiters (← Waiting.create w value c.body) : Action Unit) h
        fun _ h' => Knows k σ (n + 2) O h' := fun i value small hi =>
          (leave i value small hi).mono fun _ _ ⟨_, g, e⟩ => e ▸ g
    cases c with
    | send ch value body =>
      change Yields (if _ then _ else _) _ _
      split
      · exact .pure g
      · exact leave 1 value (by decide) rfl
    | receive ch body =>
      change Yields (if _ then _ else _) _ _
      split
      · exact .pure g
      · exact leave 2 .nil (by decide) rfl
  intro i value small hi
  refine .read fun waiters read => ?_
  obtain ⟨_, -, read'⟩ := query_bind_ok.1 read
  obtain ⟨D, hD, tag, hq⟩ := g.sound.child_read read'
  obtain ⟨kept, code, contains, runs⟩ := admits
  have completes : k.Finds σ h fun ρ => Completes ρ w c.body c.side := by
    obtain ⟨ρ, seen, noted⟩ := g.sees
    refine ⟨ρ, seen, noted, ?_⟩
    have roles : ρ w = .waker .case ∧ ∃ d, ρ c.body = .code d ∧ Runs d c.side.values :=
      ⟨noted _ role, code, (g.code contains).1 seen noted, runs⟩
    revert roles
    cases c.side <;> exact .inr
  refine g.knowing hD kept fun g' => ?_
  have byChains : (k.learn c.channel D).KeptByChains := .learn (by rw [tag]; rfl)
  obtain ⟨ρ, seen, noted, completes⟩ := completes
  refine ((g'.weaken (Nat.le_succ _)).waiting (t := t) (v := value) (g'.kept _ role)
    (.inr (g.code contains).2)
    ((g.within_learn hD).facts hw) any ⟨ρ, seen, noted, completes⟩).bind
    fun inst h₁ ⟨g₁, ρ₁, seen₁, noted₁, roleI⟩ => ?_
  obtain ⟨ρ₂, seen₂, noted₂, served⟩ := (g₁.own ⟨ρ₁, seen₁, noted₁, roleI⟩).serves (q := waiters)
    (serves_learn (k := k) tag hq hi small)
  refine (g₁.enqueueOwned (c := .waiting c.side) rfl (by simp) ⟨ρ₂, seen₂,
    fun x hx => noted₂ x (List.mem_cons_of_mem _ hx), served,
    .inr (noted₂ (inst, _) (List.mem_cons_self ..))⟩).mono
    fun _ _ g₂ => ⟨σ, g'.restore g₂, rfl⟩

section

variable [k.KeptByValues] (ht : k.facts t = some ⟨.thread, fs, cs⟩)

include ht

/-- A case that is ready gives the values of its side. -/
theorem tryCase {structs : Address} {c : Case} (runs : (σ t).waits = none)
    (g : Knows k σ (n + 6) O h)
    (kept : k.Keeps c.channel) :
    Yields (Select.tryCase t structs s c) h fun done h' => ∃ σ' vs, Passes σ σ' ∧
      Knows k (Function.update σ' t { σ t with stash := vs ++ (σ t).stash }) (n + 6) O h' ∧
      vs.length = if done then c.side.values else 0 := by
  have same : ∀ {σ'}, Passes σ σ' →
    Function.update σ' t { σ t with stash := [] ++ (σ t).stash } = σ' := fun passes => by
    rw [List.nil_append, ← passes.same runs, Function.update_eq_self]
  cases c with
  | send ch value body =>
    change Yields (if _ then _ else _) _ _
    split
    · exact .pure ⟨σ, [], .refl, by rwa [same .refl], rfl⟩
    refine (g.trySend kept).bind fun r h₁ ⟨σ', g₁, passes, _⟩ =>
      .pure ⟨σ', [], passes, by rwa [same passes], ?_⟩
    split <;> rfl
  | receive ch body =>
    change Yields (if _ then _ else _) _ _
    split
    · exact .pure ⟨σ, [], .refl, by rwa [same .refl], rfl⟩
    refine (g.tryRecv kept ht runs).bind fun r h₁ ⟨σ'', g₁, σ', passes, came⟩ => .pure ?_
    rcases came with ⟨rfl, v, rfl⟩ | ⟨q, rfl, rfl, -⟩
    · exact ⟨σ', [v], passes, g₁, rfl⟩
    · exact ⟨σ'', [], passes, by rwa [same passes], rfl⟩

theorem tryInOrder {structs : Address} {l : List Case} (admits : ∀ c ∈ l, k.Keeps c.channel) :
    ∀ {order : List Nat} {σ : Address → Task} {h : Heap}, (σ t).waits = none →
    Knows k σ (n + 6) O h →
      Yields (Select.tryInOrder l t structs s order) h fun r h' => ∃ σ' vs, Passes σ σ' ∧
        Knows k (Function.update σ' t { σ t with stash := vs ++ (σ t).stash }) (n + 6) O h' ∧
        (r = none ∧ vs = [] ∨ ∃ i c, r = some i ∧ l[i]? = some c ∧ vs.length = c.side.values)
  | [], σ, h, _, g => .pure ⟨σ, [], .refl, by simpa using g, .inl ⟨rfl, rfl⟩⟩
  | i :: order, σ, h, runs, g => by
    unfold Select.tryInOrder
    split
    · exact tryInOrder admits runs g
    next c hc =>
    refine (g.tryCase ht runs (admits c (List.mem_of_getElem? hc))).bind
      fun done h₁ ⟨σ₁, vs, passes, g₁, len⟩ => ?_
    split
    · next e =>
      rw [if_pos e] at len
      exact .pure ⟨σ₁, vs, passes, g₁, .inr ⟨i, c, rfl, hc, len⟩⟩
    · next e =>
      rw [if_neg e] at len
      obtain rfl := List.length_eq_zero_iff.1 len
      rw [List.nil_append, ← passes.same runs, Function.update_eq_self] at g₁
      refine (tryInOrder admits (by rwa [passes.same runs]) g₁).mono
        fun r h₂ ⟨σ₂, vs, passes', g₂, e⟩ => ?_
      rw [passes.same runs] at g₂
      exact ⟨σ₂, vs, passes.trans passes', g₂, e⟩

/-- What comes of a `select`: a case gives its values, there is a default, or the thread waits. -/
theorem select {structs : Address} {l : List Case} {order : List Nat} {d : Bool} (kept : k.Keeps t)
    (admits : ∀ c ∈ l, k.Admits c) (free : (σ t).place = none) (runs : (σ t).waits = none)
    (g : Knows k σ (n + 6) O h) :
    Yields (Select.run l order d t structs s) h fun r h' => ∃ σ' τ, Passes σ σ' ∧
      Knows k (Function.update σ' t τ) (n + 6) O h' ∧
      ((∃ i c vs, r = .ready i ∧ l[i]? = some c ∧ vs.length = c.side.values ∧
        τ = { σ t with stash := vs ++ (σ t).stash }) ∨
      r = .default ∧ τ = σ t ∨ r = .blocked ∧ ∃ w, τ = (σ t).parked .case w) := by
  refine (tryInOrder ht (fun c hc => (admits c hc).1) runs g).bind
    fun r h₁ ⟨σ', vs, passes, g₁, came⟩ => ?_
  rcases came with ⟨rfl, rfl⟩ | ⟨i, c, rfl, hc, len⟩
  swap
  · exact .pure ⟨σ', _, passes, g₁, .inl ⟨i, c, vs, rfl, hc, len, rfl⟩⟩
  change Yields (if _ then _ else _) _ _
  split
  · exact .pure ⟨σ', _, passes, g₁, .inr (.inl ⟨rfl, rfl⟩)⟩
  have g₁ : Knows k (Function.update σ' t (σ t)) (n + 6) O h₁ := g₁
  refine (g₁.weaken (Nat.le_succ _)).waker (y := .case) kept (g₁.thread ht) (by simpa using free)
    |>.bind
    fun w h₂ ⟨within, g₂⟩ => ?_
  have byChains : (k.withWaker w .case t).KeptByChains := .learn rfl
  refine Yields.bind (Yields.afterwards (R := fun _ h' =>
    Knows k (Function.update σ' t ((σ t).parked .case w)) (n + 6) O h')
    (Yields.forM (I := fun h' => Knows (k.withWaker w .case t) (Function.update σ' t
      ((σ t).parked .case w)) (n + 5) O h') (by simpa using g₂) fun c hc h g => ?_)
    fun _ h₃ g₃ => ?_) fun _ h₄ g₄ => .pure ⟨σ', _, passes, g₄, .inr (.inr ⟨rfl, _, rfl⟩)⟩
  · exact g.registerCase (t := t) (List.mem_cons_self ..) (by simp [Known.withWaker, Known.learn])
      (by simp [Task.parked])
      ((admits c hc).mono within (Multiset.le_cons_self ..))
  · exact (g₃.unwaker within g.wf).free.mono fun _ _ g₄ => g.restore g₄

end

end Knows
end GoMachine
