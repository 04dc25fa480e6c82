import GoMachine.Proofs.Tasks.Forks
/-!
# Channel operations and select

The second halves of channel operations see to their thread: it goes on, or waits on the channel. A
`select` takes the operands of its cases off the stash, the last case first, and keeps them until it
is known what came of it.

* `Machine.popClauses_finds`: the cases that are found have their operands and bodies.
-/
namespace GoMachine

open Heap (laden maxSlots)
open Code (Stands Reduces Schedules)

variable {k : Known} {σ : Address → Task} {n m : Nat} {O : Multiset Address} {s : Turn}
  {a b t v node : Address} {c : Code} {τ τ' : Task} {fs : List UInt64} {ks l : List Address}
  {ps : List Code}
  {tag : Tag} {i : Nat}

namespace Plays

/-- An action that wakes others and sees to the running thread. -/
theorem exchanges {α : Type} {x : Action α} {K : α → Multiset Address} {Q : α → Task → Prop}
    (p : Plays t k σ τ n O s)
    (runs : τ.waits = none) (hx : Yields x s.heap fun r h' => ∃ σ' τ',
    Knows k (Function.update σ' t τ') m (K r) h' ∧
      Passes (Function.update σ t τ) σ' ∧ Q r τ') :
    Yields (liftM x : TurnM α) s fun r s' => ∃ σ' τ', Plays t k σ' τ' m (K r) s' ∧ Others t σ σ' ∧
    Q r τ' :=
  hx.acts.mono fun _ _ ⟨e, σ', τ', g, passes, q⟩ =>
  ⟨σ', τ', ⟨e.trans p.thread, g⟩, (passes.others runs).1, q⟩

end Plays

namespace Machine

/-! ## Sending and receiving -/

theorem chanSend_reduces (st : Stands (.node .chanSend fs ks ps)) :
    Reduces (.node .chanSend fs ks ps) chanSend := by
  intro k t σ τ n O s node _ _ p hc
  obtain ⟨m, acts⟩ := st.acts rfl rfl (by simp)
  cases acts with
  | @chanSend _ _ channel value isChannel isValue =>
    have isNode : ∀ c ∈ [channel, value], c.IsNode := by
      simpa using ⟨isChannel.isNode, isValue.isNode⟩
    refine .look fun l read => (p.pushUnit rfl).bind fun _ s₁ ⟨x, p₁⟩ => ?_
    obtain rfl := p.children_read hc read
    have standing : k.Standing l [channel, value] := p.standing hc 0 fun c hc _ => isNode c hc
    refine (p₁.pushInOrder standing).mono fun _ _ ⟨es, codes, p₂⟩ => ⟨_, p₂, ?_⟩
    rw [Code.filter_isThere isNode] at codes
    refine .schedules (E := es ++ [⟨x, .node .chanSendI [] [] []⟩]) ?_ (by simp)
    rw [List.map_append, codes]
    exact .chanSend

theorem chanSendI_schedules : Schedules (.node .chanSendI fs ks ps) chanSendI := by
  intro k t σ τ n O s node _ _ p hc free runs
  refine p.popValue.bind fun value s₁ ⟨_, p₁⟩ => ?_
  refine p₁.popValue.bind fun ch s₂ ⟨_, p₂⟩ => ?_
  have owned : Plays t k σ _ (n + maxSlots + 14) (laden [value, ch] O) s₂ := p₂.swap
  refine (Plays.lending (Q := fun _ σ' τ' => Others t σ σ' ∧
    τ.Turns (.node .chanSendI fs ks ps) τ') owned
    fun p₃ => ?_).mono fun _ _ ⟨σ', τ', p', others, turns⟩ =>
    ⟨σ', τ', p.restore p', others.joined, turns⟩
  refine .get (.get ?_)
  rw [p₃.thread]
  obtain ⟨gs, cs, ht⟩ := p₃.record
  refine (p₃.exchanges runs (p₃.knows.send ht Known.Runner.kept (by simpa using free)
    (by simpa using runs)
    (Known.keeps_of_mem (by simp)))).bind fun _ _ ⟨σ', τ', p', others, settles⟩ =>
    .pure ⟨σ', τ', p', others, ?_⟩
  exact .settles (.inr rfl) (.expands (m := 2) (E := []) (V := []) .chanSendI)
    (by simpa using settles)

theorem chanReceive_reduces (st : Stands (.node .chanReceive fs ks ps)) :
    Reduces (.node .chanReceive fs ks ps) chanReceive := by
  intro k t σ τ n O s node _ _ p hc
  obtain ⟨t', fs', ops, h, inner⟩ := st.split rfl
  rcases ps with _ | ⟨channel, _ | _⟩ <;> simp [Tag.split?] at h
  obtain ⟨rfl, rfl, rfl⟩ := h
  refine .look fun b read => ?_
  have contains := p.child hc read rfl (inner _ (by simp)).isNode
  exact (p.pushUnit rfl).bind fun _ s₁ ⟨new, p⟩ => (p.push contains).mono fun _ _ p =>
    ⟨_, p, .halves (E := [⟨_, _⟩]) rfl rfl rfl rfl rfl⟩

theorem chanReceiveI_schedules : Schedules (.node .chanReceiveI fs ks ps) chanReceiveI := by
  intro k t σ τ n O s node _ _ p hc free runs
  refine p.popValue.bind fun ch s₁ ⟨_, p₁⟩ => .ofThread fun structs _ => ?_
  have owned : Plays t k σ _ (n + maxSlots + 15) (laden [ch] O) s₁ := p₁
  refine (Plays.lending (Q := fun _ σ' τ' => Others t σ σ' ∧
    τ.Turns (.node .chanReceiveI fs ks ps) τ') owned
    fun p₂ => ?_).mono fun _ _ ⟨σ', τ', p', others, turns⟩ =>
    ⟨σ', τ', p.restore p', others.joined, turns⟩
  refine .get (.get ?_)
  rw [p₂.thread]
  obtain ⟨gs, cs, ht⟩ := p₂.record
  refine (p₂.exchanges runs (p₂.knows.recv ht Known.Runner.kept (by simpa using free)
    (by simpa using runs)
    (Known.keeps_of_mem (by simp)))).bind fun _ _ ⟨σ', τ', p', others, came⟩ =>
    .pure ⟨σ', τ', p', others, ?_⟩
  rw [Function.update_self] at came
  rcases came with ⟨v, x, rfl⟩ | ⟨q, o, rfl⟩
  · exact .goes (.values (V := [v]) rfl rfl) ⟨x, rfl⟩
  · exact .receives rfl

/-! ## Select -/

/-- The tag of a node that is known. -/
theorem tag_read (p : Plays t k σ τ n O s) (hc : k.Contains node c)
    (read : Query.tag node s.heap = .ok tag) :
    tag = c.tag := by
  obtain ⟨ρ, seen, noted⟩ := p.knows.sees
  exact p.knows.tag_of_role ⟨ρ, seen, noted, (p.knows.code hc).1 seen noted⟩ read

/-- The operands of a case are scheduled. -/
theorem pushOperands_schedules [k.KeptByTurns] [k.Runner t] {clause : Address}
    (p : Plays t k σ τ (n + 2) O s)
    (hc : k.Contains clause c) (isClause : Clause c) :
    Yields (pushOperands clause) s fun _ s' => ∃ es : List Entry, es.map Entry.code = c.caseParts ∧
      Plays t k σ { τ with control := es ++ τ.control } (n + 2) O s' := by
  refine .look fun tag read => ?_
  obtain rfl := tag_read p hc read
  cases isClause with
  | @send fs ks channel value body isChannel isValue _ =>
    refine .look fun ch readC => .look fun v readV => ?_
    have isNode : ∀ c ∈ [channel, value], c.IsNode := by
      simpa using ⟨isChannel.isNode, isValue.isNode⟩
    refine (p.pushInOrder (.cons (.inr (p.child hc readC rfl isChannel.isNode))
      (.cons (.inr (p.child hc readV rfl isValue.isNode)) .nil))).mono fun _ _ ⟨es, codes, p⟩ =>
      ⟨es, ?_, p⟩
    rw [codes, Code.filter_isThere isNode]
    rfl
  | receive isChannel _ =>
    refine .look fun ch readC => (p.push (p.child hc readC rfl isChannel.isNode)).mono fun _ _ p =>
      ⟨[⟨_, _⟩], rfl, p⟩
  | default _ => exact .pure ⟨[], rfl, p⟩

theorem select_reduces (st : Stands (.node .select fs ks ps)) :
    Reduces (.node .select fs ks ps) select := by
  intro k t σ τ n O s node _ _ p hc
  obtain ⟨m, acts⟩ := st.acts rfl rfl (by simp)
  cases acts with
  | select clauses =>
    refine .look fun d _ => .look fun l read => ?_
    obtain rfl := p.children_read hc read
    obtain ⟨ρ, seen, noted⟩ := p.knows.sees
    refine (p.pushShared rfl (fun b hb => p.part_live hc hb)
      ⟨ρ, seen, noted, p.knows.node_parts hc seen noted⟩).bind fun _ s₁ ⟨x, p₁⟩ => ?_
    have standing : k.Standing l ps := p.standing hc 0 fun c hc _ => (clauses c hc).isNode
    suffices pushes : ∀ {l' : List Address} {ps' : List Code} {τ s},
      Plays t k σ τ (n + maxSlots + 14 + 2) O s →
        k.Standing l' ps' → (∀ c ∈ ps', Clause c) → Yields (forIn l' PUnit.unit fun clause _ => do
          pushOperands clause
          pure (.yield ⟨⟩)) s fun _ s' => ∃ es : List Entry,
          es.map Entry.code = ps'.reverse.flatMap Code.caseParts ∧
            Plays t k σ { τ with control := es ++ τ.control } (n + maxSlots + 14 + 2) O s' by
      refine (pushes p₁ (List.rel_reverse standing) (by simpa using clauses)).bind
        fun _ s₂ ⟨es, codes, p₂⟩ =>
        .pure ⟨_, p₂, .schedules (E := es ++ [⟨x, .node .selectI [d] l ps⟩]) ?_ (by simp)⟩
      rw [List.map_append, codes, List.reverse_reverse]
      exact .select
    intro l' ps' τ s p standing clauses
    induction standing generalizing τ s with
    | nil => exact .pure ⟨[], rfl, p⟩
    | @cons b c l' ps' part _ ih =>
      have isClause := clauses c (List.mem_cons_self ..)
      have contains : k.Contains b c := part.resolve_left fun e => isClause.isNode.ne_nothing e.2
      rw [List.forIn_cons]
      refine Yields.bind (Q := fun r s' => r = .yield ⟨⟩ ∧ ∃ es : List Entry,
        es.map Entry.code = c.caseParts ∧
        Plays t k σ { τ with control := es ++ τ.control } (n + maxSlots + 14 + 2) O s')
        ((pushOperands_schedules p contains isClause).bind fun _ _ e => .pure ⟨rfl, e⟩)
        fun r s₁ ⟨e, es, codes, p₁⟩ => ?_
      subst e
      refine (ih p₁ fun c hc => clauses c (List.mem_cons_of_mem _ hc)).mono
        fun _ s₂ ⟨es', codes', p₂⟩ =>
        ⟨es' ++ es, by simp [codes, codes'], by simpa using p₂⟩

/-- The case that a clause stands for: its channel was taken off the stash, and its body is a part.
-/
structure Clauses.Has (k : Known) (ps : List Code) (found : Clauses) (c : Case) : Prop where
  channel : c.channel ∈ found.operands
  body : ∃ code fs ks, k.Contains c.body code ∧ match c with
    | .send .. => ∃ a b, .node .caseSend fs ks [a, b, code] ∈ ps
    | .receive .. => ∃ a, .node .caseReceive fs ks [a, code] ∈ ps

/-- What was found among clauses that say `ps`. -/
structure Clauses.Finds (k : Known) (ps : List Code) (found : Clauses) : Prop where
  cases : ∀ c ∈ found.cases, found.Has k ps c
  default : found.default = .nil ∨ ∃ code fs ks, k.Contains found.default code ∧
    .node .caseDefault fs ks [code] ∈ ps

/-- One more case with its operands. -/
theorem Clauses.Finds.add {found : Clauses} {c : Case} {l : List Address} (finds : found.Finds k ps)
    (has : Clauses.Has k ps { found with cases := c :: found.cases, operands :=
    found.operands ++ l } c) :
    Clauses.Finds k ps { found with cases := c :: found.cases, operands :=
    found.operands ++ l } := by
  refine ⟨fun c' hc' => ?_, finds.default⟩
  rcases List.mem_cons.1 hc' with rfl | hc'
  · exact has
  · exact ⟨List.mem_append_left _ (finds.cases c' hc').channel, (finds.cases c' hc').body⟩

/-- Cases are found with their operands, and the default with its body. -/
theorem popClauses_finds [k.KeptByTurns] [k.Runner t] {l' : List Address} {ps' : List Code}
    (standing : List.Forall₂ (fun b c => k.Contains b c ∧ Clause c ∧ c ∈ ps) l' ps') :
    ∀ {found : Clauses} {τ : Task} {s : Turn},
    Plays t k σ τ (n + τ.stash.length + 3) (laden found.operands O) s →
      found.Finds k ps → Yields (popClauses found l') s fun found' s' => found'.Finds k ps ∧
        Plays t k σ { τ with stash := τ.stash.drop (ps'.map Code.caseOperands).sum } (n + 3)
        (laden found'.operands O) s' := by
  induction standing with
  | nil => exact fun p finds => .pure ⟨finds, p.weaken (by omega)⟩
  | @cons clause c l' ps' part _ ih =>
    intro found τ s p finds
    obtain ⟨hc, isClause, mem⟩ := part
    refine .look fun tag read => ?_
    obtain rfl := tag_read p hc read
    have owned : ∀ (l₁ l₂ : List Address), laden l₂ (laden l₁ O) = laden (l₁ ++ l₂) O :=
      fun l₁ l₂ => by
      rw [Heap.laden_append, Heap.laden_comm]
    cases isClause with
    | send isChannel isValue isBody =>
      refine p.popWithin.bind fun value s₁ p₁ => ?_
      refine p₁.popWithin.bind fun ch s₂ p₂ =>
        .look fun body readB => ?_
      have contains := p₂.child hc readB rfl isBody.isNode
      have p₂ : Plays t k σ _ _ (laden [value, ch] (laden found.operands O)) s₂ := p₂.swap
      rw [owned] at p₂
      refine (ih p₂ (finds.add (c := .send ch value body)
        ⟨by simp [Case.channel], _, _, _, contains, _, _, mem⟩)).mono ?_
      rintro _ _ ⟨finds, p⟩
      refine ⟨finds, ?_⟩
      simpa [List.drop_drop, Code.caseOperands, Code.tag, Nat.add_comm 1, Nat.add_assoc] using p
    | receive isChannel isBody =>
      refine p.popWithin.bind fun ch s₁ p₁ => .look fun body readB => ?_
      have contains := p₁.child hc readB rfl isBody.isNode
      rw [show ch ::ₘ laden found.operands O = _ from owned found.operands [ch]] at p₁
      refine (ih p₁ (finds.add (c := .receive ch body)
        ⟨by simp [Case.channel], _, _, _, contains, _, mem⟩)).mono ?_
      rintro _ _ ⟨finds, p⟩
      refine ⟨finds, ?_⟩
      simpa [List.drop_drop, Code.caseOperands, Code.tag, Nat.add_comm 1] using p
    | default isBody =>
      refine .look fun body readB => ?_
      have contains := p.child hc readB rfl isBody.isNode
      have more : Clauses.Finds k ps { found with default := body } :=
        ⟨fun c hc => ⟨(finds.cases c hc).channel, (finds.cases c hc).body⟩,
        .inr ⟨_, _, _, contains, mem⟩⟩
      have p : Plays t k σ τ _ (laden ({ found with default := body } : Clauses).operands O) s := p
      refine (ih p more).mono ?_
      rintro _ _ ⟨finds, p⟩
      refine ⟨finds, ?_⟩
      simpa [Code.caseOperands, Code.tag] using p

/-- A body is scheduled, if there is one, and the thread goes on. -/
theorem continueWith_goes [k.KeptByTurns] [k.Runner t] {body : Address} {bodies : List Code}
    (p : Plays t k σ τ (n + 2) O s) (free : τ.place = none)
    (there : body = .nil ∧ bodies = [] ∨ ∃ code, k.Contains body code ∧ bodies = [code]) :
    Yields (continueWith body) s fun _ s' => ∃ (es : List Entry) (τ' : Task),
    Plays t k σ τ' (n + 2) O s' ∧
      Task.Goes { τ with control := es ++ τ.control } τ' ∧ es.map Entry.code = bodies := by
  unfold continueWith
  rcases there with ⟨rfl, rfl⟩ | ⟨code, contains, rfl⟩
  · exact (p.enqueueCurrent free).mono fun _ _ ⟨τ', p, goes⟩ => ⟨[], τ', p, goes, rfl⟩
  · have notNil := p.knows.ne_nil contains
    rw [if_pos (by simpa [← Address.isNil_iff] using notNil)]
    exact (p.push contains).bind fun _ _ p₁ => (p₁.enqueueCurrent (by simpa using free)).mono
      fun _ _ ⟨τ', p₂, goes⟩ => ⟨[⟨body, code⟩], τ', p₂, goes, rfl⟩

theorem selectI_schedules (st : Stands (.node .selectI fs ks ps)) :
    Schedules (.node .selectI fs ks ps) selectI := by
  intro k t σ τ n O s node _ _ p hc free runs
  obtain ⟨m, acts⟩ := st.acts rfl rfl (by simp)
  cases acts with
  | selectI clauses =>
  refine .look fun d _ => .look fun l read => ?_
  obtain rfl := p.children_read hc read
  have standing : List.Forall₂
      (fun b c => k.Contains b c ∧ Clause c ∧ c ∈ ps) l.reverse ps.reverse := by
    refine List.rel_reverse (List.forall₂_iff_get.2 ?_)
    have standing : k.Standing l ps := p.standing hc 0 fun c hc _ => (clauses c hc).isNode
    obtain ⟨len, each⟩ := List.forall₂_iff_get.1 standing
    refine ⟨len, fun i h₁ h₂ => ?_⟩
    have isClause := clauses _ (List.get_mem ps ⟨i, h₂⟩)
    exact ⟨(each i h₁ h₂).resolve_left fun e => isClause.isNode.ne_nothing e.2, isClause,
        List.get_mem ..⟩
  have wide : Plays t k σ τ (n + 13 + τ.stash.length + 3) (laden [] O) s := by
    have := p.stash_le
    exact p.weaken (by simp only [maxSlots]; omega)
  have unfound : Clauses.Finds k ps {} := ⟨by simp, .inl rfl⟩
  refine (popClauses_finds standing wide unfound).bind ?_
  rintro found s₁ ⟨finds, p₁⟩
  refine .ofThread fun structs _ => ?_
  rw [List.map_reverse, List.sum_reverse] at p₁
  refine Yields.mono (Plays.lending (K := fun _ => O)
    (Q := fun _ σ' τ' => Others t σ σ' ∧ τ.Turns (.node .selectI fs l ps) τ') p₁
    fun p₂ => ?_) ?_
  swap
  · rintro _ _ ⟨σ', τ', p', others, turns⟩
    exact ⟨σ', τ', p.restore p', others.joined, turns⟩
  have admits : ∀ c ∈ found.cases, (k.holds found.operands).Admits c := fun c hc => by
    obtain ⟨code, fs, ks, contains, part⟩ := (finds.cases c hc).body
    refine ⟨Known.keeps_of_mem (finds.cases c hc).channel, code, contains.mono (List.Subset.refl _),
        ?_⟩
    cases c with
    | send => exact (clauses _ part.choose_spec.choose_spec).send_inv
    | receive => exact (clauses _ part.choose_spec).receive_inv
  refine (Yields.modifyGet (Q := fun _ s₂ => Plays t (k.holds found.operands) σ _ (n + 10 + 6) O s₂)
    ⟨p₂.thread, p₂.knows⟩).bind fun order s₂ p₃ => .get (.get ?_)
  rw [p₃.thread]
  obtain ⟨gs, cs, ht⟩ := p₃.record
  have tried : Yields (Select.run found.cases order
      (decide (d ≠ 0)) t structs s₂.scheduler) s₂.heap _ :=
    p₃.knows.select ht Known.Runner.kept admits (by simpa using free) (by simpa using runs)
  refine (p₃.exchanges runs (K := fun _ => O) (tried.mono fun _ _ done => done.imp fun σ' done =>
    done.imp fun τ' done => ⟨done.2.1, done.1, done.2.2⟩)).bind ?_
  rintro r s₃ ⟨σ', τ', p₄, others, came⟩
  rw [Function.update_self] at came
  have goes : ∀ {V E τ'}, Expands (.node .selectI fs l ps) (ps.map Code.caseOperands).sum
      (List.length V) (E.map Entry.code) →
      Task.Goes { τ with control := E ++ τ.control, stash :=
          V ++ τ.stash.drop (ps.map Code.caseOperands).sum } τ' →
      τ.Turns (.node .selectI fs l ps) τ' := fun expands goes => .goes (.expands expands) goes
  have wide : ∀ {τ'}, Plays t (k.holds found.operands) σ' τ' (n + 10 + 6) O s₃ →
      Plays t (k.holds found.operands) σ' τ' (n + 14 + 2) O s₃ := fun p => p
  rcases came with ⟨i, c, vs, rfl, hc, len, rfl⟩ | ⟨rfl, rfl⟩ | ⟨rfl, w, rfl⟩
  · obtain ⟨code, fs', ks', contains, part⟩ := (finds.cases c (List.mem_of_getElem? hc)).body
    have body : (found.cases[i]?.map Case.body).getD .nil = c.body := by rw [hc]; rfl
    dsimp only
    rw [body]
    refine (continueWith_goes (wide p₄) free
        (.inr ⟨code, contains.mono (List.Subset.refl _), rfl⟩)).mono ?_
    rintro _ _ ⟨es, τ₂, p₅, settles, codes⟩
    refine ⟨σ', τ₂, p₅, others, goes ?_ settles⟩
    rw [codes, len]
    cases c with
    | send =>
      obtain ⟨a, b, part⟩ := part
      exact .sent part
    | receive =>
      obtain ⟨a, part⟩ := part
      exact .received part
  · have there : ∃ bodies, (found.default = .nil ∧ bodies = [] ∨
        ∃ code, (k.holds found.operands).Contains found.default code ∧ bodies = [code]) ∧
        (∀ b ∈ bodies, ∃ fs' ks', Code.node .caseDefault fs' ks' [b] ∈ ps) ∧ bodies.length ≤ 1 := by
      rcases finds.default with absent | ⟨code, fs', ks', contains, part⟩
      · exact ⟨[], .inl ⟨absent, rfl⟩, by simp, by simp⟩
      · exact ⟨[code], .inr ⟨code, contains.mono (List.Subset.refl _), rfl⟩, by
          simpa using ⟨fs', ks', part⟩, by simp⟩
    obtain ⟨bodies, there, parts, one⟩ := there
    refine (continueWith_goes (wide p₄) free there).mono ?_
    rintro _ _ ⟨es, τ₂, p₅, settles, codes⟩
    refine ⟨σ', τ₂, p₅, others, goes (V := []) ?_ settles⟩
    rw [codes]
    exact .default parts one
  · exact .pure ⟨σ', _, p₄, others, .selects rfl⟩

end Machine
end GoMachine
