import GoMachine.Machine.Flow
import GoMachine.Machine.Names
import GoMachine.Proofs.Owns.Channels
import GoMachine.Proofs.Tasks.Makes
/-!
# Names, operators and statements

What the rules of names, operators and statements make of the running thread. The first half of a
construct schedules its operands and, below them, the second half, which finds them on the stash.
-/
namespace GoMachine

open Heap (laden maxSlots)
open Code (Stands Reduces)

variable {k : Known} {σ : Address → Task} {n m : Nat} {O : Multiset Address} {s : Turn}
  {a b t v node : Address} {c : Code} {τ : Task} {fs : List UInt64} {ks : List Address}
  {ps : List Code}
  {tag : Tag} {i : Nat} {es : List Entry}

namespace Machine

/-! ## Names, assignments and operators -/

theorem literal_reduces : Reduces (.node .literal fs ks ps) literal := fun p _ =>
  .look fun v _ => p.pushValue.mono fun _ _ p => ⟨_, p, .values (V := [v]) rfl rfl⟩

theorem resolve_same : Yields (resolve node tag) s fun _ s' => s' = s := by
  refine .look fun key _ => .ofThread fun frame _ => .look fun found _ => ?_
  split
  · exact .pure rfl
  · exact .look fun _ _ => .throw

theorem name_reduces : Reduces (.node .name fs ks ps) name := by
  intro k t σ τ n O s node _ _ p hc
  refine .quiet resolve_same fun bound => .look fun tag _ => ?_
  split
  · exact .look fun v _ => p.pushValue.mono fun _ _ p => ⟨_, p, .values (V := [v]) rfl rfl⟩
  · exact p.pushValue.mono fun _ _ p => ⟨_, p, .values (V := [bound]) rfl rfl⟩

theorem nameAddress_reduces : Reduces (.node .nameAddress fs ks ps) nameAddress := fun p _ =>
  .quiet resolve_same fun bound => .look fun _ _ => p.pushValue.mono fun _ _ p =>
    ⟨_, p, .values (V := [bound]) rfl rfl⟩

/-- The second half of a construct is scheduled, and below it what it needs. -/
theorem reduceTo_schedules [k.KeptByTurns] [k.Runner t] {tag' : Tag} {fs' : List UInt64}
    {carried operands : List Address}
    {ops qs : List Code} (p : Plays t k σ τ (n + maxSlots + 16) O s) (ht : tag'.isControl)
    (live : ∀ b ∈ carried, b = .nil ∨ s.heap.body? b ≠ none)
    (parts : k.Finds (Function.update σ t τ) s.heap fun ρ => List.Forall₂ (IsPart ρ) carried qs)
    (standing : k.Standing operands ops) (split :
    tag.split? fs ps = some (tag', fs', ops.filter Code.isThere)) :
    Yields (do TurnM.pushShared tag' fs' carried; TurnM.pushInOrder operands) s fun _ s' => ∃ τ',
      Plays t k σ τ' (n + maxSlots + 16) O s' ∧ τ.Makes (.node tag fs ks ps) τ' := by
  refine (p.pushShared ht live parts).bind fun _ s₁ ⟨new, p⟩ =>
    (p.pushInOrder standing).mono fun _ s₂ ⟨es, codes, p⟩ => ?_
  exact ⟨_, p, .halves split rfl codes rfl rfl⟩

theorem var_reduces (st : Stands (.node .var fs ks ps)) : Reduces (.node .var fs ks ps) var := by
  intro k t σ τ n O s node _ _ p hc
  obtain ⟨t', fs', ops, h, inner⟩ := st.split rfl
  rcases ps with _ | ⟨x, _ | ⟨y, _ | ⟨init, _ | _⟩⟩⟩ <;> simp [Tag.split?] at h
  obtain ⟨rfl, rfl, rfl⟩ := h
  refine .look fun name readN => .look fun type readT => .look fun init readI => ?_
  have contains := p.child hc readI rfl (inner _ (by simp)).isNode
  have live : ∀ b ∈ [name, type], b = .nil ∨ s.heap.body? b ≠ none := by
    simp only [List.mem_cons, List.not_mem_nil, or_false, forall_eq_or_imp, forall_eq]
    exact ⟨p.part_live hc (List.mem_of_getElem? (p.child_read hc readN)),
      p.part_live hc (List.mem_of_getElem? (p.child_read hc readT))⟩
  refine (p.pushShared rfl live (p.data_parts _)).bind ?_
  rintro _ s₁ ⟨new, p⟩
  exact (p.push contains).mono fun _ _ p => ⟨_, p, .halves (E := [⟨_, _⟩]) rfl rfl rfl rfl rfl⟩

theorem varI_reduces : Reduces (.node .varI fs ks ps) varI := by
  intro k t σ τ n O s node _ _ p hc
  refine .look fun name _ => .look fun type _ => p.popValue.bind fun value s₁ ⟨_, p₁⟩ => ?_
  refine (p₁.makes (Variable.createOwned_owns p₁.knows)).bind fun var s₂ p₂ =>
    .ofThread fun frame _ => ?_
  exact (Plays.dropped (l := [var]) (p₂.makes (Frame.insert_owns p₂.knows))).mono fun _ _ p₃ =>
    ⟨_, p.restore p₃, .values (V := []) rfl rfl⟩

theorem assign_reduces (st : Stands (.node .assign fs ks ps)) :
    Reduces (.node .assign fs ks ps) assign := by
  intro k t σ τ n O s node _ _ p hc
  obtain ⟨t', fs', ops, h, inner⟩ := st.split rfl
  rcases ps with _ | ⟨target, _ | ⟨value, _ | _⟩⟩ <;> simp [Tag.split?] at h
  obtain ⟨rfl, rfl, rfl⟩ := h
  refine .look fun a readT => .look fun b readV => ?_
  have isNode : ∀ c ∈ [value, target], c.IsNode := fun c hc => (inner c hc).isNode
  have standing : k.Standing [b, a] [value, target] :=
    .cons (.inr (p.child hc readV rfl (isNode _ (by simp))))
    (.cons (.inr (p.child hc readT rfl (isNode _ (by simp)))) .nil)
  refine (p.knows.unit (t := .assignI) rfl).acts.bind fun new s₁ ⟨e, g, role⟩ => ?_
  refine (Plays.pushOwned ⟨e.trans p.thread, g⟩ role).bind fun _ s₂ p =>
    (p.pushInOrder standing).mono fun _ _ ⟨es, codes, p⟩ => ?_
  exact ⟨_, p, .halves rfl rfl (codes.trans (Code.filter_isThere isNode)) rfl rfl⟩

theorem assignI_reduces : Reduces (.node .assignI fs ks ps) assignI := by
  intro k t σ τ n O s node _ _ p hc
  refine p.popValue.bind fun var s₁ ⟨_, p₁⟩ => ?_
  refine p₁.popValue.bind fun value s₂ ⟨_, p₂⟩ => ?_
  refine (Plays.dropped (l := [var]) (p₂.makes (Variable.setValueOwned_owns p₂.knows))).mono
    fun _ _ p₃ => ?_
  exact ⟨_, p.restore p₃, .values (m := 2) (V := []) rfl (by simp)⟩

theorem unary_reduces (st : Stands (.node .unary fs ks ps)) :
    Reduces (.node .unary fs ks ps) unary := by
  intro k t σ τ n O s node _ _ p hc
  obtain ⟨t', fs', ops, h, inner⟩ := st.split rfl
  rcases fs with _ | ⟨op, _ | _⟩ <;> rcases ps with _ | ⟨operand, _ | _⟩ <;> simp [Tag.split?] at h
  obtain ⟨rfl, rfl, rfl⟩ := h
  refine .look fun w readF => .look fun b readO => ?_
  obtain rfl : op = w := by simpa using p.field_read hc readF
  have contains := p.child hc readO rfl (inner _ (by simp)).isNode
  exact (p.pushUnit rfl).bind fun _ s₁ ⟨new, p⟩ => (p.push contains).mono fun _ _ p =>
    ⟨_, p, .halves (E := [⟨_, _⟩]) rfl rfl rfl rfl rfl⟩

theorem unaryI_reduces : Reduces (.node .unaryI fs ks ps) unaryI := by
  intro k t σ τ n O s node _ _ p hc
  refine .look fun op _ => p.popValue.bind fun operand s₁ ⟨_, p₁⟩ => ?_
  refine (Plays.making (l := [operand]) (p₁.makes (UnaryOp.apply_owns p₁.knows))).bind
    fun v s₂ p₂ => ?_
  exact p₂.pushValueOwned.mono fun _ _ p₃ => ⟨_, p.restore p₃, .values (V := [v]) rfl rfl⟩

/-- The right operand of a logical operator waits until the left one is known. -/
theorem binary_reduces (st : Stands (.node .binary fs ks ps)) :
    Reduces (.node .binary fs ks ps) binary := by
  intro k t σ τ n O s node _ _ p hc
  obtain ⟨t', fs', ops, h, inner⟩ := st.split rfl
  rcases fs with _ | ⟨op, _ | _⟩ <;> rcases ps with _ | ⟨left, _ | ⟨right, _ | _⟩⟩ <;>
    simp [Tag.split?] at h
  obtain ⟨rfl, rfl, rfl⟩ := h
  refine .look fun w _ => .look fun a readL => .look fun b readR => ?_
  have isNode : ∀ c ∈ [left, right], c.IsNode := fun c hc => (inner c hc).isNode
  have hl := p.child hc readL rfl (isNode _ (by simp))
  have hr := p.child hc readR rfl (isNode _ (by simp))
  split
  · have live : ∀ x ∈ [b], x = .nil ∨ s.heap.body? x ≠ none := by
      simpa using p.part_live hc (List.mem_of_getElem? (p.child_read hc readR))
    obtain ⟨tag', fs', ks', ps', rfl⟩ := isNode right (by simp)
    have parts : k.Finds (Function.update σ t τ) s.heap fun ρ =>
      List.Forall₂ (IsPart ρ) [b] [.node tag' fs' ks' ps'] := by
      obtain ⟨ρ, seen, noted⟩ := p.knows.sees
      exact ⟨ρ, seen, noted, .cons ((p.knows.code hr).1 seen noted) .nil⟩
    exact (p.pushShared rfl live parts).bind fun _ s₁ ⟨new, p⟩ => (p.push hl).mono fun _ _ p =>
      ⟨_, p, .schedules (E := [⟨_, _⟩, ⟨_, _⟩]) .logical rfl⟩
  · refine (p.pushUnit rfl).bind fun _ s₁ ⟨new, p⟩ =>
      (p.pushInOrder (.cons (.inr hl) (.cons (.inr hr) .nil))).mono
      fun _ _ ⟨es, codes, p⟩ =>
      ⟨_, p, .halves rfl rfl (codes.trans (Code.filter_isThere isNode)) rfl (by rfl)⟩

theorem binaryI_reduces : Reduces (.node .binaryI fs ks ps) binaryI := by
  intro k t σ τ n O s node _ _ p hc
  refine .look fun op _ => p.popValue.bind fun right s₁ ⟨_, p₁⟩ => ?_
  refine p₁.popValue.bind fun left s₂ ⟨_, p₂⟩ => ?_
  refine (Plays.making (l := [left, right]) (p₂.makes (BinaryOp.apply_owns p₂.knows))).bind
    fun v s₃ p₃ => ?_
  exact p₃.pushValueOwned.mono fun _ _ p₄ =>
    ⟨_, p.restore p₄, .values (m := 2) (V := [v]) rfl (by simp)⟩

theorem logicalI_reduces (st : Stands (.node .logicalI fs ks ps)) :
    Reduces (.node .logicalI fs ks ps) logicalI := by
  intro k t σ τ n O s node _ _ p hc
  obtain ⟨right, rfl, isEval⟩ := st.logicalI
  refine .look fun op _ => p.popValue.bind fun left s₁ ⟨_, p₁⟩ => ?_
  refine (Plays.dropping (l := [left]) (K := fun _ => O) (Q := fun _ => True)
    (.lift (.query fun _ _ => ⟨p₁, trivial⟩))).bind fun b s₂ ⟨p₂, _⟩ => ?_
  have p := p.restore p₂
  have decided : ∀ b, Yields
    (do TurnM.pushValueOwned (← Scalar.newBool b) : TurnM Unit) s₂ fun _ s' => ∃ τ',
      Plays t k σ τ' (n + maxSlots + 16) O s' ∧ τ.Makes (.node .logicalI fs ks [right]) τ' :=
      fun b =>
    (p.makes (Scalar.new_owns (by rfl) p.knows)).bind fun v s₃ p₃ =>
    p₃.pushValueOwned.mono fun _ _ p₄ =>
      ⟨_, p₄, .expands (E := []) (V := [v]) .decided⟩
  split
  · exact decided false
  · exact decided true
  · refine .look fun b readR => ?_
    exact (p.push (p.child hc readR rfl isEval.isNode)).mono fun _ _ p =>
      ⟨_, p, .expands (E := [⟨_, _⟩]) (V := []) .undecided⟩

theorem postfixOp_reduces (st : Stands (.node .postfixOp fs ks ps)) :
    Reduces (.node .postfixOp fs ks ps) postfixOp := by
  intro k t σ τ n O s node _ _ p hc
  obtain ⟨t', fs', ops, h, inner⟩ := st.split rfl
  rcases fs with _ | ⟨op, _ | _⟩ <;> rcases ps with _ | ⟨target, _ | _⟩ <;> simp [Tag.split?] at h
  obtain ⟨rfl, rfl, rfl⟩ := h
  refine .look fun w _ => .look fun b readT => ?_
  have contains := p.child hc readT rfl (inner _ (by simp)).isNode
  exact (p.pushUnit rfl).bind fun _ s₁ ⟨new, p⟩ => (p.push contains).mono fun _ _ p =>
    ⟨_, p, .halves (E := [⟨_, _⟩]) rfl rfl rfl rfl (by rfl)⟩

theorem postfixOpI_reduces : Reduces (.node .postfixOpI fs ks ps) postfixOpI := by
  intro k t σ τ n O s node _ _ p hc
  refine .look fun op _ => p.popValue.bind fun var s₁ ⟨_, p₁⟩ => ?_
  exact (Plays.dropped (l := [var]) (p₁.makes (StepOp.apply_owns p₁.knows))).mono fun _ _ p₂ =>
    ⟨_, p.restore p₂, .values (V := []) rfl rfl⟩

/-! ## Statements -/

theorem sequence_reduces (st : Stands (.node .sequence fs ks ps)) :
    Reduces (.node .sequence fs ks ps) sequence := by
  intro k t σ τ n O s node _ _ p hc
  refine .look fun l read => ?_
  obtain rfl := p.children_read hc read
  have standing : k.Standing l ps := p.standing hc 0 fun c hc _ => st.sequence c hc
  refine (p.pushInOrder standing).mono fun _ _ ⟨es, codes, p⟩ => ⟨_, p, .schedules ?_ rfl⟩
  rw [codes, Code.filter_isThere st.sequence]
  exact .sequence

theorem block_reduces (st : Stands (.node .block fs ks ps)) :
    Reduces (.node .block fs ks ps) block := by
  intro k t σ τ n O s node _ _ p hc
  obtain ⟨m, acts⟩ := st.acts rfl rfl (by simp)
  cases acts with
  | block runs =>
    refine .look fun b read => ?_
    have contains := p.child hc read rfl runs.isNode
    refine p.pushFrame.bind fun f s₁ ⟨p, new⟩ => ?_
    refine (p.pushUnit rfl).bind fun _ s₂ ⟨x, p⟩ =>
      (p.push contains).mono
      fun _ _ p => ⟨_, p, .opens (A := [⟨_, _⟩]) (B := []) .block rfl new⟩

theorem exitScopeI_reduces : Reduces (.node .exitScopeI fs ks ps) exitScopeI := fun p _ =>
  p.popFrame.mono fun _ _ ⟨_, _, e, p⟩ => ⟨_, p, .closes rfl e⟩

theorem ifElse_reduces (st : Stands (.node .ifElse fs ks ps)) :
    Reduces (.node .ifElse fs ks ps) ifElse := by
  intro k t σ τ n O s node _ _ p hc
  obtain ⟨m, acts⟩ := st.acts rfl rfl (by simp)
  cases acts with
  | @ifElse _ _ cond body other isEval runs alt =>
    refine .look fun a readC => .look fun b readB => .look fun c readO => ?_
    have contains := p.child hc readC rfl isEval.isNode
    have live : ∀ x ∈ [b, c], x = .nil ∨ s.heap.body? x ≠ none := by
      simp only [List.mem_cons, List.not_mem_nil, or_false, forall_eq_or_imp, forall_eq]
      exact ⟨p.part_live hc (List.mem_of_getElem? (p.child_read hc readB)),
        p.part_live hc (List.mem_of_getElem? (p.child_read hc readO))⟩
    have parts : k.Finds (Function.update σ t τ) s.heap fun ρ =>
      List.Forall₂ (IsPart ρ) [b, c] [body, other] := by
      obtain ⟨ρ, seen, noted⟩ := p.knows.sees
      exact ⟨ρ, seen, noted, .cons (p.knows.node_part hc (p.child_read hc readB) rfl seen noted)
        (.cons (p.knows.node_part hc (p.child_read hc readO) rfl seen noted) .nil)⟩
    refine (p.pushShared rfl live parts).bind ?_
    rintro _ s₁ ⟨new, p⟩
    exact (p.push contains).mono fun _ _ p => ⟨_, p, .schedules (E := [⟨_, _⟩, ⟨_, _⟩]) .ifElse rfl⟩

theorem popCondition_pops [k.KeptByTurns] [k.Runner t] (p : Plays t k σ τ (n + maxSlots + 16) O s) :
    Yields popCondition s fun _ s' =>
      Plays t k σ { τ with stash := τ.stash.drop 1 } (n + maxSlots + 16) O s' := by
  refine p.popValue.bind fun cond s₁ ⟨_, p₁⟩ => ?_
  exact (Plays.dropping (l := [cond]) (K := fun _ => O) (Q := fun _ => True)
    (.lift (.query fun _ _ => ⟨p₁, trivial⟩))).mono fun _ _ ⟨p₂, _⟩ => p.restore p₂

theorem ifElseI_reduces (st : Stands (.node .ifElseI fs ks ps)) :
    Reduces (.node .ifElseI fs ks ps) ifElseI := by
  intro k t σ τ n O s node _ _ p hc
  obtain ⟨m, acts⟩ := st.acts rfl rfl (by simp)
  cases acts with
  | @ifElseI _ _ body other runs alt =>
    refine (popCondition_pops p).bind fun taken s₁ p => .look fun branch read => ?_
    cases taken with
    | true =>
      have contains : k.Contains branch body := p.child hc read rfl runs.isNode
      rw [if_pos (by simpa [← Address.isNil_iff] using p.knows.ne_nil contains)]
      exact (p.push contains).mono fun _ _ p => ⟨_, p, .expands (E := [⟨_, _⟩]) (V := []) .taken⟩
    | false =>
      rcases p.optional hc read rfl fun h => (alt h).isNode with ⟨rfl, rfl⟩ | ⟨notNil, contains⟩
      · exact .pure ⟨_, p, .expands (E := []) (V := []) .otherwise⟩
      · rw [if_pos (by simpa [← Address.isNil_iff] using notNil)]
        refine (p.push contains).mono fun _ _ p => ⟨_, p, .expands (E := [⟨_, _⟩]) (V := []) ?_⟩
        have only : [other].filter Code.isThere = [other] :=
          Code.filter_isThere (List.forall_mem_singleton.2 (p.knows.isNode contains))
        simpa [only] using (Expands.otherwise : Expands (.node .ifElseI fs ks [body, other]) 1 0 _)

theorem exprStmt_reduces (st : Stands (.node .exprStmt fs ks ps)) :
    Reduces (.node .exprStmt fs ks ps) exprStmt := by
  intro k t σ τ n O s node _ _ p hc
  obtain ⟨t', fs', ops, h, inner⟩ := st.split rfl
  rcases ps with _ | ⟨expr, _ | _⟩ <;> simp [Tag.split?] at h
  obtain ⟨rfl, rfl, rfl⟩ := h
  refine .look fun b read => ?_
  have contains := p.child hc read rfl (inner _ (by simp)).isNode
  exact (p.pushUnit rfl).bind fun _ s₁ ⟨new, p⟩ => (p.push contains).mono fun _ _ p =>
    ⟨_, p, .halves (E := [⟨_, _⟩]) rfl rfl rfl rfl rfl⟩

theorem popI_reduces : Reduces (.node .popI fs ks ps) popI := by
  intro k t σ τ n O s node _ _ p hc
  exact p.popValue.bind fun value s₁ ⟨_, p₁⟩ => p₁.free.mono fun _ _ p₂ =>
    ⟨_, p.restore p₂, .values (V := []) rfl rfl⟩

theorem markerI_reduces : Reduces (.node .markerI fs ks ps) markerI := fun p _ =>
  .pure ⟨_, p, .schedules (E := []) .marker rfl⟩

/-! ## Loops -/

/-- The nodes that copy the variable of a loop back. -/
theorem copyBack_builds {h : Heap} {var : Address} (g : Knows k σ (n + 1) O h) (there : var ∈ O) :
    Yields (copyBack var) h fun nodes h' => ∃ qs c, CopiesBack c qs ∧ (c = .nothing → var = .nil) ∧
      (c ≠ .nothing → c = .data) ∧ Knows k σ (n + 1) (laden nodes O) h' ∧
      k.Finds σ h' fun ρ => List.Forall₂ (IsPart ρ) nodes qs := by
  unfold copyBack
  split
  · next e =>
    obtain ⟨ρ, seen, noted⟩ := g.sees
    refine .pure ⟨_, _, .none, fun _ => Address.isNil_iff.1 e, fun h => absurd rfl h, ?_, ρ, seen,
      noted, ?_⟩
    · exact Knows.cons_nil.2 (Knows.cons_nil.2 (Knows.cons_nil.2 (Knows.cons_nil.2 g)))
    · exact .cons rfl (.cons rfl (.cons rfl (.cons rfl .nil)))
  have names : ∀ {k' : Known} {h' : Heap}, Knows k' σ (n + 1) O h' → k'.Finds σ h' fun ρ =>
    List.Forall₂ (IsPart ρ) [var] [.data] :=
    fun g => by
      obtain ⟨ρ, seen, noted⟩ := g.sees
      exact ⟨ρ, seen, noted, .cons trivial .nil⟩
  have live : ∀ {k' : Known} {h' : Heap}, Knows k' σ (n + 1) O h' → ∀ b ∈ [var], b = .nil ∨
    h'.body? b ≠ none :=
    fun g b hb => by
      rw [List.mem_singleton] at hb
      exact hb ▸ g.live_of_mem there
  -- each node is kept while the others are built
  refine (g.buildShared (t := .name) (w := []) rfl (live g) (names g)).bind
    fun read h₁ ⟨g₁, role₁⟩ => ?_
  have g₁ := g₁.own role₁
  refine (g₁.unit (t := .exitScopeI) rfl).bind fun exit h₂ ⟨g₂, role₂⟩ => ?_
  have g₂ := g₂.own role₂
  refine (g₂.buildShared (t := .nameAddress) (w := []) rfl (live g₂) (names g₂)).bind
    fun target h₃ ⟨g₃, role₃⟩ => ?_
  have g₃ := g₃.own role₃
  refine (g₃.unit (t := .assignI) rfl).bind fun assign h₄ ⟨g₄, role₄⟩ => ?_
  have g₄ := g₄.own role₄
  obtain ⟨ρ, seen, noted⟩ := g₄.sees
  have role : ∀ {x r}, (x, r) ∈ [(assign, Role.code (.node .assignI [] [] [])),
      (target, .code (.node .nameAddress [] [var] [.data])),
      (exit, .code (.node .exitScopeI [] [] [])),
      (read, .code (.node .name [] [var] [.data]))] → ρ x = r := fun hx => by
    refine noted (_, _) (?_ : _ ∈ _ :: _ :: _ :: _ :: k.notes)
    simp only [List.mem_cons, List.not_mem_nil, or_false] at hx ⊢
    tauto
  refine .pure ⟨[.node .name [] [var] [.data], .node .exitScopeI [] [] [],
    .node .nameAddress [] [var] [.data],
    .node .assignI [] [] []], .data, .some (.simple rfl) rfl (.simple rfl) rfl (.simple rfl) rfl, by
      simp, fun _ => rfl,
    (((g₄.disown g₃.wf).disown g₂.wf).disown g₁.wf).disown g.wf, ρ, seen, fun x hx => noted x ?_,
    ?_⟩
  · exact .tail _ (.tail _ (.tail _ (.tail _ hx)))
  · exact .cons (role (by simp))
      (.cons (role (by simp)) (.cons (role (by simp)) (.cons (role (by simp)) .nil)))

theorem forLoop_reduces (st : Stands (.node .forLoop fs ks ps)) :
    Reduces (.node .forLoop fs ks ps) forLoop := by
  intro k t σ τ n O s node _ _ p hc
  obtain ⟨m, acts⟩ := st.acts rfl rfl (by simp)
  cases acts with
  | @forLoop _ _ init cond update body var runsI isEval runsU runs =>
  refine .look fun a readI => .look fun c readC => .look fun u readU => .look fun b readB =>
    .look fun v readV => ?_
  have containsC := p.child hc readC rfl isEval.isNode
  have standing : k.Standing [a, c] [init, cond] := by
    refine .cons ?_ (.cons (.inr containsC) .nil)
    exact (p.optional hc readI rfl fun h => (runsI h).isNode).imp_right And.right
  have readC := p.child_read hc readC
  have readU := p.child_read hc readU
  have readB := p.child_read hc readB
  refine p.pushFrame.bind fun f s₁ ⟨p, new⟩ => ?_
  refine (p.pushUnit rfl).bind fun _ s₂ ⟨x, p⟩ => ?_
  refine p.reference.bind fun c' s₃ ⟨ec, p₁⟩ => ?_
  refine p₁.reference.bind fun u' s₄ ⟨eu, p₂⟩ => ?_
  refine p₂.reference.bind fun b' s₅ ⟨eb, p₃⟩ => ?_
  refine (p₃.knows.unit (t := .markerI) rfl).acts.bind fun marker s₆ ⟨e₄, g₄, role⟩ => ?_
  refine (g₄.own role).reference.heap.acts.bind fun v' s₇ ⟨e₅, ev, g₅, _⟩ => ?_
  subst ec eu eb ev
  refine (copyBack_builds g₅ (by simp)).acts.bind
    fun nodes s₈ ⟨e₆, qs, var', copies, empty, there, g₆, ρ, seen, noted, parts⟩ => ?_
  have p₇ : Plays t k σ { τ with control := ⟨x, .node .exitScopeI [] [] []⟩ :: τ.control, line :=
    f :: τ.line }
      (n + maxSlots + 12) (laden ([c', u', b', marker, v'] ++ nodes) O) s₈ := by
    refine ⟨e₆.trans (e₅.trans (e₄.trans p₃.thread)), ?_⟩
    convert g₆.disown g₄.wf using 1
    rw [Heap.laden_append]
    simp only [Heap.laden_eq, ← Multiset.cons_coe, ← Multiset.singleton_add, Multiset.coe_nil]
    abel
  have noted' : k.Noted ρ := fun x hx => noted x (List.mem_cons_of_mem _ hx)
  have all : List.Forall₂ (IsPart ρ) ([c', u', b', marker, v'] ++ nodes)
      (cond :: update :: body :: .node .markerI [] [] [] :: var' :: qs) := by
    refine .cons (p₇.knows.node_part hc readC rfl seen noted')
      (.cons (p₇.knows.node_part hc readU rfl seen noted')
      (.cons (p₇.knows.node_part hc readB rfl seen noted')
      (.cons (noted (marker, _) (List.mem_cons_self ..)) (.cons ?_ parts))))
    by_cases e : var' = .nothing
    · exact e ▸ empty e
    · exact there e ▸ trivial
  refine (p₇.pushNew rfl ⟨ρ, seen, noted', all⟩).bind fun _ s₉ ⟨y, p₈⟩ => ?_
  refine ((p.restore p₈).pushInOrder standing).mono fun _ s' ⟨es, codes, p₉⟩ => ?_
  refine ⟨_, p₉, ?_⟩
  suffices opens : Opens (.node .forLoop fs ks [init, cond, update, body, var]) 0
      ((es ++ [(⟨y, .node .forLoopI [] ([c', u', b', marker, v'] ++ nodes)
        (cond :: update :: body :: .node .markerI [] [] [] :: var' :: qs)⟩ :
        Entry)]).map Entry.code) [] by
    simpa using Task.Makes.opens (τ := τ) (f := f) (x := ⟨x, .node .exitScopeI [] [] []⟩)
      (B := []) opens rfl new
  have split : [init, cond].filter Code.isThere = [init].filter Code.isThere ++ [cond] := by
    rw [List.filter_cons (x := init), List.filter_cons (x := init),
      List.filter_cons_of_pos isEval.isNode.isThere]
    split <;> rfl
  rw [List.map_append, codes, split, List.append_assoc]
  exact .forLoop copies

/-- The scope of one turn of a loop is opened. -/
theorem openTurn_opens [k.KeptByTurns] [k.Runner t] {var : Address}
    (p : Plays t k σ τ (n + maxSlots + 16) O s) :
    Yields (openTurn var) s fun _ s' => ∃ f, Plays t k σ { τ with line := f :: τ.line }
    (n + maxSlots + 16) O s' ∧
      f ∉ τ.frames := by
  refine p.pushFrame.bind fun f s₁ ⟨p₁, new⟩ => .look fun outer _ => .look fun found _ => ?_
  split
  · exact .throw
  refine .look fun type _ => .look fun value _ => ?_
  refine (p₁.makes (Variable.create_owns p₁.knows)).bind fun copy s₂ p₂ => ?_
  exact (Plays.dropped (l := [copy]) (p₂.makes (Frame.insert_owns p₂.knows))).mono fun _ _ p₃ =>
    ⟨f, p.restore p₃, new⟩

/-- Parts of the node are scheduled in turn. -/
theorem pushEach_schedules [k.KeptByTurns] [k.Runner t] (hc : k.Contains node (.node tag fs ks ps))
    {tag' : Tag} :
    ∀ {l : List Nat} {cs : List Code} {τ : Task} {s : Turn},
    List.Forall₂ (fun i c => ps[i]? = some c ∧ c.IsNode) l cs →
      Plays t k σ τ (n + maxSlots + 16) O s → Yields (forIn l PUnit.unit fun i _ => (do
        TurnM.push (← Query.child node tag' i)
        pure (.yield ⟨⟩) : TurnM (ForInStep PUnit))) s fun _ s' => ∃ es : List Entry,
        es.map Entry.code = cs.reverse ∧
          Plays t k σ { τ with control := es ++ τ.control } (n + maxSlots + 16) O s'
  | [], _, τ, s, .nil, p => .pure ⟨[], rfl, p⟩
  | i :: l, c :: cs, τ, s, .cons ⟨hp, isNode⟩ rest, p => by
    rw [List.forIn_cons]
    refine Yields.bind (Q := fun r s' => r = .yield ⟨⟩ ∧
      ∃ b, Plays t k σ { τ with control := ⟨b, c⟩ :: τ.control }
      (n + maxSlots + 16) O s') (.look fun b read => ?_) fun r s₁ ⟨e, b, p₁⟩ => ?_
    · exact (p.push (p.child hc read hp isNode)).bind fun _ _ p => .pure ⟨rfl, b, p⟩
    · subst e
      exact (pushEach_schedules hc rest p₁).mono fun _ _ ⟨es, codes, p⟩ =>
        ⟨es ++ [⟨b, c⟩], by simp [codes], by simpa using p⟩

section

variable [k.KeptByTurns] [k.Runner t] {cond update body marker var : Code} {copies rest : List Code}
  {fs' : List UInt64} {ks' : List Address} {ps' : List Code}

/-- The body of a loop is scheduled, and below it the marker up to which `continue` drops nodes. -/
theorem pushBody_schedules
    (hc : k.Contains node
      (.node .forLoopI fs ks (cond :: update :: body :: .node .markerI fs' ks' ps' :: rest)))
    (runs : Runs body 0) (p : Plays t k σ τ (n + maxSlots + 16) O s) :
    Yields (do
        let marker ← Query.child node .forLoopI 3
        let body ← Query.child node .forLoopI 2
        TurnM.push marker
        TurnM.push body : TurnM Unit) s fun _ s' => ∃ x y,
      Plays t k σ { τ with
        control := ⟨x, body⟩ :: ⟨y, .node .markerI fs' ks' ps'⟩ :: τ.control }
        (n + maxSlots + 16) O s' := by
  refine .look fun y readM => .look fun x readB => ?_
  have containsM := p.child hc readM rfl ⟨_, _, _, _, rfl⟩
  have containsB := p.child hc readB rfl runs.isNode
  exact (p.push containsM).bind fun _ _ p₁ => (p₁.push containsB).mono fun _ _ p₂ => ⟨x, y, p₂⟩

/-- The nodes that copy the variable back are scheduled, and the one that closes the scope of the
turn among them. -/
theorem pushCopies_schedules {read target assign : Code}
    (hc : k.Contains node (.node .forLoopI fs ks
      [cond, update, body, marker, var, read, .node .exitScopeI fs' ks' ps', target, assign]))
    (isRead : read.IsNode) (isTarget : target.IsNode) (isAssign : assign.IsNode)
    (p : Plays t k σ τ (n + maxSlots + 16) O s) :
    Yields (forIn [8, 7, 6, 5] PUnit.unit fun i _ => (do
        TurnM.push (← Query.child node .forLoopI i)
        pure (.yield ⟨⟩) : TurnM (ForInStep PUnit))) s fun _ s' => ∃ a b c d,
      Plays t k σ { τ with control := [⟨a, read⟩, ⟨b, .node .exitScopeI fs' ks' ps'⟩,
        ⟨c, target⟩, ⟨d, assign⟩] ++ τ.control } (n + maxSlots + 16) O s' := by
  have parts : List.Forall₂ (fun i c => ([cond, update, body, marker, var, read,
      .node .exitScopeI fs' ks' ps', target, assign] : List Code)[i]? = some c ∧ c.IsNode)
      [8, 7, 6, 5] [assign, target, .node .exitScopeI fs' ks' ps', read] :=
    .cons ⟨rfl, isAssign⟩ (.cons ⟨rfl, isTarget⟩
      (.cons ⟨rfl, _, _, _, _, rfl⟩ (.cons ⟨rfl, isRead⟩ .nil)))
  refine (pushEach_schedules hc parts p).mono fun _ s' ⟨es, codes, p'⟩ => ?_
  obtain ⟨⟨a, _⟩, ⟨b, _⟩, ⟨c, _⟩, ⟨d, _⟩, rfl⟩ : ∃ a b c d, es = [a, b, c, d] := by
    rcases es with _ | ⟨_, _ | ⟨_, _ | ⟨_, _ | ⟨_, _ | _⟩⟩⟩⟩ <;> simp at codes ⊢
  simp only [List.map_cons, List.map_nil, List.reverse_cons, List.reverse_nil, List.nil_append,
    List.cons_append, List.cons.injEq, and_true] at codes
  obtain ⟨rfl, rfl, rfl, rfl⟩ := codes
  exact ⟨a, b, c, d, p'⟩

/-- A turn is scheduled above the nodes that go on with the loop. If the loop has a variable, the
turn has a scope of its own. -/
theorem enterTurn_makes {E : List Entry}
    (hc : k.Contains node (.node .forLoopI fs ks
      (cond :: update :: body :: .node .markerI fs' ks' ps' :: var :: copies)))
    (runs : Runs body 0) (back : CopiesBack var copies)
    (codes : E.map Entry.code = [update].filter Code.isThere ++ [cond, .node .forLoopI fs ks
      (cond :: update :: body :: .node .markerI fs' ks' ps' :: var :: copies)])
    (p : Plays t k σ { τ with control := E ++ τ.control, stash := τ.stash.drop 1 }
      (n + maxSlots + 16) O s) :
    Yields (do
        let loopVar ← Query.child node .forLoopI 4
        if !loopVar.isNil then
          for i in [8, 7, 6, 5] do
            TurnM.push (← Query.child node .forLoopI i)
          openTurn loopVar
        let marker ← Query.child node .forLoopI 3
        let body ← Query.child node .forLoopI 2
        TurnM.push marker
        TurnM.push body : TurnM Unit) s fun _ s' => ∃ τ',
      Plays t k σ τ' (n + maxSlots + 16) O s' ∧ τ.Makes (.node .forLoopI fs ks
        (cond :: update :: body :: .node .markerI fs' ks' ps' :: var :: copies)) τ' := by
  refine .look fun v readV => ?_
  split
  · cases back with
    | none =>
      obtain rfl := p.nothing hc (p.child_read hc readV) rfl
      contradiction
    | some isRead _ isTarget _ isAssign _ =>
      refine (pushCopies_schedules hc isRead.isNode isTarget.isNode isAssign.isNode p).bind
        fun _ s₁ ⟨a, b, c, d, p₁⟩ => (openTurn_opens p₁).bind fun _ s₂ ⟨f, p₂, new⟩ => ?_
      refine (pushBody_schedules hc runs p₂).mono fun _ s₃ ⟨x, y, p₃⟩ => ⟨_, p₃, ?_⟩
      have new : f ∉ τ.frames :=
        Task.frames_push ([⟨a, _⟩, ⟨b, _⟩, ⟨c, _⟩, ⟨d, _⟩] ++ E) (by simpa using new)
      refine .opens (A := [⟨x, body⟩, ⟨y, _⟩, ⟨a, _⟩]) (x := ⟨b, _⟩) (B := ⟨c, _⟩ :: ⟨d, _⟩ :: E)
        ?_ rfl new
      rw [List.map_cons (l := ⟨d, _⟩ :: E), List.map_cons (l := E), codes]
      exact .turn isRead.isNode.ne_nothing
  · refine (pushBody_schedules hc runs p).mono fun _ s₁ ⟨x, y, p₁⟩ => ⟨_, p₁, ?_⟩
    refine .expands (E := ⟨x, body⟩ :: ⟨y, _⟩ :: E) (V := []) ?_
    rw [List.map_cons, List.map_cons, codes]
    exact .turn

end

/-- The last nodes of a turn are scheduled first. -/
theorem forLoopI_reduces (st : Stands (.node .forLoopI fs ks ps)) :
    Reduces (.node .forLoopI fs ks ps) forLoopI := by
  intro k t σ τ n O s node _ _ p hc
  have loop := st.forLoopI
  cases loop with
  | intro isEval runsU runs back =>
  refine (popCondition_pops p).bind fun taken s₁ p => ?_
  split
  · exact .pure ⟨_, p, .expands (E := []) (V := []) .ended⟩
  refine .look fun c readC => .look fun u readU => ?_
  have contains := p.child hc readC rfl isEval.isNode
  have optU := p.optional hc readU rfl fun h => (runsU h).isNode
  refine (p.push hc).bind fun _ s₂ p₁ => ?_
  refine (p₁.push contains).bind fun _ s₃ p₂ => ?_
  rcases optU with ⟨rfl, rfl⟩ | ⟨notNil, containsU⟩
  · rw [if_neg (by decide)]
    exact enterTurn_makes (E := [⟨_, _⟩, ⟨_, _⟩]) hc runs back rfl p₂
  · rw [if_pos (by simpa [← Address.isNil_iff] using notNil)]
    refine (p₂.push containsU).bind fun _ s₄ p₃ =>
      enterTurn_makes (E := [⟨_, _⟩, ⟨_, _⟩, ⟨_, _⟩]) hc runs back ?_ p₃
    rw [List.filter_cons_of_pos (Code.IsNode.isThere (p₂.knows.isNode containsU))]
    rfl

/-! ## Leaving a loop -/

/-- Nodes are dropped up to the first one with a tag. -/
theorem unwindAmong_unwinds [k.KeptByTurns] [k.Runner t] {target : Tag} {keyword : String}
    (ht : target ≠ .exitScopeI) :
    ∀ {m : Nat} {τ : Task} {s : Turn}, Plays t k σ τ (n + maxSlots + 16) O s →
      Yields (unwindAmong target keyword m) s fun _ s' => ∃ pre e rest line,
      τ.control = pre ++ e :: rest ∧
        e.code.tag = target ∧ (∀ p ∈ pre, p.code.tag ≠ target ∧ p.code.tag ≠ .restoreEnvI) ∧
        τ.line.drop (pre.countP Entry.closes) = line ∧ pre.countP Entry.closes ≤ τ.line.length ∧
        Plays t k σ { τ with control := rest, line } (n + maxSlots + 16) O s'
  | 0, τ, s, p => .throw
  | m + 1, τ, s, p => by
    refine .ofThread fun st read => (p.popNode read).bind fun v s₁ came => ?_
    refine .guard fun notNil => ?_
    rcases came with ⟨rfl, -⟩ | ⟨-, e, rest, hτ, rfl, p₁, role⟩
    · exact absurd rfl notNil
    refine (Plays.dropping (l := [e.node]) (K := fun _ => O) (Q := fun t => t = e.code.tag)
      (.lift (.query fun _ read => ⟨p₁, p₁.knows.tag_of_role role read⟩))).bind
      fun tag s₂ ⟨p₂, hv⟩ => ?_
    subst hv
    have p₂ := p.restore p₂
    split
    · next here => exact .pure ⟨[], e, rest, τ.line, hτ, here, by simp, rfl, Nat.zero_le _, p₂⟩
    next other =>
    have again : ∀ {s₃ line} (d : Nat), e.code.tag ≠ .restoreEnvI →
      (if e.closes then 1 else 0) = d → d ≤ τ.line.length → τ.line.drop d = line →
        Plays t k σ { τ with control := rest, line } (n + maxSlots + 16) O s₃ →
        Yields (unwindAmong target keyword m) s₃ fun _ s' => ∃ pre e rest line,
        τ.control = pre ++ e :: rest ∧
        e.code.tag = target ∧ (∀ p ∈ pre, p.code.tag ≠ target ∧ p.code.tag ≠ .restoreEnvI) ∧
        τ.line.drop (pre.countP Entry.closes) = line ∧ pre.countP Entry.closes ≤ τ.line.length ∧
        Plays t k σ { τ with control := rest, line } (n + maxSlots + 16) O s' := by
      rintro s₃ _ d ne hd le rfl p
      refine (unwindAmong_unwinds ht p).mono
        fun _ s' ⟨pre, e', rest', line', split, here, apart, drop, le', p⟩ => ?_
      refine ⟨e :: pre, e', rest', line', hτ.trans (congrArg (e :: ·) split), here,
        List.forall_mem_cons.2 ⟨⟨other, ne⟩, apart⟩, ?_, ?_, p⟩
      · rw [List.countP_cons, ← drop, List.drop_drop, hd, Nat.add_comm]
      · rw [List.countP_cons, hd]
        rw [List.length_drop] at le'
        omega
    split
    · next tag =>
      refine p₂.popFrame.bind fun _ s₃ ⟨f, line, hl, p₃⟩ =>
        again 1 (by simp [tag]) (by simp [Entry.closes, tag])
        (by rw [hl]; simp) (by rw [hl]; rfl) p₃
    · exact Yields.throw.bind (Q := fun _ _ => False) fun _ _ h => h.elim
    · next out other' =>
      have stays : ¬e.closes := by simpa [Entry.closes] using out
      exact again 0 other' (if_neg stays) (Nat.zero_le _) rfl p₂

theorem breakLoop_reduces : Reduces (.node .breakLoop fs ks ps) breakLoop := fun p _ =>
  .get ((unwindAmong_unwinds (by simp) p).mono fun _ _ ⟨_, _, _, _, hτ, here, apart, line, le, p⟩ =>
    ⟨_, p, .unwinds _ (.inl ⟨rfl, rfl⟩) hτ here apart line le⟩)

theorem continueLoop_reduces : Reduces (.node .continueLoop fs ks ps) continueLoop := fun p _ =>
  .get ((unwindAmong_unwinds (by simp) p).mono fun _ _ ⟨_, _, _, _, hτ, here, apart, line, le, p⟩ =>
    ⟨_, p, .unwinds _ (.inr ⟨rfl, rfl⟩) hτ here apart line le⟩)

end Machine
end GoMachine
