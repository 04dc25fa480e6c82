import GoMachine.Proofs.Tasks.Natives
import GoMachine.Proofs.Tasks.Statements
/-!
# Calls

The callee and the arguments of a call are kept while it is applied. A closure is entered in a scope
of its own; builtins return or leave the thread to wait. A `return` drops what is left of a body.

* `Task.Turns`: what a node makes of its thread that sees to itself whether the thread goes on.
-/
namespace GoMachine

open Heap (laden maxSlots)
open Code (Stands Reduces)

variable {k : Known} {σ : Address → Task} {n m : Nat} {O : Multiset Address} {h : Heap} {s : Turn}
  {a b t v f node : Address} {c : Code} {τ τ' τ₁ : Task} {fs : List UInt64}
  {ks l args : List Address} {ps : List Code}
  {tag : Tag} {i : Nat}

/-- A body runs in a scope of its own, and after it the caller goes on in the current one. -/
inductive Task.Entered (τ : Task) : Task → Prop
  | intro {body b r e f line x} : Runs b 0 → f ∉ τ.frames → τ.Entered { τ with
      control := ⟨body, b⟩ :: ⟨r, .node .returnFrom [] [.nil] [.nothing]⟩ ::
        ⟨e, .node .restoreEnvI [] [x] [.scope τ.line]⟩ :: τ.control
      line := f :: line }

/-- A thread is put on the run queue. -/
def Task.Goes (τ τ' : Task) : Prop := ∃ x, τ' = { τ with waits := none, place := some x, queued :=
    true }

/-- What a node makes of its thread besides what it has left to do: the thread goes on, or waits for
its turn or for what it gets yet. -/
inductive Task.Turns (τ : Task) (c : Code) : Task → Prop
  | goes {τ₁ τ' : Task} : τ.Makes c τ₁ → τ₁.Goes τ' → τ.Turns c τ'
  | parks {τ₁ : Task} {p o} : c.tag = .callI ∨ c.tag = .chanSendI → τ.Makes c τ₁ →
    τ.Turns c { τ₁ with waits := some .turn, place := p, offers := o }
  | receives {p o} : c.tag = .chanReceiveI →
    τ.Turns c { τ with stash := τ.stash.drop 1, waits := some .value, place := p, offers := o }
  | selects {fs ks ps p o} : c = .node .selectI fs ks ps → τ.Turns c { τ with
      stash := τ.stash.drop (ps.map Code.caseOperands).sum, waits := some .case, place :=
      p, offers := o }

/-- A new thread starts with a call in the scope of another, and has the operands on its stash. -/
structure Task.Starts (τ τ' : Task) : Prop where
  call : ∃ a b argc, τ'.control = [⟨a, .node .callI [argc] [] []⟩, ⟨b, .node .popI [] [] []⟩] ∧
    τ'.stash.length = argc.toNat + 1
  line : τ'.line = τ.line
  runs : τ'.waits = none
  queued : τ'.queued
  made : τ'.made

/-- Threads other than the running one, which had `τ` left to do, have left to do what they had, or
are woken, or are new. -/
def Joined (F : Facts) (t : Address) (τ : Task) (σ σ' : Address → Task) : Prop :=
  ∀ u, u ≠ t → σ' u = σ u ∨ (σ u).Woken (σ' u) ∨ (∀ B, F u = some B → B.tag ≠ .thread) ∧
  τ.Starts (σ' u)

/-- A rule that sees to its thread makes of it what the code of the node says, and may wake others.
-/
def Code.Schedules (c : Code) (x : Address → TurnM Unit) : Prop :=
  ∀ {k : Known} {t : Address} {σ : Address → Task} {τ : Task} {n : Nat} {O : Multiset Address}
    {s : Turn}
    {node : Address} [k.KeptByTurns] [k.Runner t], Plays t k σ τ (n + maxSlots + 16) O s →
    k.Contains node c →
      τ.place = none → τ.waits = none → Yields (x node) s fun _ s' => ∃ σ' τ',
        Plays t k σ' τ' (n + maxSlots + 16) O s' ∧ Joined s.heap.body? t τ σ σ' ∧ τ.Turns c τ'

/-- What applying a callee makes of the thread. -/
def Machine.Applied.Turned (τ τ' : Task) : Machine.Applied → Prop
  | .entered => τ.Entered τ'
  | .ran flow => flow.Turned τ τ'

/-- A node leaves its thread where it stands. -/
theorem Task.Makes.same_place (h : τ.Makes c τ') : τ'.place = τ.place ∧ τ'.waits = τ.waits ∧
    τ'.queued = τ.queued ∧
    τ'.offers = τ.offers := by
  cases h <;> exact ⟨rfl, rfl, rfl, rfl⟩

/-- A call or a send goes on, or waits for its turn. -/
theorem Task.Turns.settles (ht : c.tag = .callI ∨ c.tag = .chanSendI) (made : τ.Makes c τ₁)
    (settles : τ₁.Settles .turn τ') :
    τ.Turns c τ' := by
  cases settles with
  | goes => exact .goes made ⟨_, rfl⟩
  | parks => exact .parks ht made

theorem Others.joined {σ' : Address → Task} {F : Facts} (others : Others t σ σ') :
    Joined F t τ σ σ' := fun u hu =>
  (others u hu).imp_right .inl

open Code (Schedules)

theorem Plays.enqueueCurrent [k.KeptByChains] [k.Runner t] (p : Plays t k σ τ (n + 2) O s)
    (free : τ.place = none) :
    Yields TurnM.enqueueCurrent s fun _ s' => ∃ τ', Plays t k σ τ' (n + 2) O s' ∧ τ.Goes τ' := by
  obtain ⟨fs, cs, ht⟩ := p.record
  refine .get (.get ?_)
  rw [p.thread]
  refine (p.knows.enqueue (p.knows.thread ht) (by simpa)).acts.mono fun _ _ ⟨e, x, g⟩ =>
    ⟨_, ⟨e.trans p.thread, ?_⟩, x, rfl⟩
  simpa using g

/-- Operands are taken off the stash, the arguments before what is below them. -/
theorem Plays.popOperands [k.KeptByChains] [k.Runner t] {count : Nat} {α : Type} {f : List Address →
    Address → TurnM α}
    {Q : α → Turn → Prop} (p : Plays t k σ τ (n + maxSlots + 16) O s)
    (hf : ∀ {args callee s'}, args.length = count →
      Plays t k σ { τ with stash := τ.stash.drop (count + 1) } (n + 15)
      (laden (args ++ [callee]) O) s' →
      Facts.SameThreads s.heap.body? s'.heap.body? → Yields (f args callee) s' Q) :
      Yields (do f (← TurnM.popValues count) (← TurnM.popValue)) s Q := by
  have wide : Plays t k σ τ (n + 13 + 2 ^ 31 + 3) O s := p.weaken (by simp only [maxSlots]; omega)
  refine (wide.popValues.and wide.popValues_threads).bind ?_
  rintro args s₁ ⟨⟨len, p₁⟩, same⟩
  refine (p₁.popValue.and p₁.popValue_threads).bind ?_
  rintro callee s₂ ⟨⟨-, p₂⟩, same'⟩
  refine hf len ?_ (same.trans same')
  rw [Heap.laden_append, show laden [callee] O = callee ::ₘ O from rfl, ← Heap.laden_cons]
  simpa [List.drop_drop] using p₂

theorem View.of_record {r : Address} (run : View.of a h = .ok (.record tag r)) : r = a := by
  obtain ⟨tag', -, run⟩ := query_bind_ok.1 run
  split at run <;> first
    | (obtain ⟨_, -, run⟩ := query_bind_ok.1 run; cases query_pure_ok.1 run)
    | cases query_pure_ok.1 run
  rfl

namespace Machine

theorem functionLit_reduces (st : Stands (.node .functionLit fs ks ps)) :
    Reduces (.node .functionLit fs ks ps) functionLit := by
  intro k t σ τ n O s node _ _ p hc
  refine .ofThread fun frame read => ?_
  obtain ⟨e, readE, readF⟩ := query_bind_ok.1 read
  obtain ⟨live, on⟩ := p.env_frame readE readF
  obtain ⟨ρ, seen, noted⟩ := p.knows.sees
  refine (p.act (p.knows.closure hc st.functionLit live ⟨ρ, seen, noted, on seen⟩)).bind
    fun f s₁ p₁ => ?_
  exact p₁.pushValueOwned.mono fun _ _ p₂ =>
    ⟨_, p₂, .expands (m := 0) (E := []) (V := [f]) .functionLit⟩

theorem call_reduces (st : Stands (.node .call fs ks ps)) :
    Reduces (.node .call fs ks ps) call := by
  intro k t σ τ n O s node _ _ p hc
  obtain ⟨t', fs', ops, h, inner⟩ := st.split rfl
  rcases fs with _ | ⟨argc, _ | _⟩ <;> simp [Tag.split?] at h
  obtain ⟨rfl, rfl, rfl⟩ := h
  refine .look fun w read => .look fun l readL => ?_
  obtain rfl : argc = w := by simpa using p.field_read hc read
  obtain rfl := p.children_read hc readL
  have isNode : ∀ c ∈ ps, c.IsNode := fun c hc => (inner c hc).isNode
  have standing : k.Standing l ps := p.standing hc 0 fun c hc _ => isNode c hc
  exact (p.pushUnit rfl).bind fun _ s₁ ⟨new, p⟩ =>
    (p.pushInOrder standing).mono fun _ _ ⟨es, codes, p⟩ =>
    ⟨_, p, .halves rfl rfl (codes.trans (Code.filter_isThere isNode)) rfl rfl⟩

theorem goCall_reduces (st : Stands (.node .goCall fs ks ps)) :
    Reduces (.node .goCall fs ks ps) goCall := by
  intro k t σ τ n O s node _ _ p hc
  obtain ⟨t', fs', ops, h, inner⟩ := st.split rfl
  rcases fs with _ | ⟨argc, _ | _⟩ <;> simp [Tag.split?] at h
  obtain ⟨rfl, rfl, rfl⟩ := h
  refine .look fun w read => .look fun l readL => ?_
  obtain rfl : argc = w := by simpa using p.field_read hc read
  obtain rfl := p.children_read hc readL
  have isNode : ∀ c ∈ ps, c.IsNode := fun c hc => (inner c hc).isNode
  have standing : k.Standing l ps := p.standing hc 0 fun c hc _ => isNode c hc
  exact (p.pushUnit rfl).bind fun _ s₁ ⟨new, p⟩ =>
    (p.pushInOrder standing).mono fun _ _ ⟨es, codes, p⟩ =>
    ⟨_, p, .halves rfl rfl (codes.trans (Code.filter_isThere isNode)) rfl rfl⟩

/-! ## Application -/

theorem bind_binds [k.KeptByTurns] [k.Runner t] {scope literal value : Address}
    (p : Plays t k σ τ (n + 1) O s) :
    Yields (bind scope literal i value) s fun _ s' => Plays t k σ τ (n + 1) O s' := by
  refine .look fun name _ => .look fun type _ => ?_
  refine (p.makes (Variable.create_owns p.knows)).bind fun var s₁ p₁ => ?_
  exact Plays.dropped (l := [var]) (p₁.makes (Frame.insert_owns p₁.knows))

/-- The closure is known while it is entered, and so is its literal. -/
theorem enter_enters [k.KeptByTurns] [k.Runner t] {receiver : Option Address}
    (p : Plays t k σ τ (n + 2) O s)
    (kept : k.Keeps f) :
    Yields (enter f receiver args) s fun _ s' => ∃ τ', Plays t k σ τ' (n + 2) O s' ∧
    τ.Entered τ' := by
  refine .look fun literal readL => .look fun captured readC => .look fun expected readE =>
    .guard fun _ => ?_
  obtain ⟨D, hD, tagD, hl⟩ := p.knows.sound.child_read readL
  obtain ⟨-, hcap⟩ := p.knows.sound.child_of_body hD readC
  obtain ⟨ρ, seen, noted⟩ := p.knows.sees
  have loose : ∀ {ρ σ h}, Sees ρ σ h → h f = some D → ρ f = .loose := fun seen hD =>
    (seen.conforms hD).loose (by rw [tagD]; rfl)
  have notNil : literal ≠ .nil := by
    rintro rfl
    obtain ⟨E, hE, -⟩ := p.knows.sound.field_read readE
    simp [p.knows.dead] at hE
  have slot := ((seen.conforms hD).slot hl).resolve_left notNil
  rw [loose seen hD, tagD] at slot
  obtain ⟨c, role, fs', ks', body, ps', rfl, runs⟩ : ∃ c, ρ literal = .code c ∧ c.IsFunction := slot
  let k' := (k.learn f D).note literal (.code (.node .functionLit fs' ks' (body :: ps')))
  have fact : k'.facts f = some D := Function.update_self ..
  have within : k.Within k' :=
    ⟨(p.knows.within_learn hD).facts, fun x hx => List.mem_cons_of_mem _ hx⟩
  have byTurns' : (k.learn f D).KeptByTurns := .learn (by rw [tagD]; rfl)
  have byTurns : k'.KeptByTurns := inferInstanceAs (((k.learn f D).note literal _).KeptByTurns)
  have runner : k'.Runner t := .mono within rfl
  have known : k'.Contains literal (.node .functionLit fs' ks' (body :: ps')) :=
    .noted (List.mem_cons_self ..)
  have p' : Plays t k' σ τ (n + 2) O s := ⟨p.thread, (p.knows.learn hD kept).note
    (.inr (.inr ⟨f, D, Function.update_self .., List.mem_of_getElem? hl⟩)) ⟨ρ, seen, noted, role⟩⟩
  -- the two nodes below the body
  refine .ofThread fun frame readF => ?_
  obtain ⟨e, readE, readF⟩ := query_bind_ok.1 readF
  obtain ⟨live, on⟩ := p'.env_frame readE readF
  obtain ⟨ρ', seen', noted'⟩ := p'.knows.sees
  have here : List.Forall₂ (IsPart ρ') [frame] [.scope τ.line] := .cons (on seen') .nil
  refine (p'.pushShared rfl (by simpa using live) ⟨ρ', seen', noted', here⟩).bind
    fun _ s₁ ⟨x, p₁⟩ => ?_
  obtain ⟨ρ₁, seen₁, noted₁⟩ := p₁.knows.sees
  have nothing : List.Forall₂ (IsPart ρ₁) [.nil] [.nothing] := .cons rfl .nil
  refine (Plays.pushNew (l := [.nil]) (Plays.cons_nil.2 p₁) rfl
    ⟨ρ₁, seen₁, noted₁, nothing⟩).bind fun _ s₂ ⟨r, p₂⟩ => ?_
  -- the scope of the call
  obtain ⟨ρ₂, seen₂, noted₂⟩ := p₂.knows.sees
  have hD₂ := p₂.knows.body fact
  obtain ⟨line, on₂⟩ : ∃ line, OnLine ρ₂ captured line := by
    have slot := (seen₂.conforms hD₂).slot hcap
    rw [loose seen₂ hD₂, tagD] at slot
    rcases slot with rfl | ⟨line, role⟩
    · exact ⟨[], rfl⟩
    · exact ⟨captured :: line, rfl, role⟩
  refine (p₂.knows.openFrame (p₂.knows.closed f D captured hD₂ (List.mem_of_getElem? hcap))
    ⟨ρ₂, seen₂, noted₂, on₂⟩).acts.bind fun scope s₃ ⟨e₃, g₃, ⟨ρ₃, seen₃, noted₃, role₃⟩, gone₃⟩ =>
    ?_
  have new : scope ∉ τ.frames := Task.frames_push [_, _] (p₂.frames_live gone₃)
  have on₃ : OnLine ρ₃ scope (scope :: line) := ⟨rfl, role₃⟩
  refine (Plays.dropped (l := [scope]) (Plays.setFrame ⟨e₃.trans p₂.thread, g₃⟩
    ⟨ρ₃, seen₃, noted₃, on₃⟩)).bind fun _ s₄ p₄ => .look fun hasReceiver _ => ?_
  extract_lets rest
  have rest_enters : ∀ {s₅ τ'}, Plays t k' σ τ' (n + 2) O s₅ → Yields (rest ⟨⟩) s₅ fun _ s' => ∃ b,
      Plays t k σ { τ' with control := ⟨b, body⟩ :: τ'.control } (n + 2) O s' := by
    intro s₅ τ' p₅
    refine (Yields.forIn (I := fun _ s' => Plays t k' σ τ' (n + 2) O s') p₅ ?_).bind fun _ s₆ p₆ =>
      .look fun b readB => (p₆.push (p₆.child known readB rfl runs.isNode)).mono fun _ _ p₇ =>
        ⟨b, p₇.thread, p₇.knows.forget within rfl p.knows.wf⟩
    intro ⟨arg, i⟩ _ s p
    exact (bind_binds p).bind fun _ _ p => .pure ⟨rfl, p⟩
  have enters : ∀ {s₅}, Plays t k' σ { τ with
      control := ⟨r, .node .returnFrom [] [.nil] [.nothing]⟩ ::
        ⟨x, .node .restoreEnvI [] [frame] [.scope τ.line]⟩ :: τ.control
      line := scope :: line } (n + 2) O s₅ → Yields (rest ⟨⟩) s₅ fun _ s' =>
      ∃ τ', Plays t k σ τ' (n + 2) O s' ∧
        τ.Entered τ' := fun p₅ => (rest_enters p₅).mono fun _ _ ⟨_, p₆⟩ => ⟨_, p₆, .intro runs new⟩
  split
  · split
    · exact (bind_binds p₄).bind fun _ s₅ p₅ => enters p₅
    · exact enters p₄
  · exact enters p₄

/-- What becomes of threads when a callee is applied to arguments that are kept. -/
def Applies (l : List Address) (x : TurnM Applied) : Prop :=
  ∀ {k : Known} {t : Address} {σ : Address → Task} {τ : Task} {n : Nat} {O : Multiset Address}
    {s : Turn}
    [k.KeptByTurns] [k.Runner t], Plays t k σ τ (n + 6) O s → (∀ a ∈ l, k.Keeps a) →
    τ.place = none → τ.waits = none →
      Yields x s fun r s' => ∃ σ' τ', Plays t k σ' τ' (n + 6) (laden r.owned O) s' ∧ Others t σ σ' ∧
        r.Turned τ τ'

theorem callBuiltin_flows : Builtin.Flows args (callBuiltin b args) := by
  intro k t σ τ n O s _ _ p held free runs
  refine .look fun name _ => ?_
  split
  · exact Builtin.run_flows p held free runs
  · exact .throw

theorem applyBuiltin_applies : Applies args (do return .ran (← callBuiltin b args)) := by
  intro k t σ τ n O s _ _ p held free runs
  exact (callBuiltin_flows p held free runs).bind fun flow s' e => .pure e

theorem applyClosure_applies {receiver : Option Address} :
    Applies [f] (do enter f receiver args; return .entered) := by
  intro k t σ τ n O s _ _ p held free runs
  exact (enter_enters (n := n + 4) p (held f (by simp))).bind fun _ s' ⟨τ', p', e⟩ =>
    .pure ⟨σ, τ', p', .refl, e⟩

/-- A bound method is known while it is applied. -/
theorem applyBound_applies {m : Address} : Applies (m :: args) (applyBound m args) := by
  intro k t σ τ n O s _ _ p held free runs
  refine .look fun target readT => .look fun receiver readR => .look fun view readV => ?_
  obtain ⟨D, hD, tagD, ht⟩ := p.knows.sound.child_read readT
  obtain ⟨-, hr⟩ := p.knows.sound.child_of_body hD readR
  have fact : (k.learn m D).facts m = some D := Function.update_self ..
  have within := p.knows.within_learn hD
  have byTurns : (k.learn m D).KeptByTurns := .learn (by rw [tagD]; rfl)
  have runner : (k.learn m D).Runner t := .mono within rfl
  have p' : Plays t (k.learn m D) σ τ (n + 6) O s := ⟨p.thread, p.knows.learn hD (held m (by simp))⟩
  have keeps : ∀ {b}, b ∈ D.children → (k.learn m D).Keeps b := fun hb =>
    .inr (.inr ⟨m, D, fact, hb⟩)
  have learned : ∀ {l : List Address} {x : TurnM Applied}, Applies l x →
    (∀ a ∈ l, (k.learn m D).Keeps a) →
      Yields x s fun r s' => ∃ σ' τ', Plays t k σ' τ' (n + 6) (laden r.owned O) s' ∧ Others t σ σ' ∧
        r.Turned τ τ' := fun hx held => (hx p' held free runs).mono fun _ _ ⟨σ', τ', p₁, e⟩ =>
      ⟨σ', τ', ⟨p₁.thread, p₁.knows.forget within rfl p.knows.wf⟩, e⟩
  split
  · next f _ =>
    obtain rfl := View.of_record readV
    exact learned applyClosure_applies (by simpa using keeps (List.mem_of_getElem? ht))
  · refine learned applyBuiltin_applies fun a ha => ?_
    rcases List.mem_cons.1 ha with rfl | ha
    · exact keeps (List.mem_of_getElem? hr)
    · exact (held a (List.mem_cons_of_mem _ ha)).mono within rfl
  · exact .throw

theorem apply_applies {callee : Address} : Applies (callee :: args) (apply callee args) := by
  intro k t σ τ n O s _ _ p held free runs
  refine .look fun view readV => ?_
  split
  · obtain rfl := View.of_record readV
    exact applyClosure_applies p (by simpa using held _ (List.mem_cons_self ..)) free runs
  · obtain rfl := View.of_record readV
    exact applyBound_applies p held free runs
  · exact applyBuiltin_applies p (fun a ha => held a (List.mem_cons_of_mem _ ha)) free runs
  · exact .throw
  · exact .throw

theorem callI_schedules (st : Stands (.node .callI fs ks ps)) :
    Schedules (.node .callI fs ks ps) callI := by
  intro k t σ τ n O s node _ _ p hc free runs
  obtain ⟨argc, rfl⟩ := st.counted (by simp)
  refine .look fun w read => p.popOperands fun {args callee s₁} len p₁ _ => ?_
  obtain rfl : argc = w := by simpa using p.field_read hc read
  refine (Plays.lending p₁ fun p₂ => apply_applies (n := n + 9) p₂
    (fun a ha => Known.keeps_of_mem ?_) free runs).bind
    fun r s₃ ⟨σ', τ₁, p₃, others, turned⟩ => ?_
  · rcases List.mem_cons.1 ha with rfl | ha <;> simp [*]
  have goes : ∀ {τ₂ s₄}, Plays t k σ' τ₂ (n + maxSlots + 16) O s₄ →
    τ.Makes (.node .callI [argc] ks ps) τ₂ →
      Yields TurnM.enqueueCurrent s₄ fun _ s' => ∃ σ' τ', Plays t k σ' τ' (n + maxSlots + 16) O s' ∧
        Joined s.heap.body? t τ σ σ' ∧ τ.Turns (.node .callI [argc] ks ps) τ' := fun p made =>
    (p.enqueueCurrent (made.same_place.1.trans free)).mono fun _ _ ⟨τ', p, goes⟩ =>
      ⟨_, τ', p, others.joined, .goes made goes⟩
  split
  · cases turned with
    | intro runs new => exact goes (p.restore p₃) (.enters rfl runs fun mem => new mem)
  · next v _ =>
    obtain rfl : τ₁ = _ := turned
    exact p₃.pushValueOwned.bind fun _ _ p₄ => goes (p.restore p₄) (.values (V := [v]) rfl rfl)
  · obtain ⟨v, settles⟩ := turned
    exact .pure ⟨σ', τ₁, p.restore p₃, others.joined,
      .settles (.inl rfl) (.values (V := [v]) rfl rfl) settles⟩

/-! ## Returning -/

theorem returnFrom_reduces (st : Stands (.node .returnFrom fs ks ps)) :
    Reduces (.node .returnFrom fs ks ps) returnFrom := by
  intro k t σ τ n O s node _ _ p hc
  obtain ⟨value, rfl, isEval⟩ := st.returnFrom
  refine .look fun b read => (p.pushUnit rfl).bind fun _ s₁ ⟨x, p₁⟩ => ?_
  rcases p.optional hc read rfl fun h => (isEval h).isNode with ⟨rfl, rfl⟩ | ⟨notNil, contains⟩
  · exact p₁.pushValue.mono fun _ _ p₂ =>
      ⟨_, p₂, .expands (m := 0) (E := [⟨x, _⟩]) (V := [.nil]) .returnNil⟩
  · rw [if_neg (by simpa [← Address.isNil_iff] using notNil)]
    exact (p₁.push contains).mono fun _ _ p₂ => ⟨_, p₂, .schedules (E := [⟨_, _⟩, ⟨_, _⟩])
      (.returnValue (Code.IsNode.ne_nothing (p.knows.isNode contains))) rfl⟩

/-- What is left of a body is dropped. -/
theorem dropBody_drops [k.KeptByTurns] [k.Runner t] : ∀ {m : Nat} {τ : Task} {s : Turn},
    Plays t k σ τ (n + maxSlots + 16) O s → Yields (dropBody m) s fun _ s' => ∃ pre e rest,
      τ.control = pre ++ e :: rest ∧ e.code.tag = .restoreEnvI ∧
      (∀ p ∈ pre, p.code.tag ≠ .restoreEnvI) ∧
      Plays t k σ { τ with control := e :: rest } (n + maxSlots + 16) O s'
  | 0, τ, s, p => .throw
  | m + 1, τ, s, p => by
    refine .ofThread fun st readS => .look fun top readP => .guard fun notNil =>
      .look fun tag readT => ?_
    obtain ⟨fs, cs, -, ht, hst⟩ := p.pile_read readS
    have first := p.knows.peek (p := .control) ht hst readP
    rw [Function.update_self, Task.pile] at first
    cases hτ : τ.control with
    | nil =>
      rw [hτ] at first
      exact absurd (Address.isNil_iff.2 first) notNil
    | cons e rest =>
    obtain rfl : top = e.node := by simpa [hτ] using first
    have role : k.Finds (Function.update σ t τ) s.heap fun ρ => ρ e.node = .code e.code := by
      obtain ⟨ρ, seen, noted⟩ := p.knows.sees
      have shows := seen.shows ht ((seen.conforms ht).thread rfl)
      rw [Function.update_self] at shows
      exact ⟨ρ, seen, noted, shows.codes e (by simp [hτ])⟩
    obtain rfl := p.knows.tag_of_role role readT
    split
    · next here =>
      refine .pure ⟨[], e, rest, rfl, here, by simp, ?_⟩
      rwa [← hτ]
    · next other =>
      refine (p.popNode readS).bind fun v s₁ came => ?_
      obtain ⟨-, e', rest', hτ', rfl, p₁, -⟩ := came.resolve_left fun ended => by simp [hτ] at ended
      obtain ⟨rfl, rfl⟩ : e = e' ∧ rest = rest' := by simpa [hτ] using hτ'
      refine p₁.free.bind fun _ s₂ p₂ => (dropBody_drops (p.restore p₂)).mono ?_
      rintro _ _ ⟨pre, e', rest', split, here, apart, p⟩
      refine ⟨e :: pre, e', rest', congrArg (e :: ·) split, here, ?_, p⟩
      exact List.forall_mem_cons.2 ⟨other, apart⟩

theorem returnFromI_reduces : Reduces (.node .returnFromI fs ks ps) returnFromI := fun p _ =>
  .get ((dropBody_drops p).mono fun _ _ ⟨_, _, _, split, here, apart, p⟩ =>
  ⟨_, p, .returns rfl split here apart⟩)

theorem restoreEnvI_reduces (st : Stands (.node .restoreEnvI fs ks ps)) :
    Reduces (.node .restoreEnvI fs ks ps) restoreEnvI := by
  intro k t σ τ n O s node _ _ p hc
  obtain ⟨line, rfl⟩ := st.restoreEnvI
  refine .look fun f read => ?_
  obtain ⟨ρ, seen, noted⟩ := p.knows.sees
  have on : OnLine ρ f line := p.knows.node_part hc (p.child_read hc read) rfl seen noted
  exact (p.setFrame ⟨ρ, seen, noted, on⟩).mono fun _ _ p => ⟨_, p, .restores rfl⟩

end Machine
end GoMachine
