import GoMachine.Proofs.Tasks.Code
/-!
# What a control stack takes

`Fits cs ds` says that the nodes `cs`, run in turn, take exactly so many operands off the stash:
`ds` tells for each call that is going on, the innermost first, how many operands of its own it has
waiting, and the last number is for what runs outside of any call. Nothing waits below a statement
in its own call, so that one which leaves a loop or the call leaves nothing behind.

* `Expands.fits`: what a node turns into takes what is left of the operands.
* `Fits.drop`: nodes that are dropped within a call do not matter to those below it.
-/
namespace GoMachine

/-- Nodes on a control stack, and how many operands each call has waiting. -/
inductive Fits : List Code → List Nat → Prop
  | done : Fits [] [0]
  | eval {c cs m n d} {ds : List Nat} : Eval c m n → Fits cs ((d + n) :: ds) →
      Fits (c :: cs) ((d + m) :: ds)
  | stmt {c cs m d ds} : Acts c m → Fits cs (0 :: d :: ds) → Fits (c :: cs) (m :: d :: ds)
  | exit {fs ks ps cs ds} : Fits cs ds → Fits (.node .exitScopeI fs ks ps :: cs) ds
  | marker {fs ks ps cs d ds} : Fits cs (0 :: d :: ds) →
    Fits (.node .markerI fs ks ps :: cs) (0 :: d :: ds)
  | loop {c cs d ds} : Loop c → Fits cs (0 :: d :: ds) → Fits (c :: cs) (1 :: d :: ds)
  /-- The `return` that ends a body, whatever is below it in the call. -/
  | returnNil {fs ks cs x d ds} : Fits cs (x :: d :: ds) →
    Fits (.node .returnFrom fs ks [.nothing] :: cs) (0 :: d :: ds)
  | returnFromI {fs ks ps cs x d ds} : Fits cs (x :: d :: ds) →
    Fits (.node .returnFromI fs ks ps :: cs) (1 :: d :: ds)
  /-- The operand that a call has at its end is that of the caller. -/
  | restoreEnvI {fs ks line cs d} {ds : List Nat} : Fits cs ((d + 1) :: ds) →
    Fits (.node .restoreEnvI fs ks [.scope line] :: cs) (1 :: d :: ds)

variable {c : Code} {cs new : List Code} {ps : List Code} {ds : List Nat} {k r m n d x : Nat}
    {t : Tag}
  {fs : List UInt64} {ks : List Address}

section

attribute [local simp] Tag.operands? Tag.split?

theorem Tag.operands?_of_split? {t' : Tag} {fs' : List UInt64} {ops : List Code}
    (h : t.split? fs ps = some (t', fs', ops)) : t.operands? fs = none := by
  cases t <;> first | rfl | simp at h

end

/-! ## Which nodes do what -/

theorem Eval.of_simple (e : Eval (.node t fs ks ps) m n) (h : t.operands? fs = some (k, r)) :
    m = k ∧ n = r := by
  cases e with
  | simple e => simp_all
  | split e => simp [Tag.operands?_of_split? e] at h
  | logicalI => simp [Tag.operands?] at h
  | functionLit => simp [Tag.operands?] at h
  | sequence => simp [Tag.operands?] at h

theorem Acts.not_simple (s : Acts (.node t fs ks ps) m) : t.operands? fs = none := by
  cases s <;> rfl

theorem Eval.of_split {t' : Tag} {fs' : List UInt64} {ops : List Code}
    (e : Eval (.node t fs ks ps) m n) (h : t.split? fs ps = some (t', fs', ops)) :
    m = 0 ∧ (∀ p ∈ ops, Eval p 0 1) ∧ t'.operands? fs' = some (ops.length, n) := by
  cases e with
  | simple e => simp [Tag.operands?_of_split? h] at e
  | split e inner second =>
    rw [h] at e
    cases e
    exact ⟨rfl, inner, second⟩
  | logicalI => simp [Tag.split?] at h
  | functionLit => simp [Tag.split?] at h
  | sequence => simp [Tag.split?] at h

theorem Acts.not_split (s : Acts (.node t fs ks ps) m) : t.split? fs ps = none := by
  cases s <;> rfl

theorem logical_inv {left right : Code} {t' : Tag} {fs' : List UInt64} {ops : List Code}
    (h : Tag.split? .binary fs [left, right] = some (t', fs', ops)) (inner : ∀ p ∈ ops, Eval p 0 1)
    (second : t'.operands? fs' = some (ops.length, n)) : Eval left 0 1 ∧ Eval right 0 1 ∧
    n = 1 := by
  match fs with
  | [op] =>
    simp only [Tag.split?, Option.some.injEq, Prod.mk.injEq] at h
    obtain ⟨rfl, rfl, rfl⟩ := h
    simp only [Tag.operands?, Option.some.injEq, Prod.mk.injEq] at second
    exact ⟨inner _ (by simp), inner _ (by simp), second.2.symm⟩
  | [] => simp [Tag.split?] at h
  | _ :: _ :: _ => simp [Tag.split?] at h

/-- A case is told from the others by its tag. -/
theorem Clause.receive_inv {body channel : Code}
    (h : Clause (.node .caseReceive fs ks [channel, body])) : Runs body 1 := by
  cases h
  assumption

theorem Clause.send_inv {channel value body : Code}
    (h : Clause (.node .caseSend fs ks [channel, value, body])) : Runs body 0 := by
  cases h
  assumption

theorem Clause.default_inv {body : Code} (h : Clause (.node .caseDefault fs ks [body])) :
    Runs body 0 := by
  cases h
  assumption

theorem Clause.parts (h : Clause c) : (∀ p ∈ c.caseParts, Eval p 0 1) ∧
    c.caseParts.length = c.caseOperands := by
  cases h <;> simp_all [Code.caseParts, Code.caseOperands, Code.tag]

namespace Fits

/-- Nothing is left to do, and nothing is left on the stash. -/
theorem nil_iff : Fits [] ds ↔ ds = [0] := by
  constructor
  · rintro ⟨⟩
    rfl
  · rintro rfl
    exact .done

theorem runs (h : Runs c m) (f : Fits cs (0 :: d :: ds)) : Fits (c :: cs) (m :: d :: ds) := by
  cases h with
  | eval e =>
    rw [← Nat.zero_add m]
    exact .eval e (by simpa using f)
  | stmt s => exact .stmt s f

theorem optional (h : c ≠ .nothing → Runs c 0) (f : Fits cs (0 :: d :: ds)) :
    Fits ([c].filter Code.isThere ++ cs) (0 :: d :: ds) := by
  cases c with
  | nothing => simpa [Code.isThere] using f
  | _ => exact runs (h (by simp)) f

theorem chunk (h : Chunk ps m) (f : Fits cs (0 :: d :: ds)) : Fits (ps ++ cs) (m :: d :: ds) := by
  induction ps generalizing m with
  | nil =>
    cases h
    exact f
  | cons p ps ih =>
    cases h with
    | eval e rest => exact .eval e (ih rest)
    | stmt s rest => exact .stmt s (ih rest)

theorem operands (h : ∀ p ∈ ps, Eval p 0 1) (f : Fits cs ((d + ps.length) :: ds)) :
    Fits (ps ++ cs) (d :: ds) := by
  induction ps generalizing d with
  | nil => simpa using f
  | cons p ps ih =>
    refine .eval (m := 0) (h p (by simp)) (ih (fun q hq => h q (by simp [hq])) ?_)
    rwa [List.length_cons, Nat.add_comm ps.length, ← Nat.add_assoc] at f

theorem declarations (h : ∀ p ∈ ps, Eval p 0 0) (f : Fits cs (d :: ds)) :
    Fits (ps ++ cs) (d :: ds) := by
  induction ps with
  | nil => exact f
  | cons p ps ih => exact .eval (m := 0) (h p (by simp)) (ih fun q hq => h q (by simp [hq]))

theorem operands_of_cases (h : ∀ p ∈ ps, Clause p)
    (f : Fits cs ((d + (ps.map Code.caseOperands).sum) :: ds)) :
    Fits (ps.flatMap Code.caseParts ++ cs) (d :: ds) := by
  have total : (ps.flatMap Code.caseParts).length = (ps.map Code.caseOperands).sum := by
    rw [List.length_flatMap]
    exact congrArg List.sum (List.map_congr_left fun p hp => (h p hp).parts.2)
  refine operands (fun q hq => ?_) (by rwa [total])
  obtain ⟨p, hp, hq⟩ := List.mem_flatMap.1 hq
  exact (h p hp).parts.1 q hq

/-! ## Inversion -/

theorem of_simple (f : Fits (.node t fs ks ps :: cs) (x :: ds)) (h : t.operands? fs = some (k, r)) :
    ∃ d, x = d + k ∧ Fits cs ((d + r) :: ds) := by
  cases f with
  | eval e f =>
    obtain ⟨rfl, rfl⟩ := e.of_simple h
    exact ⟨_, rfl, f⟩
  | stmt s => simp [s.not_simple] at h
  | loop l =>
    cases l
    simp [Tag.operands?] at h
  | _ => simp [Tag.operands?] at h

theorem of_split {t' : Tag} {fs' : List UInt64} {ops : List Code}
    (f : Fits (.node t fs ks ps :: cs) (x :: ds)) (h : t.split? fs ps = some (t', fs', ops)) :
    ∃ n, (∀ p ∈ ops, Eval p 0 1) ∧ t'.operands? fs' = some (ops.length, n) ∧
    Fits cs ((x + n) :: ds) := by
  cases f with
  | eval e f =>
    obtain ⟨rfl, inner, second⟩ := e.of_split h
    exact ⟨_, inner, second, f⟩
  | stmt s => simp [s.not_split] at h
  | loop l =>
    cases l
    simp [Tag.split?] at h
  | _ => simp [Tag.split?] at h

/-- Nodes of other kinds are statements, and no operands wait below them. -/
theorem of_stmt (f : Fits (.node t fs ks ps :: cs) (x :: ds)) (ht : t.operands? fs = none)
    (ht' : t.split? fs ps = none)
    (other : t ∉ [.logicalI, .functionLit, .sequence, .exitScopeI, .markerI,
      .forLoopI, .returnFrom, .returnFromI, .restoreEnvI]) :
    ∃ d ds', ds = d :: ds' ∧ Acts (.node t fs ks ps) x ∧ Fits cs (0 :: d :: ds') := by
  cases f with
  | eval e => cases e <;> simp_all
  | stmt s f => exact ⟨_, _, rfl, s, f⟩
  | loop l =>
    cases l
    simp at other
  | _ => simp at other

theorem of_loop (f : Fits (.node .forLoopI fs ks ps :: cs) (x :: ds)) :
    ∃ d ds', ds = d :: ds' ∧ x = 1 ∧ Loop (.node .forLoopI fs ks ps) ∧ Fits cs (0 :: d :: ds') := by
  cases f with
  | eval e => cases e <;> simp_all [Tag.operands?, Tag.split?]
  | stmt s => cases s
  | loop l f => exact ⟨_, _, rfl, rfl, l, f⟩

theorem of_marker (f : Fits (.node .markerI fs ks ps :: cs) (x :: ds)) :
    ∃ d ds', ds = d :: ds' ∧ x = 0 ∧ Fits cs (0 :: d :: ds') := by
  cases f with
  | eval e => cases e <;> simp_all [Tag.operands?, Tag.split?]
  | stmt s => cases s
  | marker f => exact ⟨_, _, rfl, rfl, f⟩
  | loop l => cases l

theorem of_restore (f : Fits (.node .restoreEnvI fs ks ps :: cs) (x :: ds)) :
    ∃ d ds', ds = d :: ds' ∧ x = 1 ∧ Fits cs ((d + 1) :: ds') := by
  cases f with
  | eval e => cases e <;> simp_all [Tag.operands?, Tag.split?]
  | stmt s => cases s
  | loop l => cases l
  | restoreEnvI f => exact ⟨_, _, rfl, rfl, f⟩

theorem of_returnFrom {value : Code} (f : Fits (.node .returnFrom fs ks [value] :: cs) (x :: ds)) :
    ∃ y d ds', ds = d :: ds' ∧ x = 0 ∧ (value ≠ .nothing → Eval value 0 1) ∧
    Fits cs (y :: d :: ds') := by
  cases f with
  | eval e => cases e <;> simp_all [Tag.operands?, Tag.split?]
  | stmt s f =>
    cases s with
    | returnFrom h => exact ⟨_, _, _, rfl, rfl, h, f⟩
  | loop l => cases l
  | returnNil f => exact ⟨_, _, _, rfl, rfl, by simp, f⟩

theorem of_returnFromI (f : Fits (.node .returnFromI fs ks ps :: cs) (x :: ds)) :
    ∃ y d ds', ds = d :: ds' ∧ x = 1 ∧ Fits cs (y :: d :: ds') := by
  cases f with
  | eval e => cases e <;> simp_all [Tag.operands?, Tag.split?]
  | stmt s => cases s
  | loop l => cases l
  | returnFromI f => exact ⟨_, _, _, rfl, rfl, f⟩

theorem of_logicalI {right : Code} (f : Fits (.node .logicalI fs ks [right] :: cs) (x :: ds)) :
    ∃ d, x = d + 1 ∧ Eval right 0 1 ∧ Fits cs ((d + 1) :: ds) := by
  cases f with
  | eval e f =>
    cases e with
    | logicalI h => exact ⟨_, rfl, h, f⟩
    | _ => simp_all [Tag.operands?, Tag.split?]
  | stmt s => cases s
  | loop l => cases l

theorem of_selectI (f : Fits (.node .selectI fs ks ps :: cs) (x :: ds)) :
    ∃ d ds', ds = d :: ds' ∧ x = (ps.map Code.caseOperands).sum ∧ (∀ p ∈ ps, Clause p) ∧
      Fits cs (0 :: d :: ds') := by
  obtain ⟨d, ds, rfl, s, f⟩ := f.of_stmt rfl rfl (by simp)
  cases s with
  | selectI h e => exact ⟨_, _, rfl, e, h, f⟩

/-- A node that is dropped leaves those below it to the same calls, unless it ends one. -/
theorem drop_one (f : Fits (c :: cs) (x :: ds)) (h : c.tag ≠ .restoreEnvI) : ∃ y,
    Fits cs (y :: ds) := by
  cases f with
  | restoreEnvI => exact absurd rfl h
  | eval _ f | stmt _ f | exit f | marker f | loop _ f | returnNil f | returnFromI f => exact ⟨_, f⟩

theorem drop {pre : List Code} (f : Fits (pre ++ cs) (x :: ds))
    (h : ∀ p ∈ pre, p.tag ≠ .restoreEnvI) :
    ∃ y, Fits cs (y :: ds) := by
  induction pre generalizing x with
  | nil => exact ⟨x, f⟩
  | cons p pre ih =>
    obtain ⟨y, f⟩ := f.drop_one (h p (by simp))
    exact ih f fun q hq => h q (by simp [hq])

end Fits

/-! ## What closes nothing -/

/-- Whether a node closes a scope or a call. -/
def Tag.closes (t : Tag) : Bool := t ∈ [.exitScopeI, .restoreEnvI]

theorem Tag.not_closes (h : t.operands? fs = some (k, r)) : t.closes = false := by
  cases t <;> first | rfl | cases h

theorem Eval.not_closes (e : Eval c m n) : c.tag.closes = false := by
  cases e with
  | simple h => exact Tag.not_closes h
  | @split t _ _ _ _ _ _ _ h =>
    cases t <;> first | rfl | cases h
  | _ => rfl

theorem Acts.not_closes (s : Acts c m) : c.tag.closes = false := by cases s <;> rfl

theorem Runs.not_closes (h : Runs c m) : c.tag.closes = false := by
  cases h with
  | eval e => exact e.not_closes
  | stmt s => exact s.not_closes

theorem Chunk.not_closes (h : Chunk ps m) : ∀ p ∈ ps, p.tag.closes = false := by
  induction ps generalizing m with
  | nil => simp
  | cons p ps ih =>
    cases h with
    | eval e rest => exact List.forall_mem_cons.2 ⟨e.not_closes, ih rest⟩
    | stmt s rest => exact List.forall_mem_cons.2 ⟨s.not_closes, ih rest⟩

theorem Runs.optional_not_closes (h : c ≠ .nothing → Runs c m) : ∀ p ∈ [c].filter Code.isThere,
    p.tag.closes = false := by
  intro p hp
  obtain ⟨hp, there⟩ := List.mem_filter.1 hp
  obtain rfl := List.mem_singleton.1 hp
  refine (h ?_).not_closes
  rintro rfl
  cases there

/-! ## Nodes with parts -/

namespace Fits

theorem of_functionLit (f : Fits (.node .functionLit fs ks ps :: cs) (x :: ds)) :
    Fits cs ((x + 1) :: ds) := by
  cases f with
  | eval e f =>
    cases e with
    | functionLit => exact f
    | _ => simp_all [Tag.operands?, Tag.split?]
  | stmt s => cases s
  | loop l => cases l

theorem of_logical {left right : Code}
    (f : Fits (.node .binary fs ks [left, right] :: cs) (x :: ds)) :
    Eval left 0 1 ∧ Eval right 0 1 ∧ Fits cs ((x + 1) :: ds) := by
  cases f with
  | eval e f =>
    cases e with
    | split h inner second =>
      obtain ⟨hl, hr, rfl⟩ := logical_inv h inner second
      exact ⟨hl, hr, f⟩
    | _ => simp_all [Tag.operands?]
  | stmt s => cases s
  | loop l => cases l

/-- The nodes of a sequence are declarations or statements, and close nothing. -/
theorem of_sequence (f : Fits (.node .sequence fs ks ps :: cs) (x :: ds)) :
    (∀ p ∈ ps, p.tag.closes = false) ∧ Fits (ps ++ cs) (x :: ds) := by
  cases f with
  | eval e f =>
    cases e with
    | sequence h => exact ⟨fun p hp => (h p hp).not_closes, declarations h f⟩
    | _ => simp_all [Tag.operands?, Tag.split?]
  | stmt s f =>
    cases s with
    | sequence h => exact ⟨h.not_closes, chunk h f⟩
  | loop l => cases l

/-- One turn of a loop: the body runs above the marker, and then the loop goes on. -/
theorem turn {cond update body marker var : Code} {copies : List Code}
    (l : Loop (.node .forLoopI fs ks (cond :: update :: body :: marker :: var :: copies)))
    (f : Fits cs (0 :: d :: ds)) :
    let nodes := body :: marker :: ([update].filter Code.isThere ++
      [cond, .node .forLoopI fs ks (cond :: update :: body :: marker :: var :: copies)])
    (∀ p ∈ nodes, p.tag.closes = false) ∧ Fits (nodes ++ cs) (0 :: d :: ds) := by
  intro nodes
  cases id l with
  | intro hc hu hb _ =>
    refine ⟨List.forall_mem_cons.2 ⟨hb.not_closes, List.forall_mem_cons.2 ⟨rfl,
      List.forall_mem_append.2 ⟨Runs.optional_not_closes hu, ?_⟩⟩⟩, .runs hb (.marker ?_)⟩
    · simpa using ⟨hc.not_closes, rfl⟩
    · rw [List.append_eq, List.append_assoc]
      exact .optional hu (.eval (d := 0) (m := 0) hc (.loop l f))

/-- What the cases of a `select` evaluate first. -/
theorem select (h : ∀ p ∈ ps, Clause p) (f : Fits cs (0 :: d :: ds)) :
    let nodes := ps.flatMap Code.caseParts ++ [.node .selectI fs ks ps]
    (∀ q ∈ nodes, q.tag.closes = false) ∧ Fits (nodes ++ cs) (0 :: d :: ds) := by
  refine ⟨List.forall_mem_append.2 ⟨fun q hq => ?_, List.forall_mem_singleton.2 rfl⟩, ?_⟩
  · obtain ⟨p, hp, hq⟩ := List.mem_flatMap.1 hq
    exact ((h p hp).parts.1 q hq).not_closes
  · rw [List.append_assoc]
    exact operands_of_cases h (.stmt (.selectI h (Nat.zero_add _)) f)

/-- The body of the default case, if there is one. -/
theorem default (h : ∀ p ∈ ps, Clause p) (f : Fits cs (0 :: d :: ds))
    (bodies : ∀ b ∈ new, ∃ fs ks, .node .caseDefault fs ks [b] ∈ ps) (one : new.length ≤ 1) :
    (∀ b ∈ new, b.tag.closes = false) ∧ Fits (new ++ cs) (0 :: d :: ds) := by
  rcases new with _ | ⟨b, _ | ⟨b', bs⟩⟩
  · exact ⟨by simp, f⟩
  · obtain ⟨fs, ks, hb⟩ := bodies b (by simp)
    have runs := (h _ hb).default_inv
    exact ⟨by simpa using runs.not_closes, .runs runs f⟩
  · simp at one

end Fits

/-! ## One node -/

/-- A node finds its operands, and what it turns into takes what is left and closes nothing. -/
theorem Expands.fits (e : Expands c k r new) (f : Fits (c :: cs) (x :: ds)) :
    ∃ d, x = d + k ∧ (∀ p ∈ new, p.tag.closes = false) ∧ Fits (new ++ cs) ((d + r) :: ds) := by
  cases e with
  | simple h =>
    obtain ⟨d, e, g⟩ := f.of_simple h
    exact ⟨d, e, by simp, g⟩
  | split h same =>
    obtain ⟨n, inner, second, g⟩ := f.of_split h
    have second := same.trans second
    refine ⟨x, rfl, List.forall_mem_append.2 ⟨fun p hp => (inner p hp).not_closes, by
      simpa [Code.tag] using Tag.not_closes second⟩, ?_⟩
    rw [List.append_assoc]
    exact .operands inner (.eval (.simple second) g)
  | functionLit => exact ⟨x, rfl, by simp, f.of_functionLit⟩
  | logical =>
    obtain ⟨hl, hr, g⟩ := f.of_logical
    exact ⟨x, rfl, by simpa using ⟨hl.not_closes, rfl⟩,
      .eval (m := 0) hl (.eval (.logicalI hr) g)⟩
  | decided =>
    obtain ⟨d, rfl, -, g⟩ := f.of_logicalI
    exact ⟨d, rfl, by simp, g⟩
  | undecided =>
    obtain ⟨d, rfl, h, g⟩ := f.of_logicalI
    exact ⟨d, rfl, by simpa using h.not_closes, .eval (m := 0) h g⟩
  | sequence => exact ⟨x, rfl, f.of_sequence⟩
  | ifElse =>
    obtain ⟨d, ds, rfl, s, g⟩ := f.of_stmt rfl rfl (by simp)
    cases s with
    | ifElse hc hb ho =>
      exact ⟨0, rfl, by
        simpa using ⟨hc.not_closes, rfl⟩, .eval (d := 0) (m := 0) hc (.stmt (.ifElseI hb ho) g)⟩
  | taken =>
    obtain ⟨d, ds, rfl, s, g⟩ := f.of_stmt rfl rfl (by simp)
    cases s with
    | ifElseI hb ho => exact ⟨0, rfl, by simpa using hb.not_closes, .runs hb g⟩
  | otherwise =>
    obtain ⟨d, ds, rfl, s, g⟩ := f.of_stmt rfl rfl (by simp)
    cases s with
    | ifElseI hb ho => exact ⟨0, rfl, Runs.optional_not_closes ho, .optional ho g⟩
  | ended =>
    obtain ⟨d, ds, rfl, rfl, -, g⟩ := f.of_loop
    exact ⟨0, rfl, by simp, g⟩
  | turn =>
    obtain ⟨d, ds, rfl, rfl, l, g⟩ := f.of_loop
    exact ⟨0, rfl, Fits.turn l g⟩
  | marker =>
    obtain ⟨d, ds, rfl, rfl, g⟩ := f.of_marker
    exact ⟨0, rfl, by simp, g⟩
  | returnNil =>
    obtain ⟨y, d, ds, rfl, rfl, -, g⟩ := f.of_returnFrom
    exact ⟨0, rfl, List.forall_mem_singleton.2 rfl, .returnFromI g⟩
  | returnValue given =>
    obtain ⟨y, d, ds, rfl, rfl, h, g⟩ := f.of_returnFrom
    exact ⟨0, rfl, by
      simpa using ⟨(h given).not_closes, rfl⟩, .eval (d := 0) (m := 0) (h given) (.returnFromI g)⟩
  | chanSend =>
    obtain ⟨d, ds, rfl, s, g⟩ := f.of_stmt rfl rfl (by simp)
    cases s with
    | chanSend hc hv => exact ⟨0, rfl, by simpa using ⟨hc.not_closes, hv.not_closes, rfl⟩,
        .eval (d := 0) (m := 0) hc (.eval (d := 1) (m := 0) hv (.stmt .chanSendI g))⟩
  | chanSendI =>
    obtain ⟨d, ds, rfl, s, g⟩ := f.of_stmt rfl rfl (by simp)
    cases s with
    | chanSendI => exact ⟨0, rfl, by simp, g⟩
  | select =>
    obtain ⟨d, ds, rfl, s, g⟩ := f.of_stmt rfl rfl (by simp)
    cases s with
    | select h => exact ⟨0, rfl, Fits.select h g⟩
  | sent hm =>
    obtain ⟨d, ds, rfl, rfl, h, g⟩ := f.of_selectI
    have runs := (h _ hm).send_inv
    exact ⟨0, (Nat.zero_add _).symm, by simpa using runs.not_closes, .runs runs g⟩
  | received hm =>
    obtain ⟨d, ds, rfl, rfl, h, g⟩ := f.of_selectI
    have runs := (h _ hm).receive_inv
    exact ⟨0, (Nat.zero_add _).symm, by simpa using runs.not_closes, .runs runs g⟩
  | default hm one =>
    obtain ⟨d, ds, rfl, rfl, h, g⟩ := f.of_selectI
    exact ⟨0, (Nat.zero_add _).symm, Fits.default h g hm one⟩

/-- The node that closes a scope stands between what runs inside and what runs outside, and the
others close nothing. -/
theorem Opens.fits {above below : List Code} (o : Opens c k above below)
    (f : Fits (c :: cs) (x :: ds)) :
    ∃ d, x = d + k ∧ (∀ p ∈ above ++ below, p.tag.closes = false) ∧
      Fits (above ++ .node .exitScopeI fs ks ps :: (below ++ cs)) (d :: ds) := by
  cases o with
  | block =>
    obtain ⟨d, ds, rfl, s, g⟩ := f.of_stmt rfl rfl (by simp)
    cases s with
    | block h => exact ⟨_, rfl, by simpa using h.not_closes, .runs h (.exit g)⟩
  | forLoop copies =>
    obtain ⟨d, ds, rfl, s, g⟩ := f.of_stmt rfl rfl (by simp)
    cases s with
    | forLoop hi hc hu hb =>
      refine ⟨0, rfl, ?_, ?_⟩
      · rw [List.append_nil]
        exact List.forall_mem_append.2 ⟨Runs.optional_not_closes hi, by
          simpa using ⟨hc.not_closes, rfl⟩⟩
      · rw [List.append_assoc]
        exact .optional hi (.eval (d := 0) (m := 0) hc (.loop (.intro hc hu hb copies) (.exit g)))
  | turn given =>
    obtain ⟨d, ds, rfl, rfl, l, g⟩ := f.of_loop
    cases id l with
    | intro hc hu hb copies =>
      cases copies with
      | none => exact absurd rfl given
      | some hr _ ht _ ha _ =>
        refine ⟨0, rfl, List.forall_mem_append.2
          ⟨by simpa using ⟨hb.not_closes, rfl, hr.not_closes⟩, ?_⟩, ?_⟩
        · exact List.forall_mem_cons.2 ⟨ht.not_closes,
            List.forall_mem_cons.2 ⟨ha.not_closes, List.forall_mem_append.2
            ⟨Runs.optional_not_closes hu, by simpa using ⟨hc.not_closes, rfl⟩⟩⟩⟩
        refine .runs hb (.marker
          (.eval (d := 0) (m := 0) hr (.exit (.eval (d := 1) (m := 0) ht (.eval (d := 0) ha ?_)))))
        rw [List.append_eq, List.append_assoc]
        exact .optional hu (.eval (d := 0) (m := 0) hc (.loop l g))

/-- A call that is entered has no operands waiting, and leaves one to the caller. -/
theorem Fits.enter {body : Code} {argc : UInt64} {fs' : List UInt64} {ks' ks'' line : List Address}
    (f : Fits (.node .callI [argc] ks ps :: cs) (x :: ds)) (h : Runs body 0) :
    ∃ d, x = d + (argc.toNat + 1) ∧ Fits (body :: .node .returnFrom fs ks'' [.nothing] ::
      .node .restoreEnvI fs' ks' [.scope line] :: cs) (0 :: d :: ds) := by
  obtain ⟨d, rfl, g⟩ := f.of_simple rfl
  exact ⟨d, rfl, .runs h (.returnNil (.restoreEnvI g))⟩

end GoMachine
