import GoMachine.Proofs.Tasks.Deadlock
/-!
# Scopes and calls inside of others

A block, a loop, one turn of a loop and a call bring a frame, and leave a node on the control stack
that goes back to the frame in force before. `Nesting` records both frames when such a node is put
down. The nodes close what was recorded for them and nothing else: if a thread went on from its
current frame along its control stack, each scope would be closed in the frame that it brought, and
in the end the thread would be in the frame that it started in. So it is wherever `break`,
`continue` or `return` leave it.

* `Task.Makes.nests`: what is put on a control stack, or taken off it, fits in with what was
  recorded.
* `Machine.scopes_nest`: the scopes and calls of all threads.
-/
namespace GoMachine

/-- A scope or a call that a thread is in: the frame that it brought, and the one in force before.
-/
inductive Mark where
  | scope (inner outer : Address)
  | call (inner outer : Address)

/-- The frame that came with a scope or a call. -/
def Mark.inner : Mark → Address
  | scope f _ | call f _ => f

/-- The frame that a thread started in, and the scopes and calls that it is in, the innermost first.
-/
structure Nesting where
  start : Address := .nil
  marks : List Mark := []

/-- What is recorded in a step, given the nodes that close something and the current frame before
and after. A node that comes on top closes what came with the new frame. Those that are gone have no
scope or call any more. -/
def Nesting.next (N : Nesting) (before after : List Tag) (f f' : Address) : Nesting :=
  { N with marks :=
      if before.length < after.length then (if after.head? = some .exitScopeI then .scope f'
      f else .call f' f) :: N.marks
      else N.marks.drop (before.length - after.length) }

/-- The tags of the nodes that close something. -/
def closers (es : List Entry) : List Tag := (es.map fun e => e.code.tag).filter Tag.closes

/-- The nodes lead from a frame with those around it to the frame `start`, and close what the marks
say. -/
inductive Nests (start : Address) : List Entry → List Address → List Mark → Prop
  | done {line : List Address} : Nests start [] (start :: line) []
  | exit {e : Entry} {es : List Entry} {f : Address} {line : List Address} {marks : List Mark} :
      e.code.tag = .exitScopeI →
    Nests start es line marks →
    Nests start (e :: es) (f :: line) (.scope f (line.headD .nil) :: marks)
  | restore {node f : Address} {fs : List UInt64} {ks line line' : List Address} {es : List Entry}
      {marks : List Mark} : f ∈ line →
    Nests start es line' marks →
    Nests start (⟨node, .node .restoreEnvI fs ks [.scope line']⟩ :: es) line
    (.call f (line'.headD .nil) :: marks)
  | other {e : Entry} {es : List Entry} {line : List Address} {marks : List Mark} :
      e.code.tag.closes = false →
    Nests start es line marks → Nests start (e :: es) line marks

variable {s a t u f node : Address} {es pre E : List Entry} {e : Entry} {line line' : List Address}
    {marks : List Mark}
  {τ τ' : Task} {c : Code} {σ σ' : Address → Task} {m m' : Machine} {h : Heap} {ts : List Address}
  {more : Bool}

theorem closers_cons : closers (e :: es) = if e.code.tag.closes then e.code.tag :: closers
    es else closers es := by
  simp [closers, List.filter_cons]

theorem closers_append : closers (pre ++ es) = closers pre ++ closers es := by
  simp [closers]

theorem closers_plain (plain : ∀ e ∈ E, e.code.tag.closes = false) : closers E = [] := by
  simpa [closers] using plain

/-- As many scopes are closed as nodes close scopes, where none of them closes a call. -/
theorem length_closers (inner : ∀ p ∈ pre, p.code.tag ≠ .restoreEnvI) :
    (closers pre).length = pre.countP Entry.closes := by
  induction pre with
  | nil => rfl
  | cons p pre ih =>
    have := ih fun q hq => inner q (by simp [hq])
    have first : p.code.tag.closes = p.closes := by
      simp [Tag.closes, Entry.closes, inner p (by simp)]
    rw [closers, List.map_cons, List.filter_cons, List.countP_cons, first]
    split <;> simp_all [closers]

namespace Nests

theorem plain_iff (plain : ∀ e ∈ E, e.code.tag.closes = false) : Nests s (E ++ es) line marks ↔
    Nests s es line marks := by
  induction E with
  | nil => rfl
  | cons e E ih =>
    have first := plain e (by simp)
    rw [List.cons_append, ← ih fun e he => plain e (by simp [he])]
    refine ⟨fun N => ?_, .other first⟩
    cases N with
    | exit h => simp [h, Tag.closes] at first
    | restore => simp [Code.tag, Tag.closes] at first
    | other _ N => exact N

/-- All frames that are recorded are among those that the thread comes back to. -/
theorem mem_frames (N : Nests s es line marks) :
    ∀ f ∈ s :: marks.map Mark.inner, f ∈ line ++ es.flatMap fun e => e.code.frames := by
  induction N with
  | done => simp
  | exit | restore | other =>
    simp only [List.map_cons, Mark.inner, List.mem_cons, List.mem_append, List.flatMap_cons,
      Code.frames] at *
    grind

theorem line_ne_nil (N : Nests s es line marks) : line ≠ [] := by
  induction N with
  | done | exit => simp
  | restore mem => exact List.ne_nil_of_mem mem
  | other _ _ ih => exact ih

/-- Scopes are closed with the nodes that close them. -/
theorem drop (N : Nests s (pre ++ es) line marks) (inner : ∀ p ∈ pre, p.code.tag ≠ .restoreEnvI) :
    Nests s es (line.drop (pre.countP Entry.closes)) (marks.drop (pre.countP Entry.closes)) := by
  induction pre generalizing line marks with
  | nil => exact N
  | cons p pre ih =>
    have rest : ∀ q ∈ pre, q.code.tag ≠ .restoreEnvI := fun q hq => inner q (by simp [hq])
    rw [List.cons_append] at N
    cases N with
    | exit h N =>
      rw [List.countP_cons_of_pos (by simp [Entry.closes, h])]
      exact ih N rest
    | restore => exact absurd rfl (inner _ (List.mem_cons_self ..))
    | other h N =>
      have stays : ¬p.closes := fun h' => by simp_all [Entry.closes, Tag.closes]
      rw [List.countP_cons_of_neg stays]
      exact ih N rest

/-- The end of a call leads back to the caller from all scopes inside. -/
theorem widen (N : Nests s (e :: es) line marks) (h : e.code.tag = .restoreEnvI)
    (sub : line ⊆ line') :
    Nests s (e :: es) line' marks := by
  cases N with
  | exit h' => simp [h] at h'
  | restore mem N => exact .restore (sub mem) N
  | other h' => simp [h, Tag.closes] at h'

end Nests

/-- The nodes of a thread fit in with what was recorded, and no two frames that were recorded are
the same. -/
structure Nested (es : List Entry) (line : List Address) (N : Nesting) : Prop where
  nests : Nests N.start es line N.marks
  distinct : (N.start :: N.marks.map Mark.inner).Nodup

namespace Nested

variable {N N' : Nesting} {as bs : List Tag} {g : Address} {n : Nat}

/-- Some scopes and calls are gone. -/
theorem next_drop (len : bs.length + n = as.length)
    (distinct : (N.start :: N.marks.map Mark.inner).Nodup)
    (nests : Nests N.start es line (N.marks.drop n)) : Nested es line (N.next as bs f g) := by
  have marks : (N.next as bs f g).marks = N.marks.drop n := by
    rw [Nesting.next, if_neg (by omega), show as.length - bs.length = n by omega]
  refine ⟨by rwa [marks], ?_⟩
  rw [marks]
  exact distinct.sublist (((List.drop_sublist ..).map _).cons_cons _)

/-- A scope or a call comes with a frame of its own. -/
theorem next_push {t : Tag} {τ : Task} (n : Nested τ.control τ.line N) (new : g ∉ τ.frames)
    (nests : Nests N.start es line
    ((if t = .exitScopeI then .scope g f else .call g f) :: N.marks)) :
    Nested es line (N.next as (t :: as) f g) := by
  have marks : (N.next as (t :: as) f g).marks = (if t = .exitScopeI then .scope g f else .call g
    f) :: N.marks := by
    simp [Nesting.next]
  have fresh : g ∉ N.start :: N.marks.map Mark.inner := fun mem => new (n.nests.mem_frames g mem)
  have inner : Mark.inner (if t = .exitScopeI then .scope g f else .call g f) = g := by
    split <;> rfl
  refine ⟨by rwa [marks], ?_⟩
  rw [marks, List.map_cons, inner]
  refine (List.Perm.swap ..).nodup_iff.1 (List.nodup_cons.2 ⟨fresh, n.distinct⟩)

end Nested

/-! ## One node -/

theorem Expands.not_closes {d r : Nat} {cs : List Code} (e : Expands c d r cs) :
    c.tag.closes = false := by
  cases e with
  | simple h => exact Tag.not_closes h
  | @split t _ _ _ _ _ _ _ _ _ h => cases t <;> first | rfl | cases h
  | _ => rfl

theorem Opens.not_closes {d : Nat} {A B : List Code} (o : Opens c d A B) :
    c.tag.closes = false := by
  cases o <;> rfl

/-- What a node puts on the control stack, or takes off it, fits in with what was recorded. -/
theorem Task.Makes.nests {N : Nesting} {cs : List Code} {ds : List Nat} {x : Nat}
    (made : τ.Makes c τ') (fits : Fits (c :: cs) (x :: ds))
    (n : Nested (⟨node, c⟩ :: τ.control) τ.line N) : Nested τ'.control τ'.line
      (N.next (closers (⟨node, c⟩ :: τ.control)) (closers τ'.control) (τ.line.headD .nil)
      (τ'.line.headD .nil)) := by
  have peel : c.tag.closes = false → Nested τ.control τ.line N ∧
    closers (⟨node, c⟩ :: τ.control) = closers τ.control := fun plain =>
    ⟨⟨(Nests.plain_iff (E := [⟨node, c⟩]) (by simpa using plain)).1 n.nests, n.distinct⟩, by
      simp [closers, plain]⟩
  cases made with
  | @expands d E V e =>
    obtain ⟨-, -, plain, -⟩ := e.fits fits
    have plain : ∀ p ∈ E, p.code.tag.closes = false := by simpa using plain
    obtain ⟨n, e⟩ := peel e.not_closes
    rw [e, closers_append, closers_plain plain, List.nil_append]
    exact .next_drop (n := 0) rfl n.distinct ((Nests.plain_iff plain).2 n.nests)
  | @opens d f A B y o closes new =>
    obtain ⟨-, -, plain, -⟩ := @Opens.fits c cs [] ds d x [] [] _ _ o fits
    obtain ⟨above, below⟩ := List.forall_mem_append.1 plain
    have above : ∀ p ∈ A, p.code.tag.closes = false := by simpa using above
    have below : ∀ p ∈ B, p.code.tag.closes = false := by simpa using below
    obtain ⟨n, e⟩ := peel o.not_closes
    have inside : closers (A ++ y :: (B ++ τ.control)) = .exitScopeI :: closers τ.control := by
      rw [closers_append, closers_plain above, ← List.singleton_append, closers_append,
        closers_append, closers_plain below]
      simp [closers, closes, Tag.closes]
    rw [e, inside]
    exact n.next_push new
      ((Nests.plain_iff above).2 (.exit closes ((Nests.plain_iff below).2 n.nests)))
  | @closes f line ht e =>
    have nests := n.nests
    rw [e] at nests
    generalize marked : N.marks = marks at nests
    cases nests with
    | exit _ nests =>
      refine .next_drop (n := 1) (by simp [closers, ht, Tag.closes]) n.distinct ?_
      rw [marked]
      exact nests
    | restore => cases ht
    | other h => simp [ht, Tag.closes] at h
  | @unwinds pre e rest line t kind split at' skip dropped le =>
    obtain ⟨n, e'⟩ := peel (kind.elim (fun k => by simp [k.1, Tag.closes]) fun k => by
      simp [k.1, Tag.closes])
    have inner : ∀ p ∈ pre, p.code.tag ≠ .restoreEnvI := fun p hp => (skip p hp).2
    have last : e.code.tag.closes = false :=
      at' ▸ kind.elim (fun k => by simp [k.2, Tag.closes]) fun k => by simp [k.2, Tag.closes]
    have nests := n.nests
    rw [split] at nests
    rw [e', split, closers_append, ← dropped]
    refine .next_drop (n := pre.countP Entry.closes) ?_ n.distinct ?_
    · rw [List.length_append, length_closers inner, Nat.add_comm]
      simp [closers, last]
    · exact (Nests.plain_iff (E := [e]) (by simpa using last)).1 (nests.drop inner)
  | @enters argc fs ks ps body b r e f line' y hc runs new =>
    obtain ⟨n, e'⟩ := peel (hc ▸ rfl)
    have inside : closers (⟨body, b⟩ :: ⟨r, .node .returnFrom [] [.nil] [.nothing]⟩ ::
        ⟨e, .node .restoreEnvI [] [y] [.scope τ.line]⟩ :: τ.control) =
        .restoreEnvI :: closers τ.control := by
      rw [closers_cons, if_neg (by simp [runs.not_closes]), closers_cons,
        if_neg (by simp [Code.tag, Tag.closes]), closers_cons]
      exact if_pos rfl
    rw [e', inside]
    exact n.next_push new
      (.other runs.not_closes (.other rfl (.restore (List.mem_cons_self ..) n.nests)))
  | @returns pre e rest ht split at' inner =>
    obtain ⟨n, e'⟩ := peel (by simp [ht, Tag.closes])
    have nests := n.nests
    rw [split] at nests
    rw [e', split, closers_append]
    refine .next_drop (n := pre.countP Entry.closes) ?_ n.distinct
      ((nests.drop inner).widen at' (List.drop_subset ..))
    rw [List.length_append, length_closers inner, Nat.add_comm]
  | @restores fs ks line hc =>
    subst hc
    have nests := n.nests
    generalize marked : N.marks = marks, τ.line = inner at nests
    cases nests with
    | exit h => cases h
    | restore _ nests =>
      refine .next_drop (n := 1) (by simp [closers, Code.tag, Tag.closes]) n.distinct ?_
      rw [marked]
      exact nests
    | other h => cases h

/-- A turn fits in with what was recorded. -/
theorem Task.Turns.nests {N : Nesting} {cs : List Code} {ds : List Nat} {x : Nat}
    (turns : τ.Turns c τ')
    (fits : Fits (c :: cs) (x :: ds)) (n : Nested (⟨node, c⟩ :: τ.control) τ.line N) :
    Nested τ'.control τ'.line
      (N.next (closers (⟨node, c⟩ :: τ.control)) (closers τ'.control) (τ.line.headD .nil)
      (τ'.line.headD .nil)) := by
  have stays : c.tag.closes = false → Nested τ.control τ.line
      (N.next (closers (⟨node, c⟩ :: τ.control)) (closers τ.control) (τ.line.headD .nil)
      (τ.line.headD .nil)) := fun plain =>
    .next_drop (n := 0) (by rw [closers_cons, if_neg (by simp [plain]), Nat.add_zero]) n.distinct
      ((Nests.plain_iff (E := [⟨node, c⟩]) (by simpa using plain)).1 n.nests)
  cases turns with
  | goes made goes =>
    obtain ⟨p, rfl⟩ := goes
    exact made.nests fits n
  | parks _ made => exact made.nests fits n
  | receives ht => exact stays (by simp [ht, Tag.closes])
  | selects hc => exact stays (hc ▸ rfl)

theorem Task.Woken.nests {N : Nesting} {f g : Address} (woken : τ.Woken τ')
    (n : Nested τ.control τ.line N) :
    Nested τ'.control τ'.line (N.next (closers τ.control) (closers τ'.control) f g) := by
  have runs : ∀ {node c d}, Runs c d → Nested (⟨node, c⟩ :: τ.control) τ.line
      (N.next (closers τ.control) (closers (⟨node, c⟩ :: τ.control)) f g) := fun runs =>
    .next_drop (n := 0) (by rw [closers_cons, if_neg
    (by simp [runs.not_closes]), Nat.add_zero]) n.distinct
      (.other runs.not_closes n.nests)
  cases woken with
  | turn | value => exact .next_drop (n := 0) rfl n.distinct n.nests
  | sent _ r | received _ r => exact runs r

/-- A thread that starts has nothing to close, and is in a frame that the one which makes it is in.
-/
theorem Task.Starts.nests (starts : τ.Starts τ') {N : Nesting} (n : Nested es τ.line N) :
    Nested τ'.control τ'.line ⟨τ'.line.headD .nil, []⟩ := by
  obtain ⟨⟨a, b, argc, control, -⟩, line, -⟩ := starts
  rw [control, line]
  obtain ⟨f, line, e⟩ := List.exists_cons_of_ne_nil n.nests.line_ne_nil
  rw [e]
  exact ⟨.other rfl (.other rfl .done), by simp⟩

/-! ## What records say -/

namespace Heap

/-- The nodes on a control stack. -/
def nodes (h : Heap) (u : Address) : List Address :=
    ((Thread.control u >>= Stack.values) h).toOption.getD []

/-- The tags of the nodes on a control stack that close something. -/
def closersOf (h : Heap) (u : Address) : List Tag :=
    ((h.nodes u).filterMap fun a => (h.tag a).toOption).filter Tag.closes

/-- The current frame of a thread. -/
def frameOf (h : Heap) (u : Address) : Address := (Thread.frame u h).toOption.getD .nil

/-- A thread that goes on from a frame along its nodes comes to the frame `start` in the end. Each
scope is closed in the frame that came with it. -/
inductive Unwinds (h : Heap) (start : Address) : List Address → Address → List Mark → Prop
  | done : Unwinds h start [] start []
  | scope {node f g : Address} {nodes : List Address} {marks : List Mark} :
      h.tag node = .ok .exitScopeI → f ≠ .nil →
    Frame.parent f h = .ok g → Unwinds h start nodes g marks →
    Unwinds h start (node :: nodes) f (.scope f g :: marks)
  | call {node f g inner : Address} {nodes : List Address} {marks : List Mark} :
      h.tag node = .ok .restoreEnvI →
    Query.child node .restoreEnvI 0 h = .ok g → Unwinds h start nodes g marks →
    Unwinds h start (node :: nodes) f (.call inner g :: marks)
  | other {node f : Address} {nodes : List Address} {marks : List Mark} {t : Tag} :
      h.tag node = .ok t → t.closes = false →
    Unwinds h start nodes f marks → Unwinds h start (node :: nodes) f marks

end Heap

/-- The current frame is that of the innermost scope, or the one that the thread started in. -/
theorem Heap.Unwinds.current {nodes : List Address} (k : h.Unwinds s nodes a marks) :
    (∀ f g rest, marks = .scope f g :: rest → a = f) ∧ (marks = [] → a = s) := by
  induction k with
  | done => simp
  | scope => simp_all
  | call => simp
  | other _ _ _ ih => exact ih

/-- The tag of the node that closes a scope or ends a call. -/
def Mark.closer : Mark → Tag
  | scope _ _ => .exitScopeI
  | call _ _ => .restoreEnvI

/-- The nodes that close something are those of the marks. -/
theorem Heap.Unwinds.closers {nodes : List Address} (k : h.Unwinds s nodes a marks) :
    (nodes.filterMap fun a => (h.tag a).toOption).filter Tag.closes = marks.map Mark.closer := by
  induction k with
  | done => rfl
  | scope tag _ _ _ ih | call tag _ _ ih =>
    simpa [tag, Except.toOption, Tag.closes, Mark.closer] using ih
  | other tag plain _ ih => simpa [tag, Except.toOption, plain] using ih

theorem Mark.of_closers (e : marks.map Mark.closer = [.exitScopeI, .restoreEnvI]) :
    ∃ f g inner outer, marks = [.scope f g, .call inner outer] := by
  obtain _ | ⟨_ | _, _ | ⟨_ | _, _ | _⟩⟩ := marks <;> simp [Mark.closer] at e ⊢

theorem Fits.isNode {cs : List Code} {ds : List Nat} (f : Fits cs ds) : ∀ c ∈ cs, c.IsNode := by
  induction f with
  | done => simp
  | eval e _ ih => exact List.forall_mem_cons.2 ⟨e.isNode, ih⟩
  | stmt s _ ih => exact List.forall_mem_cons.2 ⟨s.isNode, ih⟩
  | loop l _ ih =>
    cases l
    exact List.forall_mem_cons.2 ⟨⟨_, _, _, _, rfl⟩, ih⟩
  | exit _ ih | marker _ ih | returnNil _ ih | returnFromI _ ih | restoreEnvI _ ih =>
    exact List.forall_mem_cons.2 ⟨⟨_, _, _, _, rfl⟩, ih⟩

/-- The tag of a node is what it says. -/
theorem Facts.Says.tag (sound : h.Sound) (node : Facts.Says h.body? a c) (isNode : c.IsNode) :
    h.tag a = .ok c.tag := by
  obtain ⟨t, fs, ks, ps, rfl⟩ := isNode
  cases node with
  | node ha =>
    obtain ⟨cell, hc, e⟩ := Heap.body?_eq_some.1 ha
    exact sound.tag_ok.2 (.inr ⟨cell, hc, congrArg Body.tag e⟩)

namespace Heap.Leaves

theorem nodes_eq (l : h.Leaves u τ) : h.nodes u = τ.control.map Entry.node := by
  rw [Heap.nodes, l.control]
  rfl

theorem closersOf_eq (l : h.Leaves u τ) (sound : h.Sound)
    (isNode : ∀ e ∈ τ.control, e.code.IsNode) :
    h.closersOf u = closers τ.control := by
  rw [Heap.closersOf, l.nodes_eq, List.filterMap_map, closers, ← List.filterMap_eq_map]
  refine congrArg (List.filter Tag.closes) (List.filterMap_congr fun e he => ?_)
  simp [(l.codes e he).tag sound (isNode e he), Except.toOption]

theorem frameOf_eq (l : h.Leaves u τ) : h.frameOf u = τ.line.headD .nil := by
  obtain ⟨f, read, lines⟩ := l.frame
  rw [Heap.frameOf, read, ← lines.head]
  rfl

end Heap.Leaves

/-- Nodes and frames that fit in with what was recorded are read so. -/
theorem Nests.unwinds (sound : h.Sound) (nests : Nests s es line marks)
    (codes : ∀ e ∈ es, Facts.Says h.body? e.node e.code)
    (isNode : ∀ e ∈ es, e.code.IsNode) (lines : Facts.Lines h.body? a line) :
    h.Unwinds s (es.map Entry.node) a marks := by
  induction nests generalizing a with
  | done =>
    obtain ⟨rfl, -⟩ := lines
    exact .done
  | exit ht _ ih =>
    have tag := (codes _ (List.mem_cons_self ..)).tag sound (isNode _ (List.mem_cons_self ..))
    obtain ⟨rfl, fs, parent, entries, hf, lines⟩ := lines
    have notNil : a ≠ .nil := by
      rintro rfl
      simp [sound.body?_nil] at hf
    rw [← lines.head]
    exact .scope (ht ▸ tag) notNil (sound.child_body hf rfl)
      (ih (fun e he => codes e (List.mem_cons_of_mem _ he))
      (fun e he => isNode e (List.mem_cons_of_mem _ he)) lines)
  | restore _ _ ih =>
    have tag := (codes _ (List.mem_cons_self ..)).tag sound (isNode _ (List.mem_cons_self ..))
    have first := codes _ (List.mem_cons_self ..)
    cases first with
    | node ha parts =>
      cases parts with
      | cons saved emptied =>
        cases emptied
        cases saved with
        | scope lines =>
          rw [← lines.head]
          exact .call tag (sound.child_body ha rfl)
            (ih (fun e he => codes e (List.mem_cons_of_mem _ he))
            (fun e he => isNode e (List.mem_cons_of_mem _ he)) lines)
  | other plain _ ih =>
    have tag := (codes _ (List.mem_cons_self ..)).tag sound (isNode _ (List.mem_cons_self ..))
    exact .other tag plain
      (ih (fun e he => codes e (List.mem_cons_of_mem _ he))
      (fun e he => isNode e (List.mem_cons_of_mem _ he)) lines)

namespace Machine

open Classical in
/-- What is recorded for all threads in a step. A thread that is new starts in its current frame. -/
noncomputable def renest (m m' : Machine) (N : Address → Nesting) (u : Address) : Nesting :=
  if m.heap.HasTag .thread u then (N u).next (m.heap.closersOf u) (m'.heap.closersOf u)
  (m.heap.frameOf u) (m'.heap.frameOf u)
  else ⟨m'.heap.frameOf u, []⟩

/-- What is recorded while programs are loaded and run. -/
inductive Records : Machine → (Address → Nesting) → Prop
  | new {settings : Settings} {m : Machine} : Machine.new settings = .ok m → Records m fun _ => {}
  | load {m m' : Machine} {N : Address → Nesting} {program : Program} : Records m N →
      load program m = .ok () m' →
    Records m' (Function.update N m'.mainThread ⟨m'.heap.frameOf m'.mainThread, []⟩)
  | step {m m' : Machine} {N : Address → Nesting} {more : Bool} : Records m N →
      step m = .ok more m' →
    Records m' (m.renest m' N)
  | collect {m m' : Machine} {N : Address → Nesting} {k : Nat} : Records m N →
      collect m = .ok k m' → Records m' N

variable {N : Address → Nesting}

theorem Reached.records (reached : m.Reached) : ∃ N, m.Records N := by
  induction reached with
  | new made => exact ⟨_, .new made⟩
  | load _ run ih => exact ih.elim fun _ r => ⟨_, .load r run⟩
  | step _ run ih => exact ih.elim fun _ r => ⟨_, .step r run⟩
  | collect _ run ih => exact ih.elim fun _ r => ⟨_, .collect r run⟩

/-- All threads of a machine fit in with what was recorded. -/
def Nested (m : Machine) (σ : Address → Task) (N : Address → Nesting) : Prop :=
  ∀ u, m.heap.HasTag .thread u → GoMachine.Nested (σ u).control (σ u).line (N u)

/-- A thread that was not there before is one that starts. -/
theorem Follows.thread_of_nobody (g' : m'.Follows σ') (p : (σ' u).Poised)
    (thread : m'.heap.HasTag .thread u) : σ' u ≠ .nobody := by
  intro e
  obtain ⟨f, -, lines⟩ := (g'.leaves thread p.made).frame
  rw [e] at lines
  obtain ⟨-, fs, parent, entries, dead, -⟩ := lines
  simp [g'.dead] at dead

/-- What a step leaves a thread to do fits in with what was recorded. -/
theorem Passed.nests (passed : m.Passed σ σ' more) (p : ∀ u, (σ u).Poised) (nested : m.Nested σ N)
    (thread : m.heap.HasTag .thread u) : GoMachine.Nested (σ' u).control (σ' u).line
    ((N u).next (closers (σ u).control)
      (closers (σ' u).control) ((σ u).line.headD .nil) ((σ' u).line.headD .nil)) := by
  have n := nested u thread
  have stays : ∀ {τ : Task}, τ.control = (σ u).control → τ.line = (σ u).line →
    GoMachine.Nested τ.control τ.line
      ((N u).next (closers (σ u).control) (closers τ.control) ((σ u).line.headD .nil)
      (τ.line.headD .nil)) := fun hc hl => by
    rw [hc, hl]
    exact .next_drop (n := 0) rfl n.distinct n.nests
  cases passed with
  | idle _ e => exact stays (by rw [e]) (by rw [e])
  | @ended t _ _ _ _ _ e =>
    by_cases h : u = t
    · subst h
      exact stays (by rw [e, Function.update_self]) (by rw [e, Function.update_self])
    · exact stays (by rw [e, Function.update_of_ne h]) (by rw [e, Function.update_of_ne h])
  | @turn t _ e rest _ _ runs first turns joined =>
    by_cases h : u = t
    · subst h
      obtain ⟨d, ds, takes, -⟩ := (p u).supplied
      rw [Task.Takes, first] at takes
      rw [first] at n ⊢
      exact turns.nests takes n
    · rcases joined u h with same | woken | ⟨new, -⟩
      · exact stays (by rw [same]) (by rw [same])
      · exact woken.nests n
      · obtain ⟨c, hc, tag⟩ := thread
        exact absurd tag (new _ (Heap.body?_eq_some.2 ⟨c, hc, rfl⟩))

/-- So does what a thread starts with. -/
theorem Passed.nests_new (passed : m.Passed σ σ' more) (nested : m.Nested σ N)
    (nobody : ∀ u, ¬m.heap.HasTag .thread u → σ u = .nobody) (new : ¬m.heap.HasTag .thread u)
    (notNil : σ' u ≠ .nobody) :
    GoMachine.Nested (σ' u).control (σ' u).line ⟨(σ' u).line.headD .nil, []⟩ := by
  have before := nobody u new
  cases passed with
  | idle _ e => exact absurd (e ▸ before) notNil
  | @ended t _ _ _ _ _ e =>
    refine absurd ?_ notNil
    by_cases h : u = t
    · subst h
      rw [e, Function.update_self, before]
      rfl
    · rw [e, Function.update_of_ne h, before]
  | @turn t _ e rest _ _ runs first turns joined =>
    by_cases h : u = t
    · subst h
      rw [before] at first
      cases first
    · rcases joined u h with same | woken | ⟨-, starts⟩
      · exact absurd (same.trans before) notNil
      · obtain ⟨-, -, -, waits, -⟩ := woken.gains
        exact absurd (by rw [before]; rfl) waits
      · have thread : m.heap.HasTag .thread t := by
          by_contra other
          rw [nobody t other] at first
          cases first
        exact starts.nests ⟨(nested t thread).nests, (nested t thread).distinct⟩

theorem isThread_iff : Facts.IsThread m.heap.body? u ↔ m.heap.HasTag .thread u := by
  constructor
  · rintro ⟨B, hB, tag⟩
    obtain ⟨c, hc, rfl⟩ := Heap.body?_eq_some.1 hB
    exact ⟨c, hc, tag⟩
  · rintro ⟨c, hc, tag⟩
    exact ⟨_, Heap.body?_eq_some.2 ⟨c, hc, rfl⟩, tag⟩

/-- What is left to do to threads fits in with what was recorded, and nobody else has anything to
do. -/
structure Holds (m : Machine) (σ : Address → Task) (N : Address → Nesting) : Prop where
  follows : m.Follows σ
  poised : ∀ u, (σ u).Poised
  nested : m.Nested σ N
  nobody : ∀ u, ¬m.heap.HasTag .thread u → σ u = .nobody

theorem Follows.holds (g : m.Follows σ) (p : ∀ u, (σ u).Poised) (nested : m.Nested σ N) : ∃ σ,
    m.Holds σ N := by
  refine ⟨_, g.narrow, narrowed_poised p, fun u thread => ?_, fun u other =>
    Facts.narrowed_of_not (isThread_iff.not.2 other)⟩
  rw [Facts.narrowed_of_thread (isThread_iff.2 thread)]
  exact nested u thread

theorem Holds.leaves (k : m.Holds σ N) (thread : m.heap.HasTag .thread u) :
    m.heap.closersOf u = closers (σ u).control ∧ m.heap.frameOf u = (σ u).line.headD .nil := by
  obtain ⟨d, ds, takes, -⟩ := (k.poised u).supplied
  have l := k.follows.leaves thread (k.poised u).made
  exact ⟨l.closersOf_eq k.follows.sound fun e he => takes.isNode _ (List.mem_map_of_mem he),
    l.frameOf_eq⟩

/-- What was recorded fits in with what is left to do. -/
theorem Records.holds (r : m.Records N) : ∃ σ, m.Holds σ N := by
  induction r with
  | new made =>
    have g := new_follows made
    exact g.holds (fun _ => Task.poised_nobody) fun u thread =>
      absurd rfl (g.thread_of_nobody Task.poised_nobody thread)
  | @load m m' N program _ run ih =>
    obtain ⟨σ, k⟩ := ih
    obtain ⟨σ', g', loaded⟩ := k.follows.load _ _ run
    have p' := loaded.poised k.poised
    refine g'.holds p' fun u thread => ?_
    have frame := (g'.leaves thread (p' u).made).frameOf_eq
    obtain ⟨runs, -, rfl⟩ := loaded
    by_cases h : u = m'.mainThread
    · subst h
      rw [Function.update_self] at frame ⊢
      rw [frame, Function.update_self]
      exact ⟨.other runs.not_closes .done, by simp⟩
    · rw [Function.update_of_ne h, Function.update_of_ne h]
      refine k.nested u (by_contra fun other => g'.thread_of_nobody (p' u) thread ?_)
      rw [Function.update_of_ne h, k.nobody u other]
  | @step m m' N more _ run ih =>
    obtain ⟨σ, k⟩ := ih
    obtain ⟨σ', g', passed⟩ := k.follows.step (stands_of_poised k.poised) _ _ run
    have p' := passed.poised k.poised
    refine g'.holds p' fun u thread => ?_
    have l := g'.leaves thread (p' u).made
    obtain ⟨d, ds, takes, -⟩ := (p' u).supplied
    rw [renest, l.frameOf_eq]
    split
    · next before =>
      obtain ⟨closes, frame⟩ := k.leaves before
      rw [closes, frame, l.closersOf_eq g'.sound fun e he =>
        takes.isNode _ (List.mem_map_of_mem he)]
      exact passed.nests k.poised k.nested before
    · next new => exact passed.nests_new k.nested k.nobody new (g'.thread_of_nobody (p' u) thread)
  | collect _ run ih =>
    obtain ⟨σ, k⟩ := ih
    have g' := k.follows.collect _ _ run
    refine g'.holds k.poised fun u thread => k.nested u (by_contra fun other => ?_)
    exact g'.thread_of_nobody (k.poised u) thread (k.nobody u other)

/-- Each scope of a thread is closed in the frame that came with it, and no other, and the thread
comes back to the frame that it started in. What leaves some scopes, be it `break`, `continue` or
`return`, leaves the thread in the frame of the innermost of the others, and what ends a call in the
frame in which it was made. -/
theorem scopes_nest (r : m.Records N) (thread : m.heap.HasTag .thread u) : ∃ control frame,
    (Thread.control u >>= Stack.values) m.heap = .ok control ∧ Thread.frame u m.heap = .ok frame ∧
    m.heap.Unwinds (N u).start control frame (N u).marks ∧
    ((N u).start :: (N u).marks.map Mark.inner).Nodup ∧
    (∀ f g rest, (N u).marks = .scope f g :: rest → frame = f) ∧
    ((N u).marks = [] → frame = (N u).start) := by
  obtain ⟨σ, g, p, nested, -⟩ := r.holds
  have l := g.leaves thread (p u).made
  obtain ⟨f, read, lines⟩ := l.frame
  obtain ⟨nests, distinct⟩ := nested u thread
  obtain ⟨d, ds, takes, -⟩ := (p u).supplied
  have isNode : ∀ e ∈ (σ u).control, e.code.IsNode := fun e he =>
    takes.isNode _ (List.mem_map_of_mem he)
  have unwinds := nests.unwinds g.sound l.codes isNode lines
  exact ⟨_, f, l.control, read, unwinds, distinct, unwinds.current⟩

/-- The scopes of the main thread while it is in a block of the function that it was started with.
-/
theorem nested_in_rendezvous : ∃ m₀ m₁ m₂ : Machine, ∃ n N control f g inner outer,
    new { heapWords := 1024 } = .ok m₀ ∧
    load rendezvousProgram m₀ = .ok () m₁ ∧ advance 22 m₁ = .ok (n, true) m₂ ∧ m₂.Records N ∧
    (N m₁.mainThread).marks = [.scope f g, .call inner outer] ∧
    Thread.frame m₁.mainThread m₂.heap = .ok f ∧
    m₂.heap.Unwinds (N m₁.mainThread).start control f [.scope f g, .call inner outer] := by
  obtain ⟨m₀, m₁, m₂, m₃, m₄, m₅, u, made, loaded, r⟩ := rendezvous
  obtain ⟨n, starts⟩ := r.starts
  obtain ⟨reached, -⟩ := Reached.rendezvous (.load (.new made) loaded) r
  obtain ⟨N, records⟩ := reached.records
  have thread := reached.thread (r.threads m₂ (by simp)).1
  obtain ⟨control, frame, read, framed, unwinds, -, current, -⟩ := scopes_nest records thread
  have closers := unwinds.closers
  have tags : control.filterMap (fun a => (m₂.heap.tag a).toOption) = m₂.tagsOf m₁.mainThread := by
    rw [tagsOf, read]
    rfl
  rw [tags, r.inside] at closers
  obtain ⟨f, g, inner, outer, e⟩ := Mark.of_closers closers.symm
  rw [e] at unwinds
  obtain rfl := current f g _ e
  exact ⟨m₀, m₁, m₂, n, N, control, _, g, inner, outer, made, loaded, starts, records, e, framed,
    unwinds⟩

end Machine
end GoMachine
