import GoMachine.Proofs.Tasks.Turn
/-!
# Scopes and closures

A new scope comes inside the current one, and the frame of a closed scope is left for the one around
it. A closure holds a function literal and the frame that it was made in.

* `Plays.pushFrame`, `Plays.popFrame`, `Plays.setFrame`: what becomes of the line of frames.
-/
namespace GoMachine

open Heap (Retains)

/-- A frame with those around it, the innermost first; nil if there is none. -/
def Facts.Lines (F : Facts) : Address → List Address → Prop
  | a, [] => a = .nil
  | a, f :: line =>
      a = f ∧ ∃ fs parent entries, F f = some ⟨.frame, fs, [parent, entries]⟩ ∧ Lines F parent line

/-- The frames that a node leads back to. -/
def Code.frames : Code → List Address
  | .node .restoreEnvI _ _ [.scope line] => line
  | _ => []

/-- The frames that a thread is in, and those that it comes back to. -/
def Task.frames (τ : Task) : List Address := τ.line ++ τ.control.flatMap fun e => e.code.frames

variable {k : Known} {σ : Address → Task} {τ : Task} {n : Nat} {O : Multiset Address} {h : Heap}
    {s : Turn}
  {a b e f t u parent : Address} {D : Body} {fs : List UInt64} {cs line : List Address} {tag : Tag}
  {i : Nat}

theorem Closure.create_eq {literal frame : Address} :
    Closure.create literal frame = Node.buildShared .function [] [literal, frame] := by
  simp [Closure.create, Node.buildShared, Node.setFields]

theorem BoundMethod.create_eq {callee receiver : Address} :
    BoundMethod.create callee receiver = Node.buildShared .boundMethod [] [callee, receiver] := by
  simp [BoundMethod.create, Node.buildShared, Node.setFields]

theorem Task.frames_push (es : List Entry) {stash : List Address}
    (new : f ∉ Task.frames { τ with control := es ++ τ.control, stash }) : f ∉ τ.frames := by
  simp only [Task.frames, List.flatMap_append, List.mem_append, not_or] at new ⊢
  exact ⟨new.1, new.2.2⟩

namespace Facts.Lines

variable {F : Facts}

theorem live (l : F.Lines a line) : ∀ f ∈ line, F f ≠ none := by
  induction line generalizing a with
  | nil => simp
  | cons f line ih =>
    obtain ⟨-, fs, parent, entries, hf, l⟩ := l
    exact List.forall_mem_cons.2 ⟨by simp [hf], ih l⟩

theorem head (l : F.Lines a line) : a = line.headD .nil := by
  cases line with
  | nil => exact l
  | cons => exact l.1

end Facts.Lines

namespace Sees

variable {ρ : Roles} {F : Facts}

theorem lines (s : Sees ρ σ F) (on : OnLine ρ a line) (closed : a = .nil ∨ F a ≠ none)
    (whole : Closed F) : F.Lines a line := by
  induction line generalizing a with
  | nil => exact on
  | cons f line ih =>
    obtain ⟨rfl, role⟩ := on
    obtain ⟨B, hB⟩ := Option.ne_none_iff_exists'.1 (closed.resolve_left fun e => by
      simp [e, s.nil] at role)
    have conf := s.conforms hB
    have tagged := conf.tagged
    have parts := conf.whole
    rw [role] at tagged parts
    obtain ⟨parent, entries, kids, on⟩ := parts
    obtain ⟨tag, fs, ks⟩ := B
    obtain rfl : tag = .frame := tagged
    obtain rfl : ks = _ := kids
    exact ⟨rfl, fs, parent, entries, hB, ih on (whole _ _ _ hB (by simp))⟩

/-- The frames of a thread are there. -/
theorem frames_live (s : Sees ρ σ F) (hu : F u = some ⟨.thread, fs, cs⟩) (whole : Closed F) :
    ∀ f ∈ (σ u).frames, F f ≠ none := by
  obtain ⟨⟨gs, c, st, e, hu', control, -, scope⟩, codes, -⟩ :=
    s.shows hu ((s.conforms hu).thread rfl)
  intro f hf
  rcases List.mem_append.1 hf with hf | hf
  · rcases scope with ⟨-, emptied⟩ | ⟨g, structs, he, on⟩
    · simp [emptied] at hf
    · exact (s.lines on (whole _ _ _ he (by simp)) whole).live f hf
  · obtain ⟨x, hx, hf⟩ := List.mem_flatMap.1 hf
    have role := codes x hx
    unfold Code.frames at hf
    split at hf
    · next fs ks line e =>
      obtain ⟨top, -, lists⟩ := control.resolve_left fun ended => by
        simp [List.map_eq_nil_iff.1 ended.2] at hx
      obtain ⟨y, B, hy, mem⟩ := lists.mem (List.mem_map_of_mem hx)
      obtain ⟨D, hD⟩ := Option.ne_none_iff_exists'.1 ((whole y B _ hy mem).resolve_left
        fun absent => by
        rw [absent, s.nil] at role
        cases role)
      have parts := (s.conforms hD).whole
      rw [role, e] at parts
      obtain ⟨rfl, parts⟩ := parts
      cases parts with
      | cons on emptied =>
        cases emptied
        exact (s.lines on (whole _ _ _ hD (by simp)) whole).live f hf
    · cases hf

end Sees

namespace Knows

/-- A new frame stands inside of others. -/
theorem openFrame (g : Knows k σ (n + 1) O h) (live : parent = .nil ∨ h.body? parent ≠ none)
    (on : k.Finds σ h fun ρ => OnLine ρ parent line) :
    Yields (Frame.create parent) h fun f h' => Knows k σ (n + 1) (f ::ₘ O) h' ∧
      (k.Finds σ h' fun ρ => ρ f = .frame line) ∧ h.body? f = none := by
  refine (Frame.create_retains g.toRetains).mono fun f h' ⟨g', notNil, gone, _, e⟩ => ?_
  obtain ⟨ρ, seen, noted, on⟩ := on
  have on' : OnLine (Function.update ρ f (.frame line)) parent line := by
    refine on.congr (live.imp (fun e => by rw [e, seen.nil]) fun live =>
      Function.update_of_ne ?_ ..)
    rintro rfl
    exact live gone
  have seen' : Sees (Function.update ρ f (.frame line)) σ h'.body? := by
    rw [e]
    refine seen.create_still g.closed gone notNil ⟨?_, fun _ => .inr ?_, ?_⟩ (by simp) (by simp)
      (fun keeps => keeps.elim)
      (by simp) <;> rw [Function.update_self]
    · rfl
    · trivial
    · exact ⟨parent, .nil, rfl, on'⟩
  have noted' : k.Noted (Function.update ρ f (.frame line)) := fun x hx => by
    refine (Function.update_of_ne ?_ ..).trans (noted x hx)
    rintro rfl
    exact (g.ne_of_gone (g.kept x hx) gone).elim notNil fun ne => ne rfl
  exact ⟨⟨g', g.kept, _, seen', noted'⟩, ⟨_, seen', noted', Function.update_self ..⟩, gone⟩

/-- The current frame of a thread changes. -/
theorem reframe [k.KeptByChains] (g : Knows k σ n (f ::ₘ O) h)
    (hu : h.body? u = some ⟨.thread, fs, cs⟩)
    (he : cs[2]? = some e) (on : k.Finds σ h fun ρ => OnLine ρ f line) :
    Yields (HeapM.setChildOwned e .env 0 f) h fun _ h' =>
      Knows k (Function.update σ u { σ u with line }) n O h' := by
  refine (g.toRetains.setChildOwned (k.other Tag.keptByChains rfl)).mono
    fun _ h' ⟨g', D, d, hD, _, _, sub, _⟩ => ?_
  obtain ⟨ρ, seen, noted, on⟩ := on
  exact ⟨g', g.kept, ρ, (seen.reframe hu he hD on).sub sub g'.closed, noted⟩

/-- A closure holds a function literal and a frame. -/
theorem closure {literal frame : Address} {c : Code} (g : Knows k σ (n + 1) O h)
    (hl : k.Contains literal c) (isFunction : c.IsFunction) (live : frame = .nil ∨
    h.body? frame ≠ none)
    (on : k.Finds σ h fun ρ => OnLine ρ frame line) :
    Yields (Closure.create literal frame) h fun f h' => Knows k σ (n + 1) (f ::ₘ O) h' := by
  rw [Closure.create_eq]
  obtain ⟨ρ, seen, noted, on⟩ := on
  refine g.made rfl (Nat.zero_le _) (fun b hb => ?_) ⟨ρ, seen, noted, fun {i b} hb => ?_⟩
  · simp only [List.mem_cons, List.not_mem_nil, or_false] at hb
    rcases hb with rfl | rfl
    · exact .inr (g.code hl).2
    · exact live
  · rcases i with _ | _ | i
    · obtain rfl : literal = b := by simpa using hb
      exact .inr ⟨c, (g.code hl).1 seen noted, isFunction⟩
    · obtain rfl : frame = b := by simpa using hb
      exact on.slot
    · simp at hb

/-- A bound method holds values. -/
theorem boundMethod {callee receiver : Address} (g : Knows k σ (n + 1) O h)
    (live : ∀ b ∈ [callee, receiver], b = .nil ∨ h.body? b ≠ none) :
    Yields (BoundMethod.create callee receiver) h fun m h' => Knows k σ (n + 1) (m ::ₘ O) h' := by
  rw [BoundMethod.create_eq]
  obtain ⟨ρ, seen, noted⟩ := g.sees
  exact g.made rfl (Nat.zero_le _) live ⟨ρ, seen, noted, fun {i b} _ => .inr trivial⟩

end Knows

/-- The current frame of a thread is at the front of its line. -/
theorem Sees.on_line {ρ : Roles} {F : Facts} {E : Body} (seen : Sees ρ σ F)
    (hu : F u = some ⟨.thread, fs, cs⟩)
    (he : cs[2]? = some e) (hE : F e = some E) (hf : E.children[0]? = some f) :
    OnLine ρ f (σ u).line := by
  obtain ⟨⟨gs, c, st, e', hu', -, -, frames⟩, -⟩ := seen.shows hu ((seen.conforms hu).thread rfl)
  obtain ⟨rfl, rfl⟩ : fs = gs ∧ cs = [c, st, e'] := by simpa [hu] using hu'
  obtain rfl : e' = e := by simpa using he
  rcases frames with ⟨rfl, -⟩ | ⟨f', structs, hE', on⟩
  · simp [seen.dead] at hE
  · obtain rfl := Option.some_inj.1 (hE.symm.trans hE')
    obtain rfl : f' = f := by simpa using hf
    exact on

namespace Plays

variable [k.KeptByChains] [k.Runner t]

omit [k.KeptByChains] in
/-- The environment of the running thread. -/
theorem env_read (p : Plays t k σ τ n O s) (read : Thread.env s.thread s.heap = .ok e) :
    ∃ fs cs, s.heap.body? t = some ⟨.thread, fs, cs⟩ ∧ cs[2]? = some e := by
  obtain ⟨fs, cs, -, ht, he⟩ := p.pile_read read
  exact ⟨fs, cs, ht, he⟩

omit [k.KeptByChains] in
/-- The current frame of the running thread is at the front of its line. -/
theorem env_frame (p : Plays t k σ τ n O s) (read : Thread.env s.thread s.heap = .ok e)
    (read' : Env.frame e s.heap = .ok f) : (f = .nil ∨ s.heap.body? f ≠ none) ∧
      ∀ {ρ}, Sees ρ (Function.update σ t τ) s.heap.body? → OnLine ρ f τ.line := by
  obtain ⟨fs, cs, ht, he⟩ := p.env_read read
  obtain ⟨E, hE, -, hf⟩ := p.knows.sound.child_read read'
  refine ⟨p.knows.closed e E f hE (List.mem_of_getElem? hf), fun {ρ} seen => ?_⟩
  simpa using seen.on_line ht he hE hf

omit [k.KeptByChains] in
/-- What is not there is none of the frames of the running thread. -/
theorem frames_live (p : Plays t k σ τ n O s) (gone : s.heap.body? f = none) : f ∉ τ.frames :=
    fun mem => by
  obtain ⟨fs, cs, ht⟩ := Known.Runner.record (k := k) (t := t)
  obtain ⟨ρ, seen, -⟩ := p.knows.sees
  exact seen.frames_live (p.knows.body ht) p.knows.closed f (by rwa [Function.update_self]) gone

theorem pushFrame (p : Plays t k σ τ (n + 1) O s) : Yields TurnM.pushFrame s fun f s' =>
    Plays t k σ { τ with line := f :: τ.line } (n + 1) O s' ∧ f ∉ τ.frames := by
  refine .ofThread fun e read => ?_
  suffices opened : Yields (Env.pushFrame e) s.heap fun f h' =>
      Knows k (Function.update σ t { τ with line := f :: τ.line }) (n + 1) O h' ∧ f ∉ τ.frames from
    opened.acts.mono fun _ _ ⟨thread, g, new⟩ => ⟨⟨thread.trans p.thread, g⟩, new⟩
  refine .read fun parent read' => ?_
  obtain ⟨live, on⟩ := p.env_frame read read'
  obtain ⟨ρ, seen, noted⟩ := p.knows.sees
  refine (p.knows.openFrame live ⟨ρ, seen, noted, on seen⟩).bind
    fun f h₁ ⟨g₁, ⟨ρ₁, seen₁, noted₁, role⟩, gone⟩ => ?_
  obtain ⟨fs, cs, ht, -, he⟩ := p.pile_read read
  have on₁ : k.Finds (Function.update σ t τ) h₁ fun ρ => OnLine ρ f (f :: τ.line) :=
    ⟨ρ₁, seen₁, noted₁, rfl, role⟩
  exact (g₁.reframe (g₁.body ht) he on₁).heap.bind fun _ h₂ g₂ =>
    .pure ⟨by simpa using g₂, p.frames_live gone⟩

/-- The current frame is replaced. -/
theorem setFrame (p : Plays t k σ τ (n + 1) O s)
    (on : k.Finds (Function.update σ t τ) s.heap fun ρ => OnLine ρ f line) :
    Yields (TurnM.setFrame f) s fun _ s' => Plays t k σ { τ with line } (n + 1) O s' := by
  refine .ofThread fun e read => p.act ?_
  refine (p.knows.reference.bind fun _ h₁ ⟨_, g₁, same⟩ =>
    ?_ : Yields (HeapM.setChild e .env 0 f) s.heap _).heap
  obtain ⟨fs, cs, ht, -, he⟩ := p.pile_read read
  obtain ⟨ρ, seen, noted, on⟩ := on
  exact (g₁.reframe (g₁.body ht) he ⟨ρ, same ▸ seen, noted, on⟩).mono fun _ _ g₂ => by
    simpa using p.knows.restore g₂

/-- The frame of a scope that is closed was the first in line. -/
theorem popFrame (p : Plays t k σ τ (n + 1) O s) :
    Yields TurnM.popFrame s fun _ s' => ∃ f line, τ.line = f :: line ∧
      Plays t k σ { τ with line } (n + 1) O s' := by
  refine .ofThread fun e read => ?_
  suffices closed : Yields (Env.popFrame e) s.heap fun _ h' => ∃ f line, τ.line = f :: line ∧
      Knows k (Function.update σ t { τ with line }) (n + 1) O h' from
    closed.acts.mono fun _ _ ⟨thread, f, line, e, g⟩ => ⟨f, line, e, thread.trans p.thread, g⟩
  refine .read fun f read' => .read fun parent read'' => ?_
  obtain ⟨-, on⟩ := p.env_frame read read'
  obtain ⟨ρ, seen, noted⟩ := p.knows.sees
  have on := on seen
  obtain ⟨D, hD, -, hp⟩ := p.knows.sound.child_read read''
  cases e' : τ.line with
  | nil =>
    rw [e'] at on
    obtain rfl : f = .nil := on
    simp [p.knows.dead] at hD
  | cons f' line =>
    rw [e'] at on
    obtain ⟨rfl, role⟩ := on
    have whole := (seen.conforms hD).whole
    rw [role] at whole
    obtain ⟨parent', entries, kids, on⟩ := whole
    obtain rfl : parent' = parent := by simpa [kids] using hp
    refine (p.knows.reference.bind fun _ h₁ ⟨_, g₁, same⟩ =>
      ?_ : Yields (HeapM.setChild e .env 0 parent') s.heap _).heap
    obtain ⟨fs, cs, ht, -, he⟩ := p.pile_read read
    exact (g₁.reframe (g₁.body ht) he ⟨ρ, same ▸ seen, noted, on⟩).mono fun _ _ g₂ =>
      ⟨f, line, rfl, by simpa using p.knows.restore g₂⟩

end Plays
end GoMachine
