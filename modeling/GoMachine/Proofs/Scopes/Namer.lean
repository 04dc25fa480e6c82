import GoMachine.Proofs.Scopes.Lookup
import GoMachine.Proofs.Strings.Writer
/-!
# Who names things

A namer makes frames in frames and binds strings and texts to values, in a heap where there may be
anything else. The strings it makes of texts, of other strings and of parts of them. In between, it
uses the heap as any client does: it may give up frames and strings, keep them in other records,
sweep. All that it must not do is write into frames, entries, strings and runes.

* `Namer.Reached.kept`: the frames that are left are the scopes that they ought to be.
* `Namer.names_nested`: what names mean, and which names mean something else when there is one more.
-/
namespace GoMachine

open Heap (Client Exact Op Owns Reports KeepsTags)

/-! ## Frames that stay -/

/-- What scopes are made of. -/
def Tag.isNaming (t : Tag) : Prop := t = .frame ∨ t = .entry ∨ t.isText

theorem Tag.isText.isNaming {t : Tag} (text : t.isText) : t.isNaming := .inr (.inr text)

variable {S : Scopes} {F F' : Facts} {h : Heap} {e f : Address} {es : List Address}
    {ns : List Naming}

/-- Entries stay with the first one. -/
theorem Names.keeps (k : Names F e es ns) (keeps : KeepsTags Tag.isNaming F F') (closed : Closed F')
    (dead : F .nil = none)
    (here : e = .nil ∨ F' e ≠ none) : Names F' e es ns := by
  induction k with
  | nil => exact .nil
  | @cons e next es n ns known spells _ ih =>
    have live := here.resolve_left fun absent => by cases dead.symm.trans (absent ▸ known)
    obtain ⟨D, hD⟩ := Option.ne_none_iff_exists'.1 live
    obtain rfl := keeps _ _ _ known (.inr (.inl rfl)) hD
    obtain ⟨runes, key, -⟩ := id spells
    have there := (closed e _ n.key hD (by simp)).resolve_left fun absent => by
      cases dead.symm.trans (absent ▸ key)
    exact .cons hD ((keeps.mono fun _ => Tag.isText.isNaming).spells closed dead there spells)
      (ih (closed e _ next hD (by simp)))

/-- Frames stay with all that is around them. -/
theorem Enclosed.keeps (k : Enclosed S F) (keeps : KeepsTags Tag.isNaming F h.body?)
    (closed : Closed h.body?)
    (dead : F .nil = none) : Enclosed (fun f => if h.isLive f then S f else none) h.body? := by
  have there {f : Address} {s : Scope} (hf : S f = some s) (live : h.body? f ≠ none) :
      ∃ e es, h.body? f = some ⟨.frame, [], [s.parent, e]⟩ ∧ Names F e es s.names := by
    obtain ⟨e, es, here, names⟩ := k.names hf
    obtain ⟨D, hD⟩ := Option.ne_none_iff_exists'.1 live
    obtain rfl := keeps _ _ _ here (.inl rfl) hD
    exact ⟨e, es, hD, names⟩
  have known {f : Address} : h.isLive f ↔ h.body? f ≠ none := by
    rw [← Heap.isSome_cell?, Heap.body?, Option.isSome_iff_ne_none, ne_eq, ne_eq,
      Option.map_eq_none_iff]
  have stays {f : Address} {fs : List Address} (p : Path S.parent? f fs) (here : f = .nil ∨
    h.body? f ≠ none) :
      Path (Scopes.parent? fun f => if h.isLive f then S f else none) f fs := by
    induction p with
    | nil => exact .nil
    | @cons f g fs notNil step p ih =>
      obtain ⟨s, hs⟩ := Enclosed.inside (.cons notNil step p) List.mem_cons_self
      obtain rfl : s.parent = g := by simpa [Scopes.parent?, hs] using step
      have live := here.resolve_left notNil
      obtain ⟨e, es, hf, -⟩ := there hs live
      refine .cons notNil ?_ (ih (closed f _ s.parent hf (by simp)))
      simp [Scopes.parent?, known.2 live, hs]
  refine ⟨fun {f s} hf => ?_, fun {f} hf => ?_⟩
  · obtain ⟨live, hs⟩ : h.isLive f ∧ S f = some s := by simpa using hf
    obtain ⟨e, es, here, names⟩ := there hs (known.1 live)
    exact ⟨e, es, here, names.keeps keeps closed dead (closed f _ e here (by simp))⟩
  · obtain ⟨live, hs⟩ : h.isLive f ∧ S f ≠ none := by simpa using hf
    obtain ⟨fs, p⟩ := k.path hs
    exact ⟨fs, stays p (.inr (known.1 live))⟩

/-! ## Namers -/

/-- A writer that makes frames. -/
structure Namer extends Writer where
  /-- The frames that it has made and that are still there, with the scopes that they ought to be.
  -/
  scopes : Scopes

namespace Namer

variable {k k' : Namer}

abbrev heap (k : Namer) : Heap := k.toWriter.heap

/-- What a namer does. -/
inductive Step (k k' : Namer) : Prop
  /-- It makes a string. -/
  | wrote {maker : Constructor} {s : Address} {cs : List Char} :
      maker.spelling k.texts = some (.ok cs) →
      maker.run k.heap = .ok s k'.heap → k'.client.owned = s ::ₘ k.client.owned →
      k'.client.pins = k.client.pins →
      k'.texts = Function.update k.texts s (some cs) → k'.scopes = k.scopes → Step k k'
  /-- It makes a frame. -/
  | framed {parent f : Address} : parent = .nil ∨ k.scopes parent ≠ none →
      Frame.create parent k.heap = .ok f k'.heap → k'.client.owned = f ::ₘ k.client.owned →
      k'.client.pins = k.client.pins → k'.texts = k.texts →
      k'.scopes = Function.update k.scopes f (some ⟨parent, []⟩) → Step k k'
  /-- It binds a string. -/
  | bound {f key value : Address} {s : Scope} {cs : List Char} : k.scopes f = some s →
      Facts.Spells k.heap.body? key cs → Old k.heap value →
      Frame.insert f key value k.heap = .ok () k'.heap →
      k'.client.owned = k.client.owned → k'.client.pins = k.client.pins → k'.texts = k.texts →
      k'.scopes = k.scopes.bind f ⟨key, cs, value⟩ → Step k k'
  /-- It binds a text. -/
  | boundText {f key value : Address} {s : Scope} {name : String} {h₁ : Heap} :
      k.scopes f = some s →
      Old k.heap value → Frame.insertText f name value k.heap = .ok () k'.heap →
      k'.client.owned = k.client.owned → k'.client.pins = k.client.pins → k'.texts = k.texts →
      Text.create name k.heap = .ok key h₁ → k'.scopes = k.scopes.bind f ⟨key, name.toList, value⟩ →
      Step k k'
  /-- It uses the heap for something else, and frames and strings may go away. -/
  | other {op : Op} {r : Except HeapError Heap.Reply} : Client.Step k.client op r k'.client →
      op.Entitled k.client.owned → op.SparesTags Tag.isNaming →
      k'.texts = (fun s => if k'.heap.isLive s then k.texts s else none) →
      k'.scopes = (fun f => if k'.heap.isLive f then k.scopes f else none) → Step k k'

/-- A namer that starts in any heap with exact counts. -/
inductive Reached : Namer → Prop
  | start {k : Namer} : Exact k.client.pins k.client.owned k.heap → k.texts = (fun _ => none) →
      k.scopes = (fun _ => none) → Reached k
  | step {k k' : Namer} : Reached k → Step k k' → Reached k'

/-- Strings spell what they ought to say, and frames are the scopes that they ought to be. -/
structure Kept (k : Namer) : Prop where
  sincere : k.toWriter.Sincere
  nests : Enclosed k.scopes k.heap.body?

namespace Kept

variable {f key value : Address} {s : Scope} {cs : List Char} {name : String}

theorem old (w : Kept k) (old : Old k.heap value) : value = .nil ∨ k.heap.body? value ≠ none :=
  old.imp_right w.sincere.reports.isLive.1

/-- How the binding of a string ends. -/
theorem insert (w : Kept k) (hf : k.scopes f = some s) (spells : Facts.Spells k.heap.body? key cs)
    (value_old : Old k.heap value) :
    Ends Fault.Shortage (Frame.insert f key value) k.heap fun _ h' =>
    Facts.SubButFrames k.heap.body? h'.body? ∧
      Exact k.client.pins k.client.owned h' ∧
      Enclosed (k.scopes.bind f ⟨key, cs, value⟩) h'.body? := by
  refine ((Frame.insert_nests w.sincere.reports w.nests hf spells (w.old value_old)).weaken
    fun _ _ short => short.1).mono ?_
  intro _ h' ⟨F', sub, g, nests, _⟩
  rw [g.body]
  exact ⟨sub, g.owns.exact, nests⟩

/-- How the binding of a text ends. -/
theorem insertText (w : Kept k) (hf : k.scopes f = some s) (value_old : Old k.heap value) :
    Ends Fault.Shortage (Frame.insertText f name value) k.heap fun _ h' => ∃ key h₁,
    Text.create name k.heap = .ok key h₁ ∧
      Facts.SubButFrames k.heap.body? h'.body? ∧ Exact k.client.pins k.client.owned h' ∧
      Enclosed (k.scopes.bind f ⟨key, name.toList, value⟩) h'.body? := by
  refine (Frame.insertText_nests w.sincere.reports w.nests hf (w.old value_old)).mono ?_
  intro _ h' ⟨key, h₁, F', run, sub, g, nests⟩
  rw [g.body]
  exact ⟨key, h₁, run, sub, g.owns.exact, nests⟩

/-- Strings stay where only frames are written. -/
theorem sub (w : Kept k) (sub : Facts.SubButFrames k.heap.body? k'.heap.body?)
    (x : Exact k'.client.pins k'.client.owned k'.heap) (texts : k'.texts = k.texts) :
    k'.toWriter.Sincere :=
  ⟨x, fun hs => (w.sincere.spells (texts ▸ hs)).ofSubButFrames sub⟩

theorem step (w : Kept k) (did : Step k k') : Kept k' := by
  cases did with
  | wrote asks run owned pins texts scopes =>
    obtain ⟨-, F', g, sub, -⟩ := (w.sincere.makes asks).yields _ _ run
    refine ⟨w.sincere.step (.made asks run owned pins texts), ?_⟩
    rw [scopes, g.body]
    exact w.nests.mono sub
  | framed known run owned pins texts scopes =>
    obtain ⟨F', sub, g, nests⟩ :=
      (Frame.create_nests w.sincere.reports w.nests known).yields _ _ run
    have body := g.body
    subst body
    exact ⟨w.sub (fun a D ha _ => sub ha) (owned ▸ pins ▸ g.owns.exact) texts, scopes ▸ nests⟩
  | bound hf spells old run owned pins texts scopes =>
    obtain ⟨sub, x, nests⟩ := (w.insert hf spells old).yields _ _ run
    exact ⟨w.sub sub (owned ▸ pins ▸ x) texts, scopes ▸ nests⟩
  | boundText hf old run owned pins texts made scopes =>
    obtain ⟨key, h₁, made', sub, x, nests⟩ := (w.insertText hf old).yields _ _ run
    rw [made] at made'
    cases made'
    exact ⟨w.sub sub (owned ▸ pins ▸ x) texts, scopes ▸ nests⟩
  | @other op r did entitled spares texts scopes =>
    have x := w.sincere.exact
    have keeps := did.keepsTags entitled x spares
    have text : op.SparesTags Tag.isText := spares.mono fun _ => Tag.isText.isNaming
    refine ⟨w.sincere.step (.other did entitled text texts), ?_⟩
    rw [scopes]
    exact w.nests.keeps keeps (did.exact entitled x).closed_body x.sound.body?_nil

end Kept

theorem Reached.kept (reached : Reached k) : Kept k := by
  induction reached with
  | start x texts scopes => exact ⟨⟨x, by simp [texts]⟩, ⟨by simp [scopes], by simp [scopes]⟩⟩
  | step _ did ih => exact ih.step did

/-! ## What names mean -/

/-- A text is bound to a value in a frame, and nothing else means something else. -/
structure Adds (k : Namer) (f : Address) (cs : List Char) (value : Address) (h' : Heap) : Prop where
  here : Frame.lookupLocal? f (.ofList cs) h' = .ok (some value)
  text : ∀ g gs text, Path k.scopes.parent? g gs → f ∉ gs ∨ text.toList ≠ cs →
    Frame.lookupText? g text h' = Frame.lookupText? g text k.heap
  string : ∀ g gs name ds, Path k.scopes.parent? g gs → Facts.Spells k.heap.body? name ds → f ∉ gs ∨
  ds ≠ cs →
    Frame.lookup? g name h' = Frame.lookup? g name k.heap

/-- Names are looked up in nested scopes. -/
structure Answers (k : Namer) : Prop where
  chain : ∀ f, f = .nil ∨ k.scopes f ≠ none → ∃ fs, Path k.scopes.parent? f fs ∧
  Frame.chain f k.heap = .ok fs
  spells : ∀ name cs, k.texts name = some cs → Facts.Spells k.heap.body? name cs
  lookup : ∀ f fs name cs, Path k.scopes.parent? f fs → Facts.Spells k.heap.body? name cs →
    Frame.lookup? f name k.heap = .ok (k.scopes.lookup? fs cs)
  lookupText : ∀ f fs text, Path k.scopes.parent? f fs →
    Frame.lookupText? f text k.heap = .ok (k.scopes.lookup? fs text.toList)
  lookupLocal : ∀ f s text, k.scopes f = some s →
  Frame.lookupLocal? f text k.heap = .ok (s.find? text.toList)
  /-- The oldest binding comes first. -/
  entries : ∀ f s, k.scopes f = some s →
    Frame.entries f k.heap = .ok (s.names.reverse.map fun n => (n.key, n.value))
  /-- Only want of memory can prevent that something is bound. -/
  insert : ∀ f s key cs value, k.scopes f = some s → Facts.Spells k.heap.body? key cs →
  Old k.heap value →
    Ends Fault.Shortage (Frame.insert f key value) k.heap fun _ h' => k.Adds f cs value h'
  insertText : ∀ f s text value, k.scopes f = some s → Old k.heap value →
    Ends Fault.Shortage (Frame.insertText f text value) k.heap fun _ h' =>
    k.Adds f text.toList value h'

/-- A binding adds one meaning. -/
theorem Kept.adds {f : Address} {s : Scope} {n : Naming} {h' : Heap} (w : Kept k)
    (hf : k.scopes f = some s)
    (sound : h'.Sound) (sub : Facts.SubButFrames k.heap.body? h'.body?)
    (nests : Enclosed (k.scopes.bind f n) h'.body?) :
    k.Adds f n.text n.value h' := by
  have path {g : Address} {gs : List Address} (p : Path k.scopes.parent? g gs) :
    Path (k.scopes.bind f n).parent? g gs :=
    p.congr fun _ _ => Scopes.bind_parent?
  have before := w.sincere.exact.sound
  refine ⟨?_, fun g gs text p apart => ?_, fun g gs name ds p spells apart => ?_⟩
  · have bound : k.scopes.bind f n f = some { s with names := n :: s.names } := by
      simp [Scopes.bind, hf]
    refine (Frame.findLocal?_nests nests sound
      (fun key cs spells => Text.eqString_spells sound spells) bound).trans ?_
    simp [Scope.find?]
  · rw [Frame.lookupText?, Frame.find?_nests nests sound
      (fun key cs spells => Text.eqString_spells sound spells) (path p),
      Frame.find?_nests w.nests before (fun key cs spells => Text.eqString_spells before spells) p,
      Scopes.bind_lookup? apart]
  · have spells' := spells.ofSubButFrames sub
    rw [Frame.lookup?, Frame.find?_nests nests sound
      (fun key cs k => Text.equals_spells sound k spells') (path p),
      Frame.find?_nests w.nests before (fun key cs k => Text.equals_spells before k spells) p,
      Scopes.bind_lookup? apart]

/-- Whatever a namer has done, names mean what the innermost scope says that binds them. -/
theorem names_nested (reached : Reached k) : k.Answers := by
  have w := reached.kept
  have sound := w.sincere.exact.sound
  have asksText (text : String) : AsksFor (fun key => Text.eqString key text) text.toList k.heap :=
    fun key cs spells =>
    Text.eqString_spells sound spells
  refine ⟨fun f known => ?_, fun name cs => w.sincere.spells, fun f fs name cs p spells =>
    ?_, fun f fs text p => ?_,
    fun f s text hf => ?_, fun f s hf => Frame.entries_nests w.nests sound hf,
    fun f s key cs value hf spells old => ?_,
    fun f s text value hf old => ?_⟩
  · rcases known with rfl | known
    · exact ⟨[], .nil, rfl⟩
    · obtain ⟨fs, p⟩ := w.nests.path known
      exact ⟨fs, p, Frame.chain_nests w.nests sound p⟩
  · exact Frame.find?_nests w.nests sound (fun key cs k => Text.equals_spells sound k spells) p
  · exact Frame.find?_nests w.nests sound (asksText text) p
  · exact Frame.findLocal?_nests w.nests sound (asksText text) hf
  · exact (w.insert hf spells old).mono fun _ h' ⟨sub, x, nests⟩ =>
      w.adds (n := ⟨key, cs, value⟩) hf x.sound sub nests
  · refine (w.insertText hf old).mono fun _ h' ⟨key, h₁, _, sub, x, nests⟩ => ?_
    exact w.adds (n := ⟨key, text.toList, value⟩) hf x.sound sub nests

/-- The making of a frame and of one inside, with the same text bound in both. -/
def nestedRun : Bool :=
  match Heap.new 64 with
  | .error _ => false
  | .ok h₀ => match Frame.create .nil h₀ with
    | .error _ _ => false
    | .ok f h₁ => match Text.create "x" h₁, Frame.insertText f "x" .nil h₁ with
      | .ok _ _, .ok _ h₂ => match Frame.create f h₂ with
        | .error _ _ => false
        | .ok g h₃ => match Text.create "x" h₃, Frame.insertText g "x" f h₃ with
          | .ok _ _, .ok _ _ => h₃.isLive f ∧ f ≠ .nil ∧ f ≠ g
          | _, _ => false
      | _, _ => false

/-- A namer that has bound a text to nil in a frame, and to that frame in a frame inside. -/
theorem names_nested_twice : ∃ k : Namer, Reached k ∧
    (∃ f g, f ≠ .nil ∧ k.scopes.parent? g = some f ∧
    k.scopes.find? ['x'] f = some .nil ∧ k.scopes.find? ['x'] g = some f) ∧ k.Answers := by
  have ran : nestedRun = true := by decide +kernel
  unfold nestedRun at ran
  split at ran
  · cases ran
  next h₀ made =>
  split at ran
  · cases ran
  next f h₁ ran₁ =>
  split at ran
  case h_2 => cases ran
  next key h₁' _ h₂ wrote ran₂ =>
  split at ran
  · cases ran
  next g h₃ ran₃ =>
  split at ran
  case h_2 => cases ran
  next key' h₃' _ h₄ wrote' ran₄ =>
  obtain ⟨live, notNil, apart⟩ := of_decide_eq_true ran
  let S₁ : Scopes := Function.update (fun _ => none) f (some ⟨.nil, []⟩)
  let S₂ : Scopes := S₁.bind f ⟨key, ['x'], .nil⟩
  let S₃ : Scopes := Function.update S₂ g (some ⟨f, []⟩)
  let S₄ : Scopes := S₃.bind g ⟨key', ['x'], f⟩
  have at₁ : S₁ f = some ⟨.nil, []⟩ := Function.update_self ..
  have at₂ : S₂ f = some ⟨.nil, [⟨key, ['x'], .nil⟩]⟩ := by simp [S₂, Scopes.bind, at₁]
  have at₃ : S₃ g = some ⟨f, []⟩ := Function.update_self ..
  have around : S₃ f = some ⟨.nil, [⟨key, ['x'], .nil⟩]⟩ :=
    (Function.update_of_ne apart ..).trans at₂
  let writer (h : Heap) (O : Multiset Address) (small : O.card ≤ 2) : Writer :=
    ⟨⟨h, O, 0, Client.count_le_limit small⟩, Writer.roomy small, fun _ => none⟩
  let k₀ : Namer := ⟨writer h₀ 0 (by simp), fun _ => none⟩
  let k₁ : Namer := ⟨writer h₁ {f} (by simp), S₁⟩
  let k₂ : Namer := ⟨writer h₂ {f} (by simp), S₂⟩
  let k₃ : Namer := ⟨writer h₃ {g, f} (by simp), S₃⟩
  let k₄ : Namer := ⟨writer h₄ {g, f} (by simp), S₄⟩
  have reached₀ : Reached k₀ := .start (.new made) rfl rfl
  have reached₁ : Reached k₁ := reached₀.step (.framed (.inl rfl) ran₁ rfl rfl rfl rfl)
  have reached₂ : Reached k₂ := reached₁.step (.boundText at₁ (.inl rfl) ran₂ rfl rfl rfl wrote rfl)
  have reached₃ : Reached k₃ :=
    reached₂.step (.framed (.inr (by simp [k₂, at₂])) ran₃ rfl rfl rfl rfl)
  have reached₄ : Reached k₄ :=
    reached₃.step (.boundText at₃ (.inr live) ran₄ rfl rfl rfl wrote' rfl)
  refine ⟨k₄, reached₄, ⟨f, g, notNil, ?_, ?_, ?_⟩, names_nested reached₄⟩
  · exact (Scopes.bind_parent? (S := S₃)).trans (by simp [Scopes.parent?, at₃])
  · exact (Scopes.bind_find? (S := S₃)).trans (by simp [apart, Scopes.find?, around, Scope.find?])
  · exact (Scopes.bind_find? (S := S₃)).trans (by simp [at₃])

end Namer
end GoMachine
