import GoMachine.Proofs.Atomic.Constructors
import GoMachine.Proofs.Heap.Client
import GoMachine.Proofs.Strings.Making
/-!
# Writers of strings

A writer makes strings of texts, of other strings and of parts of them, one after another, in a heap
where there may be anything else. In between, it uses the heap as any client does: it may give up
strings, keep them in other records, sweep. All that it must not do is write into strings and runes.

* `Constructor.spelling`: what a string that is asked for ought to say.
* `Writer.Step.keeps`: strings stay as long as they are owned.
* `Writer.faithful`: strings read, compare and can be taken apart as what they ought to say.
-/
namespace GoMachine

open Heap (Client Exact Op Owns Records Reports)

theorem Fault.not_isProtocol {e : Fault} (short : e.isShortage) : e.isProtocol = false := by
  cases e with
  | heap e => cases e <;> first | rfl | cases short
  | _ => rfl

/-! ## What ought to be made -/

/-- The part of a text from one position up to another one. -/
def Text.part (cs : List Char) (low high : Int) : Except Fault (List Char) :=
  if high < 0 ∨ cs.length < high then .error (.sliceBounds high cs.length)
  else if low < 0 ∨ high < low then .error (.invalidSliceIndices low high)
  else .ok ((cs.take high.toNat).drop low.toNat)

/-- What a string that is asked for ought to say, where it is known what others say. -/
def Constructor.spelling (texts : Address → Option (List Char)) : Constructor →
    Option (Except Fault (List Char))
  | text t => some (.ok t.toList)
  | concat a b => do some (.ok ((← texts a) ++ (← texts b)))
  | substring s low high => do some (Text.part (← texts s) low high)
  | _ => none

/-! ## What the heap is used for besides -/

/-- What strings are made of. -/
def Tag.isText (t : Tag) : Prop := t = .string ∨ t = .rune

namespace Heap

/-- The operation writes no records with such tags. -/
def Op.SparesTags (T : Tag → Prop) : Op → Prop
  | .setField _ t _ _ | .setChild _ t _ _ | .setChildOwned _ t _ _ | .takeChild _ t _ => ¬T t
  | _ => True

/-- Records with such tags stay as they are, or go away. -/
def KeepsTags (T : Tag → Prop) (F F' : Facts) : Prop :=
  ∀ a D D', F a = some D → T D.tag → F' a = some D' → D' = D

variable {m m' : Records} {op : Op} {r : Reply} {T T' : Tag → Prop} {F F' : Facts}

theorem Op.SparesTags.mono (spares : op.SparesTags T) (sub : ∀ t, T' t → T t) :
    op.SparesTags T' := by
  cases op with
  | setField | setChild | setChildOwned | takeChild => exact fun there => spares (sub _ there)
  | _ => trivial

theorem KeepsTags.mono (keeps : KeepsTags T F F') (sub : ∀ t, T' t → T t) : KeepsTags T' F F' :=
  fun a D D' ha there => keeps a D D' ha (sub _ there)

theorem Does.keepsTags (d : Does m op r m') (spares : op.SparesTags T) :
    KeepsTags T m.facts m'.facts := by
  have here {m : Records} {a : Address} {c : Cell} (hc : m a = some c) : m.facts a = some c.body :=
    Option.map_eq_some_iff.2 ⟨c, hc, rfl⟩
  intro a D D' ha tag ha'
  by_cases subject : op.subject r = some a
  swap
  · obtain ⟨c', hc', rfl⟩ := Option.map_eq_some_iff.1 ha'
    obtain ⟨c, hc, e⟩ := d.others subject c' hc'
    obtain rfl := Option.some_inj.1 ((here hc).symm.trans ha)
    rw [e]
    rfl
  induction d with
  | allocate _ _ _ new =>
    cases subject
    simp [Records.facts, new] at ha
  | setField hc _ =>
    cases subject
    obtain rfl := Option.some_inj.1 ((here hc).symm.trans ha)
    exact absurd tag spares
  | setChildOwned hc _ _ =>
    cases subject
    obtain rfl := Option.some_inj.1 ((here hc).symm.trans ha)
    exact absurd tag spares
  | setChild _ _ ih => exact ih spares (by rwa [Records.facts_gain]) ha' subject
  | takeChild hc _ =>
    cases subject
    obtain rfl := Option.some_inj.1 ((here hc).symm.trans ha)
    exact absurd tag spares
  | copy _ _ new =>
    cases subject
    simp [Records.facts, new] at ha
  | pin hc | unpin hc =>
    cases subject
    rw [Records.facts_update, Function.update_self] at ha'
    exact Option.some_inj.1 (ha'.symm.trans ((here hc).symm.trans ha))
  | unpinLast _ _ _ d =>
    cases subject
    have gone := d.facts ha'
    rw [Records.facts_update, Function.update_self] at gone
    cases gone
  | pinNil | unpinNil => exact Option.some_inj.1 (ha'.symm.trans ha)
  | read | reference | free | sweep => cases subject

/-- A string that is still there says what it said. -/
theorem KeepsTags.spells {s : Address} {cs : List Char} (keeps : KeepsTags Tag.isText F F')
    (closed : Closed F')
    (dead : F .nil = none) (live : F' s ≠ Option.none) (spells : F.Spells s cs) :
    F'.Spells s cs := by
  obtain ⟨runes, here, each⟩ := spells
  obtain ⟨D, hD⟩ := Option.ne_none_iff_exists'.1 live
  obtain rfl := keeps _ _ _ here (.inl rfl) hD
  refine ⟨runes, hD, List.forall₂_iff_get.2 ⟨each.length_eq, fun i hi hi' => ?_⟩⟩
  have rune := (List.forall₂_iff_get.1 each).2 i hi hi'
  rcases closed s _ (runes.get ⟨i, hi⟩) hD (List.get_mem ..) with absent | there
  · rw [absent] at rune
    cases dead.symm.trans rune
  · obtain ⟨E, hE⟩ := Option.ne_none_iff_exists'.1 there
    obtain rfl := keeps _ _ _ rune (.inr rfl) hE
    exact hE

/-- An operation of a client keeps records, be it that it fails. -/
theorem Client.Step.keepsTags {k k' : Client} {op : Op} {r : Except HeapError Reply}
    (did : Client.Step k op r k')
    (entitled : op.Entitled k.owned) (x : Exact k.pins k.owned k.heap) (spares : op.SparesTags T) :
    KeepsTags T k.heap.body? k'.heap.body? := by
  have outcome := (Client.owns x).outcome entitled
  cases did with
  | done run => exact (outcome.done _ _ run).1.keepsTags spares
  | failed run =>
    have same : k'.heap.body? = k.heap.body? := by
      change Records.facts k'.heap.cell? = Records.facts k.heap.cell?
      rw [(outcome.failed _ _ run).1]
      cases op <;> first | rfl | exact Records.facts_gain
    intro a D D' ha _ ha'
    exact Option.some_inj.1 (ha'.symm.trans (same ▸ ha))

end Heap

/-! ## Writers -/

/-- A client of the heap that makes strings. -/
structure Writer where
  client : Client
  /-- There is room for the references that are taken in between. -/
  room : ∀ a, a ≠ .nil → client.owned.count a + 2 ≤ Heap.limit
  /-- The strings that it has made and that are still there, with what they ought to say. -/
  texts : Address → Option (List Char)

namespace Writer

variable {k k' : Writer} {maker : Constructor} {op : Op} {s : Address} {cs : List Char}

/-- The heap of the writer. -/
abbrev heap (k : Writer) : Heap := k.client.heap

/-- What a writer does. -/
inductive Step (k k' : Writer) : Prop
  /-- It makes a string. -/
  | made {maker : Constructor} {s : Address} {cs : List Char} :
      maker.spelling k.texts = some (.ok cs) →
      maker.run k.heap = .ok s k'.heap → k'.client.owned = s ::ₘ k.client.owned →
      k'.client.pins = k.client.pins → k'.texts = Function.update k.texts s (some cs) → Step k k'
  /-- It cannot have the string that it asks for. -/
  | failed {maker : Constructor} {r : Except Fault (List Char)} {e : Fault} :
      maker.spelling k.texts = some r →
      maker.run k.heap = .error e k'.heap → k'.client.owned = k.client.owned →
      k'.client.pins = k.client.pins → k'.texts = k.texts → Step k k'
  /-- It uses the heap for something else, and strings may go away. -/
  | other {op : Op} {r : Except HeapError Heap.Reply} : Client.Step k.client op r k'.client →
      op.Entitled k.client.owned → op.SparesTags Tag.isText →
      k'.texts = (fun s => if k'.heap.isLive s then k.texts s else none) → Step k k'

/-- A writer that starts in any heap with exact counts. -/
inductive Reached : Writer → Prop
  | start {k : Writer} : Exact k.client.pins k.client.owned k.heap → k.texts = (fun _ =>
      none) → Reached k
  | step {k k' : Writer} : Reached k → Step k k' → Reached k'

/-- The counts are exact, and strings spell what they ought to say. -/
structure Sincere (k : Writer) : Prop where
  exact : Exact k.client.pins k.client.owned k.heap
  spells : ∀ {s cs}, k.texts s = some cs → Facts.Spells k.heap.body? s cs

namespace Sincere

theorem owns (w : Sincere k) : Owns k.client.pins 2 k.client.owned k.heap :=
  ⟨w.exact, by decide, k.room⟩

theorem reports (w : Sincere k) :
    Reports k.client.pins (0 + 1) k.client.owned k.heap.body? k.heap :=
  .of (w.owns.weaken (by decide))

theorem isLive (w : Sincere k) (hs : k.texts s = some cs) : k.heap.isLive s := by
  obtain ⟨runes, here, -⟩ := w.spells hs
  exact w.reports.isLive.2 (by simp [here])

/-- How the making of a string ends. -/
theorem makes (w : Sincere k) (asks : maker.spelling k.texts = some (.ok cs)) :
    Ends Text.Shortage maker.run k.heap
    (Text.Writes k.client.pins 1 k.client.owned k.heap.body? cs) := by
  cases maker <;> simp only [Constructor.spelling, Option.bind_eq_bind, Option.bind_eq_some_iff,
    Option.some.injEq,
    Except.ok.injEq, reduceCtorEq] at asks
  case text t =>
    subst asks
    exact Text.create_spells w.reports
  case concat a b =>
    obtain ⟨ca, ha, cb, hb, rfl⟩ := asks
    exact Text.concat_spells w.reports (w.spells ha) (w.spells hb)
  case substring a low high =>
    obtain ⟨ca, ha, part⟩ := asks
    unfold Text.part at part
    split_ifs at part
    cases part
    exact Text.substring_spells w.reports (w.spells ha) (by omega) (by omega)

/-- A part of a string that is not there. -/
theorem refuses {e : Fault} (w : Sincere k) (asks : maker.spelling k.texts = some (.error e)) :
    maker.run k.heap = .error e k.heap := by
  cases maker <;> simp only [Constructor.spelling, Option.bind_eq_bind, Option.bind_eq_some_iff,
    Option.some.injEq,
    reduceCtorEq, and_false, exists_false] at asks
  obtain ⟨ca, ha, part⟩ := asks
  unfold Text.part at part
  split_ifs at part <;> cases part
  · exact Text.substring_high w.exact.sound (w.spells ha) ‹_›
  · exact Text.substring_low w.exact.sound (w.spells ha) (by omega) ‹_›

theorem old {r : Except Fault (List Char)} (w : Sincere k)
    (asks : maker.spelling k.texts = some r) :
    ∀ a ∈ maker.arguments, Old k.heap a := by
  cases maker <;> simp only [Constructor.spelling, Option.bind_eq_bind, Option.bind_eq_some_iff,
    reduceCtorEq] at asks
  case text => simp [Constructor.arguments]
  case concat a b =>
    obtain ⟨ca, ha, cb, hb, -⟩ := asks
    simp [Constructor.arguments, Old, w.isLive ha, w.isLive hb]
  case substring a low high =>
    obtain ⟨ca, ha, -⟩ := asks
    simp [Constructor.arguments, Old, w.isLive ha]

/-- Nothing is left of a string that could not be made. -/
theorem restores {r : Except Fault (List Char)} {e : Fault} {h' : Heap} (w : Sincere k)
    (asks : maker.spelling k.texts = some r) (run : maker.run k.heap = .error e h') :
    Exact k.client.pins k.client.owned h' ∧ h'.body? = k.heap.body? := by
  cases r with
  | error e' =>
    rw [w.refuses asks] at run
    cases run
    exact ⟨w.exact, rfl⟩
  | ok cs =>
    obtain ⟨_, _, run', short⟩ : ∃ e' h₁, maker.run k.heap = .error e' h₁ ∧ e'.isShortage :=
      (w.makes asks).resolve_left fun ⟨_, _, ran, _⟩ => by rw [run] at ran; cases ran
    obtain ⟨rfl, rfl⟩ : _ = e ∧ _ = h' := by simpa [run] using run'.symm
    obtain ⟨_, h₁, run', left⟩ := (maker.restores (n := 0) w.owns (w.old asks)).resolve_left
      fun ⟨_, _, ran, _⟩ => by rw [run] at ran; cases ran
    rw [run] at run'
    cases run'
    obtain ⟨ρ, g⟩ := left (Fault.not_isProtocol short)
    refine ⟨by simpa using g.owns.exact, funext fun a => ?_⟩
    rw [Heap.body?, Heap.body?, g.same]

/-- A writer stays sincere. -/
theorem step (w : Sincere k) (did : Step k k') : Sincere k' := by
  cases did with
  | @made maker s cs asks run owned pins texts =>
    obtain ⟨new, F', g, sub, spells⟩ := (w.makes asks).yields _ _ run
    have body := g.body
    subst body
    refine ⟨owned ▸ pins ▸ g.owns.exact, fun {s' cs'} hs => ?_⟩
    rw [texts, Function.update_apply] at hs
    split_ifs at hs with e
    · cases hs
      exact e ▸ spells
    · exact (w.spells hs).mono sub
  | failed asks run owned pins texts =>
    obtain ⟨x, same⟩ := w.restores asks run
    refine ⟨owned ▸ pins ▸ x, fun hs => ?_⟩
    rw [same]
    exact w.spells (texts ▸ hs)
  | @other op r did entitled spares texts =>
    have x := did.exact entitled w.exact
    refine ⟨x, fun {s cs} hs => ?_⟩
    obtain ⟨live, hs⟩ : k'.heap.isLive s ∧ k.texts s = some cs := by simpa [texts] using hs
    have keeps := did.keepsTags entitled w.exact spares
    have g : Reports k'.client.pins 0 k'.client.owned k'.heap.body? k'.heap := .of (Client.owns x)
    exact keeps.spells x.closed_body w.reports.nil_none (g.isLive.1 live) (w.spells hs)

end Sincere

theorem Reached.sincere (reached : Reached k) : Sincere k := by
  induction reached with
  | start x textless => exact ⟨x, by simp [textless]⟩
  | step _ did ih => exact ih.step did

/-- Strings that a writer owns are not lost. -/
theorem Step.keeps (reached : Reached k) (did : Step k k') (hs : k.texts s = some cs)
    (mine : s ∈ k'.client.owned) :
    k'.texts s = some cs := by
  have w := reached.sincere
  have x := (w.step did).exact
  cases did with
  | made asks run owned pins texts =>
    obtain ⟨new, -⟩ := (w.makes asks).yields _ _ run
    obtain ⟨runes, here, -⟩ := w.spells hs
    rw [texts, Function.update_of_ne, hs]
    rintro rfl
    cases new.symm.trans here
  | failed asks run owned pins texts => rw [texts, hs]
  | other did entitled spares texts =>
    have live : k'.heap.isLive s := x.isLive_of_mem mine (w.exact.sound.ne_nil (w.isLive hs))
    simp [texts, live, hs]

/-! ## What strings are good for -/

/-- Strings are what they ought to say. -/
structure Faithful (k : Writer) : Prop where
  reads : ∀ s cs, k.texts s = some cs →
    Text.toString s k.heap = .ok (.ofList cs) ∧ Text.size s k.heap = .ok cs.length
  /-- A string that is made is a new one, and reads as it ought to; only want of memory can prevent
  it. -/
  makes : ∀ (maker : Constructor) cs, maker.spelling k.texts = some (.ok cs) →
  Ends Text.Shortage maker.run k.heap fun s h' =>
    k.texts s = none ∧ Text.toString s h' = .ok (.ofList cs)
  /-- What is no part of a string is refused, and leaves everything as it was. -/
  refuses : ∀ (maker : Constructor) e, maker.spelling k.texts = some (.error e) →
  maker.run k.heap = .error e k.heap
  hash : ∀ s cs, k.texts s = some cs → Text.hash s k.heap = .ok (Text.hashOf cs)
  equals : ∀ a b cs ds, k.texts a = some cs → k.texts b = some ds →
    Text.equals a b k.heap = .ok (decide (cs = ds))
  eqString : ∀ s cs text, k.texts s = some cs →
  Text.eqString s text k.heap = .ok (decide (cs = text.toList))
  /-- Comparisons go by the lexicographic order of the lists of code points, which is a linear one.
  -/
  compares : ∀ (op : BinaryOp) a b cs ds truth, k.texts a = some cs → k.texts b = some ds →
    op.holds? (decide (cs = ds)) (decide (cs < ds)) (decide (ds < cs)) = some truth →
    Ends Text.Shortage (op.apply a b) k.heap fun v h' => Scalar.toBool v h' = .ok truth

/-- Whatever a writer has done, its strings are what they ought to say. -/
theorem faithful (reached : Reached k) : k.Faithful := by
  have w := reached.sincere
  have sound := w.exact.sound
  refine ⟨fun s cs hs => ?_, fun maker cs asks => ?_, fun maker e asks =>
    w.refuses asks, fun s cs hs => ?_,
    fun a b cs ds ha hb => ?_, fun s cs text hs => ?_, fun op a b cs ds truth ha hb asks => ?_⟩
  · exact ⟨Text.toString_spells sound (w.spells hs), Text.size_spells sound (w.spells hs)⟩
  · refine (w.makes asks).mono fun s h' ⟨new, F', g, sub, spells⟩ => ⟨?_, ?_⟩
    · by_contra known
      obtain ⟨ds, hs⟩ := Option.ne_none_iff_exists'.1 known
      obtain ⟨runes, here, -⟩ := w.spells hs
      cases new.symm.trans here
    · exact Text.toString_spells g.sound (g.body ▸ spells)
  · exact Text.hash_spells sound (w.spells hs)
  · exact Text.equals_spells sound (w.spells ha) (w.spells hb)
  · exact Text.eqString_spells sound (w.spells hs)
  · exact BinaryOp.apply_spells w.reports (w.spells ha) (w.spells hb) asks

theorem roomy {O : Multiset Address} (small : O.card ≤ 2) (a : Address) (_ : a ≠ .nil) :
    O.count a + 2 ≤ Heap.limit := by
  have := (Multiset.count_le_card a O).trans small
  simp only [Heap.limit]
  omega

/-- The making of a string, and of one that says the same twice. -/
def doubledRun : Bool :=
  match Heap.new 64 with
  | .error _ => false
  | .ok h₀ => match Text.create "ab" h₀ with
    | .error _ _ => false
    | .ok a h₁ => match Text.concat a a h₁ with
      | .error _ _ => false
      | .ok b _ => a ≠ b

/-- A writer that has made a string and one that says the same twice, with the same runes. -/
theorem faithful_doubled : ∃ k : Writer, Reached k ∧
    (∃ a b, k.texts a = some ['a', 'b'] ∧ k.texts b = some ['a', 'b', 'a', 'b']) ∧ k.Faithful := by
  have ran : doubledRun = true := by decide +kernel
  unfold doubledRun at ran
  split at ran
  · cases ran
  next h₀ made =>
  split at ran
  · cases ran
  next a h₁ ran₁ =>
  split at ran
  · cases ran
  next b h₂ ran₂ =>
  have apart : a ≠ b := of_decide_eq_true ran
  let texts₁ := Function.update (fun _ => none) a (some ['a', 'b'])
  let texts₂ := Function.update texts₁ b (some ['a', 'b', 'a', 'b'])
  let k₀ : Writer := ⟨⟨h₀, 0, 0, Client.count_le_limit (by simp)⟩, roomy (by simp), fun _ => none⟩
  let k₁ : Writer := ⟨⟨h₁, {a}, 0, Client.count_le_limit (by simp)⟩, roomy (by simp), texts₁⟩
  let k₂ : Writer := ⟨⟨h₂, {b, a}, 0, Client.count_le_limit (by simp)⟩, roomy (by simp), texts₂⟩
  have first : texts₁ a = some ['a', 'b'] := Function.update_self ..
  have reached₀ : Reached k₀ := .start (.new made) rfl
  have reached₁ : Reached k₁ := reached₀.step
    (.made (by rfl : (Constructor.text "ab").spelling _ = some (.ok ['a', 'b'])) ran₁ rfl rfl rfl)
  have reached₂ : Reached k₂ := reached₁.step
    (.made (by simp [Constructor.spelling, k₁, first] :
      (Constructor.concat a a).spelling k₁.texts =
      some (.ok ['a', 'b', 'a', 'b'])) ran₂ rfl rfl rfl)
  refine ⟨k₂, reached₂, ⟨a, b, ?_, Function.update_self ..⟩, faithful reached₂⟩
  exact (Function.update_of_ne apart ..).trans first

end Writer
end GoMachine
