import GoMachine.Proofs.Store.Moves
import GoMachine.Scope
/-!
# Scopes and what they bind

A scope has bindings, the newest first, and lies in another scope or in none. `Scopes` tells for
some frames which scopes they are, and `Enclosed S F` says that this is what the records `F` make of
these frames. A name means what the innermost scope with a binding of its text says, and there the
newest binding.

* `Path`: what leads from one record to the next comes to an end, and never comes by a record twice.
* `Frame.findLocal?_nests`, `Frame.find?_nests`, `Frame.entries_nests`: what is asked of a frame.
* `Frame.create_nests`, `Frame.insert_nests`, `Frame.insertText_nests`: frames and bindings that are
  added.
* `Scopes.bind_lookup?`: which names mean something else afterwards.
-/
namespace GoMachine

/-! ## Paths -/

/-- From an address to the next one, until that is nil. -/
inductive Path (next : Address → Option Address) : Address → List Address → Prop
  | nil : Path next .nil []
  | cons {a b : Address} {l : List Address} : a ≠ .nil → next a = some b → Path next b l →
      Path next a (a :: l)

namespace Path

variable {next next' : Address → Option Address} {a b : Address} {l l' us ws : List Address}

theorem unique (p : Path next a l) (p' : Path next a l') : l = l' := by
  induction p generalizing l' with
  | nil =>
    cases p' with
    | nil => rfl
    | cons notNil => exact absurd rfl notNil
  | cons notNil step _ ih =>
    cases p' with
    | nil => exact absurd rfl notNil
    | cons _ step' p' =>
      obtain rfl := Option.some_inj.1 (step.symm.trans step')
      rw [ih p']

theorem suffix (p : Path next a (us ++ b :: ws)) : Path next b (b :: ws) := by
  induction us generalizing a with
  | nil =>
    cases p with
    | cons notNil step p => exact .cons notNil step p
  | cons u us ih =>
    cases p with
    | cons _ _ p => exact ih p

/-- A record that comes twice would come again and again. -/
theorem nodup (p : Path next a l) : l.Nodup := by
  induction p with
  | nil => exact List.nodup_nil
  | @cons a b l notNil step p ih =>
    refine List.nodup_cons.2 ⟨fun again => ?_, ih⟩
    obtain ⟨us, ws, rfl⟩ := List.append_of_mem again
    have e := (Path.cons notNil step p).unique p.suffix
    have := congrArg List.length e
    simp at this
    omega

theorem known (p : Path next a l) (hb : b ∈ l) : next b ≠ none := by
  induction p with
  | nil => cases hb
  | cons _ step _ ih =>
    rcases List.mem_cons.1 hb with rfl | hb
    · simp [step]
    · exact ih hb

theorem congr (p : Path next a l) (same : ∀ b ∈ l, next' b = next b) : Path next' a l := by
  induction p with
  | nil => exact .nil
  | cons notNil step _ ih =>
    exact .cons notNil ((same _ List.mem_cons_self).trans step)
      (ih fun b hb => same b (List.mem_cons_of_mem _ hb))

end Path

/-! ## Scopes -/

/-- A value that a name is bound to, and the string that is the name. -/
structure Naming where
  key : Address
  text : List Char
  value : Address

/-- A scope with its bindings, the newest first. -/
structure Scope where
  parent : Address
  names : List Naming

/-- The value that a text is bound to in a scope. -/
def Scope.find? (s : Scope) (text : List Char) : Option Address :=
  (s.names.find? fun n => n.text = text).map Naming.value

/-- Which frames are which scopes. -/
abbrev Scopes := Address → Option Scope

namespace Scopes

variable {S : Scopes} {f g : Address} {fs : List Address} {s : Scope} {n : Naming}
    {text : List Char}

/-- The frame around a frame. -/
def parent? (S : Scopes) (f : Address) : Option Address := (S f).map Scope.parent

def find? (S : Scopes) (text : List Char) (f : Address) : Option Address := (S f).bind fun s =>
    s.find? text

/-- The value that a text is bound to in the first of some scopes that has a binding for it. -/
def lookup? (S : Scopes) (fs : List Address) (text : List Char) : Option Address :=
    fs.findSome? (S.find? text)

/-- One more binding. -/
def bind (S : Scopes) (f : Address) (n : Naming) : Scopes :=
  Function.update S f ((S f).map fun s => { s with names := n :: s.names })

theorem bind_parent? : (S.bind f n).parent? g = S.parent? g := by
  unfold parent? bind
  rw [Function.update_apply]
  split_ifs with e
  · rw [e]
    cases S f <;> rfl
  · rfl

theorem bind_find? : (S.bind f n).find? text g =
    if g = f ∧ n.text = text then (S f).map fun _ => n.value else S.find? text g := by
  unfold find? bind
  rw [Function.update_apply]
  by_cases e : g = f
  · subst e
    rw [if_pos rfl]
    cases S g with
    | none => simp
    | some s =>
      by_cases same : n.text = text
      · simp [same, Scope.find?]
      · simp [same, Scope.find?]
  · simp [e]

/-- A new binding changes the meaning of its text in scopes that lie in its frame, and of nothing
else. -/
theorem bind_lookup? (apart : f ∉ fs ∨ text ≠ n.text) :
    (S.bind f n).lookup? fs text = S.lookup? fs text := by
  induction fs with
  | nil => rfl
  | cons g fs ih =>
    have here : (S.bind f n).find? text g = S.find? text g := by
      rw [bind_find?, if_neg]
      rintro ⟨rfl, rfl⟩
      exact apart.elim (absurd List.mem_cons_self) (absurd rfl)
    have rest := ih (apart.imp_left fun out hf => out (List.mem_cons_of_mem g hf))
    unfold lookup? at rest ⊢
    rw [List.findSome?_cons, List.findSome?_cons, here, rest]

end Scopes

/-! ## What the records say of scopes -/

/-- The entries from one onwards, and what they bind. -/
inductive Names (F : Facts) : Address → List Address → List Naming → Prop
  | nil : Names F .nil [] []
  | cons {e next : Address} {es : List Address} {n : Naming} {ns : List Naming} :
    F e = some ⟨.entry, [], [n.key, n.value, next]⟩ → F.Spells n.key n.text → Names F next es ns →
    Names F e (e :: es) (n :: ns)

/-- The records of the frames are those of the scopes, and each scope is in finitely many others. -/
structure Enclosed (S : Scopes) (F : Facts) : Prop where
  names : ∀ {f s}, S f = some s → ∃ e es, F f = some ⟨.frame, [], [s.parent, e]⟩ ∧
  Names F e es s.names
  path : ∀ {f}, S f ≠ none → ∃ fs, Path S.parent? f fs

/-- Whatever is no frame says what it said. -/
def Facts.SubButFrames (F F' : Facts) : Prop := ∀ ⦃a D⦄, F a = some D → D.tag ≠ .frame →
    F' a = some D

variable {P O : Multiset Address} {n : Nat} {S : Scopes} {F F' : Facts} {h h' : Heap}
  {e f key value parent : Address} {es fs : List Address} {ns : List Naming} {s : Scope}
  {cs text : List Char}

theorem Facts.Spells.ofSubButFrames {a : Address} (spells : F.Spells a cs)
    (sub : F.SubButFrames F') : F'.Spells a cs := by
  obtain ⟨runes, here, each⟩ := spells
  exact ⟨runes, sub here (by simp), each.imp fun _ _ rune => sub rune (by simp)⟩

namespace Names

theorem mono (k : Names F e es ns) (sub : F.SubButFrames F') : Names F' e es ns := by
  induction k with
  | nil => exact .nil
  | cons here spells _ ih => exact .cons (sub here (by simp)) (spells.ofSubButFrames sub) ih

theorem path (k : Names F e es ns) (dead : F .nil = none) :
    Path (fun a => (F a).bind fun D => D.children[2]?) e es := by
  induction k with
  | nil => exact .nil
  | cons here _ _ ih =>
    refine .cons ?_ (by simp [here]) ih
    rintro rfl
    cases dead.symm.trans here

theorem first (k : Names F e es ns) : e = .nil ∨ F e ≠ none := by
  cases k with
  | nil => exact .inl rfl
  | cons here => exact .inr (by simp [here])

/-- There are no more entries than records. -/
theorem fuel (k : Names h.body? e es ns) (sound : h.Sound) : es.length < h.liveCount + 1 := by
  refine Nat.lt_succ_of_le (sound.length_le (k.path sound.body?_nil).nodup fun a ha => ?_).1
  have known := (k.path sound.body?_nil).known ha
  cases hD : h.body? a with
  | none => simp [hD] at known
  | some D =>
    obtain ⟨c, hc, -⟩ := Heap.body?_eq_some.1 hD
    exact (Heap.cell?_eq_some.1 hc).1

end Names

open Heap (Reports Backed known_update)

/-! ## What is asked of a frame -/

/-- The question of entries is whether their keys say a text. -/
def AsksFor (matching : Address → Query Bool) (text : List Char) (h : Heap) : Prop :=
  ∀ key cs, Facts.Spells h.body? key cs → matching key h = .ok (decide (cs = text))

namespace Names

variable {matching : Address → Query Bool} {m : Nat}

theorem find? (k : Names h.body? e es ns) (sound : h.Sound) (asks : AsksFor matching text h)
    (fuel : es.length < m) :
    Entry.find? matching m e h = .ok ((ns.find? fun n => n.text = text).map Naming.value) := by
  induction k generalizing m with
  | nil =>
    obtain ⟨m, rfl⟩ := Nat.exists_eq_succ_of_ne_zero (Nat.ne_of_gt fuel)
    rfl
  | @cons e next es n ns here spells _ ih =>
    obtain ⟨m, rfl⟩ := Nat.exists_eq_succ_of_ne_zero (Nat.ne_of_gt (Nat.zero_lt_of_lt fuel))
    have notNil : ¬e.isNil := by
      rintro absent
      rw [Address.isNil_iff.1 absent] at here
      cases sound.body?_nil.symm.trans here
    rw [Entry.find?, if_neg notNil]
    refine query_bind_ok.2 ⟨_, sound.child_body here rfl, query_bind_ok.2 ⟨_, asks _ _ spells, ?_⟩⟩
    by_cases same : n.text = text
    · rw [if_pos (by simpa using same), List.find?_cons_of_pos (by simpa using same)]
      exact query_bind_ok.2 ⟨_, sound.child_body here rfl, rfl⟩
    · rw [if_neg (by simpa using same), List.find?_cons_of_neg (by simpa using same)]
      exact query_bind_ok.2 ⟨_, sound.child_body here rfl, ih (Nat.lt_of_succ_lt_succ fuel)⟩

theorem take (k : Names h.body? e es ns) (sound : h.Sound) (fuel : es.length < m) :
    Entry.take m e h = .ok (ns.map fun n => (n.key, n.value)) := by
  induction k generalizing m with
  | nil =>
    obtain ⟨m, rfl⟩ := Nat.exists_eq_succ_of_ne_zero (Nat.ne_of_gt fuel)
    rfl
  | @cons e next es n ns here spells _ ih =>
    obtain ⟨m, rfl⟩ := Nat.exists_eq_succ_of_ne_zero (Nat.ne_of_gt (Nat.zero_lt_of_lt fuel))
    have notNil : ¬e.isNil := by
      rintro absent
      rw [Address.isNil_iff.1 absent] at here
      cases sound.body?_nil.symm.trans here
    rw [Entry.take, if_neg notNil]
    refine query_bind_ok.2 ⟨_, sound.child_body here rfl,
      query_bind_ok.2 ⟨_, sound.child_body here rfl, ?_⟩⟩
    refine query_bind_ok.2 ⟨_, sound.child_body here rfl,
      query_bind_ok.2 ⟨_, ih (Nat.lt_of_succ_lt_succ fuel), rfl⟩⟩

end Names

namespace Enclosed

theorem known (k : Enclosed S F) (hf : S f ≠ none) : F f ≠ none := by
  obtain ⟨s, hs⟩ := Option.ne_none_iff_exists'.1 hf
  obtain ⟨e, es, here, -⟩ := k.names hs
  simp [here]

theorem inside (p : Path S.parent? f fs) {g : Address} (hg : g ∈ fs) : ∃ s, S g = some s := by
  have known := p.known hg
  unfold Scopes.parent? at known
  exact Option.ne_none_iff_exists'.1 fun unknown => known (by simp [unknown])

/-- There are no more frames than records. -/
theorem fuel (k : Enclosed S h.body?) (sound : h.Sound) (p : Path S.parent? f fs) :
    fs.length < h.liveCount + 1 := by
  refine Nat.lt_succ_of_le (sound.length_le p.nodup fun a ha => ?_).1
  obtain ⟨s, hs⟩ := inside p ha
  obtain ⟨e, es, here, -⟩ := k.names hs
  obtain ⟨c, hc, -⟩ := Heap.body?_eq_some.1 here
  exact (Heap.cell?_eq_some.1 hc).1

end Enclosed

namespace Frame

variable {matching : Address → Query Bool} {name : Address} {m : Nat}

theorem findLocal?_nests (k : Enclosed S h.body?) (sound : h.Sound) (asks : AsksFor matching text h)
    (hf : S f = some s) :
    findLocal? matching f h = .ok (s.find? text) := by
  obtain ⟨e, es, here, names⟩ := k.names hf
  exact query_bind_ok.2 ⟨_, sound.child_body here rfl, names.find? sound asks (names.fuel sound)⟩

theorem findAmong?_nests (k : Enclosed S h.body?) (sound : h.Sound) (asks : AsksFor matching text h)
    (p : Path S.parent? f fs)
    (fuel : fs.length < m) : findAmong? matching m f h = .ok (S.lookup? fs text) := by
  induction p generalizing m with
  | nil =>
    obtain ⟨m, rfl⟩ := Nat.exists_eq_succ_of_ne_zero (Nat.ne_of_gt fuel)
    rfl
  | @cons f g fs notNil step p ih =>
    obtain ⟨m, rfl⟩ := Nat.exists_eq_succ_of_ne_zero (Nat.ne_of_gt (Nat.zero_lt_of_lt fuel))
    obtain ⟨s, hs⟩ := Enclosed.inside (.cons notNil step p) List.mem_cons_self
    obtain rfl : s.parent = g := by simpa [Scopes.parent?, hs] using step
    obtain ⟨e, es, here, -⟩ := k.names hs
    rw [findAmong?, if_neg (mt Address.isNil_iff.1 notNil)]
    refine query_bind_ok.2 ⟨_, findLocal?_nests k sound asks hs, ?_⟩
    unfold Scopes.lookup?
    rw [List.findSome?_cons, Scopes.find?, hs, Option.bind_some]
    cases s.find? text with
    | some value => rfl
    | none => exact query_bind_ok.2 ⟨_, sound.child_body here rfl, ih (Nat.lt_of_succ_lt_succ fuel)⟩

theorem find?_nests (k : Enclosed S h.body?) (sound : h.Sound) (asks : AsksFor matching text h)
    (p : Path S.parent? f fs) :
    find? matching f h = .ok (S.lookup? fs text) :=
  findAmong?_nests k sound asks p (k.fuel sound p)

theorem entries_nests (k : Enclosed S h.body?) (sound : h.Sound) (hf : S f = some s) :
    entries f h = .ok (s.names.reverse.map fun n => (n.key, n.value)) := by
  obtain ⟨e, es, here, names⟩ := k.names hf
  refine query_bind_ok.2 ⟨_, sound.child_body here rfl, ?_⟩
  refine query_bind_ok.2 ⟨_, names.take sound (names.fuel sound), query_pure_ok.2 ?_⟩
  rw [List.map_reverse]

theorem takeChain_nests (k : Enclosed S h.body?) (sound : h.Sound) (p : Path S.parent? f fs)
    (fuel : fs.length < m) :
    takeChain m f h = .ok fs := by
  induction p generalizing m with
  | nil =>
    obtain ⟨m, rfl⟩ := Nat.exists_eq_succ_of_ne_zero (Nat.ne_of_gt fuel)
    rfl
  | @cons f g fs notNil step p ih =>
    obtain ⟨m, rfl⟩ := Nat.exists_eq_succ_of_ne_zero (Nat.ne_of_gt (Nat.zero_lt_of_lt fuel))
    obtain ⟨s, hs⟩ := Enclosed.inside (.cons notNil step p) List.mem_cons_self
    obtain rfl : s.parent = g := by simpa [Scopes.parent?, hs] using step
    obtain ⟨e, es, here, -⟩ := k.names hs
    rw [takeChain, if_neg (mt Address.isNil_iff.1 notNil)]
    refine query_bind_ok.2 ⟨_, sound.child_body here rfl, ?_⟩
    exact query_bind_ok.2 ⟨_, ih (Nat.lt_of_succ_lt_succ fuel), rfl⟩

theorem chain_nests (k : Enclosed S h.body?) (sound : h.Sound) (p : Path S.parent? f fs) :
    chain f h = .ok fs :=
  takeChain_nests k sound p (k.fuel sound p)

end Frame

/-! ## What is added -/

namespace Enclosed

/-- Paths do not lead to what is new. -/
theorem path_stays {g : Address} {gs : List Address} (k : Enclosed S F) (fresh : F f = none)
    (p : Path S.parent? g gs) :
    Path (Scopes.parent? (Function.update S f (some s))) g gs := by
  refine p.congr fun b hb => ?_
  have ne : b ≠ f := by
    rintro rfl
    obtain ⟨s, hs⟩ := inside p hb
    exact k.known (by simp [hs]) fresh
  simp [Scopes.parent?, ne]

/-- A frame without bindings. -/
theorem create (k : Enclosed S F) (fresh : F f = none) (notNil : f ≠ .nil) (known : parent = .nil ∨
    S parent ≠ none) :
    Enclosed (Function.update S f (some ⟨parent, []⟩))
    (Function.update F f (some ⟨.frame, [], [parent, .nil]⟩)) := by
  have sub : F.SubButFrames (Function.update F f (some ⟨.frame, [], [parent, .nil]⟩)) :=
    fun a D ha _ => by
    rw [Function.update_of_ne, ha]
    rintro rfl
    cases fresh.symm.trans ha
  refine ⟨fun {g s} hg => ?_, fun {g} hg => ?_⟩
  · by_cases e : g = f
    · subst e
      obtain rfl : ⟨parent, []⟩ = s := by simpa using hg
      exact ⟨.nil, [], Function.update_self .., .nil⟩
    · rw [Function.update_of_ne e] at hg ⊢
      obtain ⟨e, es, here, names⟩ := k.names hg
      exact ⟨e, es, here, names.mono sub⟩
  · by_cases e : g = f
    · subst e
      obtain ⟨gs, p⟩ : ∃ gs, Path
        (Scopes.parent? (Function.update S g (some ⟨parent, []⟩))) parent gs := by
        rcases known with rfl | known
        · exact ⟨[], .nil⟩
        · obtain ⟨gs, p⟩ := k.path known
          exact ⟨gs, k.path_stays fresh p⟩
      exact ⟨g :: gs, .cons notNil (by simp [Scopes.parent?]) p⟩
    · rw [Function.update_of_ne e] at hg
      obtain ⟨gs, p⟩ := k.path hg
      exact ⟨gs, k.path_stays fresh p⟩

/-- Records that are no frames come, and stay. -/
theorem mono (k : Enclosed S F) (sub : F.Sub F') : Enclosed S F' := by
  refine ⟨fun {f s} hf => ?_, k.path⟩
  obtain ⟨e, es, here, names⟩ := k.names hf
  exact ⟨e, es, sub here, names.mono fun a D ha _ => sub ha⟩

/-- A binding in front of the others. -/
theorem bind {first : Address} {es : List Address} (k : Enclosed S F) (hf : S f = some s)
    (here : F f = some ⟨.frame, [], [s.parent, first]⟩) (names : Names F first es s.names)
    (fresh : F e = none)
    (spells : F.Spells key cs) : Enclosed (S.bind f ⟨key, cs, value⟩)
      (Function.update (Function.update F e (some ⟨.entry, [], [key, value, first]⟩)) f
        (some ⟨.frame, [], [s.parent, e]⟩)) := by
  have ne : e ≠ f := by
    rintro rfl
    cases fresh.symm.trans here
  have sub : F.SubButFrames
    (Function.update (Function.update F e (some ⟨.entry, [], [key, value, first]⟩)) f
      (some ⟨.frame, [], [s.parent, e]⟩)) := fun a D ha other => by
    rw [Function.update_of_ne, Function.update_of_ne, ha]
    · rintro rfl
      cases fresh.symm.trans ha
    · rintro rfl
      obtain rfl := Option.some_inj.1 (here.symm.trans ha)
      exact other rfl
  refine ⟨fun {g s'} hg => ?_, fun {g} hg => ?_⟩
  · unfold Scopes.bind at hg
    by_cases e' : g = f
    · subst e'
      rw [Function.update_self, hf] at hg
      cases hg
      refine ⟨e, e :: es, Function.update_self ..,
        .cons ?_ (spells.ofSubButFrames sub) (names.mono sub)⟩
      rw [Function.update_of_ne ne, Function.update_self]
    · rw [Function.update_of_ne e'] at hg
      obtain ⟨d, ds, there, names'⟩ := k.names hg
      refine ⟨d, ds, ?_, names'.mono sub⟩
      rw [Function.update_of_ne e', Function.update_of_ne, there]
      rintro rfl
      cases fresh.symm.trans there
  · have known : S g ≠ none := by
      unfold Scopes.bind at hg
      by_cases e' : g = f
      · simp [e', hf]
      · rwa [Function.update_of_ne e'] at hg
    obtain ⟨gs, p⟩ := k.path known
    exact ⟨gs, p.congr fun b _ => Scopes.bind_parent?⟩

end Enclosed

/-- A new reference is stored in a slot of a new record that is empty. -/
theorem Heap.Reports.fillNew {a b : Address} {D : Body} {i : Nat}
    (g : Reports P (n + 1) O (Function.update F a (some D)) h)
    (hi : D.children[i]? = some .nil) (here : b = .nil ∨ F b ≠ none) :
    Gives (HeapM.setChild a D.tag i b) h fun _ h' =>
      Reports P (n + 1) O (Function.update F a
      (some { D with children := D.children.set i b })) h' := by
  have here' : b = .nil ∨ Function.update F a (some D) b ≠ none := here.imp_right fun known => by
    rw [Function.update_apply]
    split_ifs
    · simp
    · exact known
  refine (g.put (Function.update_self ..) hi here' .nil).mono fun _ h' g' => ?_
  rwa [Function.update_idem] at g'

variable {name : String} {first : Address}

/-- An entry is made. -/
theorem Entry.create_ends (g : Reports P (n + 1) O F h) (hk : key = .nil ∨ F key ≠ none)
    (hv : value = .nil ∨ F value ≠ none)
    (hn : first = .nil ∨ F first ≠ none) : Ends (fun e h' => e.isShortage ∧ h' = h)
    (create key value first) h
      fun e h' => F e = none ∧
        Reports P (n + 1) (e ::ₘ O)
        (Function.update F e (some ⟨.entry, [], [key, value, first]⟩)) h' := by
  refine g.allocate_ends.bind fun e h₁ ⟨fresh, g₁⟩ => ?_
  refine (g₁.fillNew (i := 0) rfl hk).heap.before fun _ h₂ g₂ => ?_
  refine (g₂.fillNew (i := 1) rfl hv).heap.before fun _ h₃ g₃ => ?_
  exact (g₃.fillNew (i := 2) rfl hn).heap.before fun _ h₄ g₄ => .pure ⟨fresh, g₄⟩

namespace Frame

/-- A frame is made in another one. -/
theorem create_nests (g : Reports P (n + 1) O F h) (k : Enclosed S F) (known : parent = .nil ∨
    S parent ≠ none) :
    Ends Fault.Shortage (create parent) h fun f h' => ∃ F', F.Sub F' ∧
    Reports P (n + 1) (f ::ₘ O) F' h' ∧
      Enclosed (Function.update S f (some ⟨parent, []⟩)) F' := by
  refine (g.allocate_ends.weaken fun _ _ short => short.1).bind fun f h₁ ⟨fresh, g₁⟩ => ?_
  refine (g₁.fillNew (i := 0) rfl (known.imp_right k.known)).heap.before fun _ h₂ g₂ =>
    .pure ⟨_, fun a D ha => ?_, g₂, ?_⟩
  · rw [Function.update_of_ne, ha]
    rintro rfl
    cases fresh.symm.trans ha
  · exact k.create fresh (g₂.ne_nil (Function.update_self ..)) known

/-- A key is bound to a value. -/
theorem insert_nests (g : Reports P (n + 1) O F h) (k : Enclosed S F) (hf : S f = some s)
    (spells : F.Spells key cs)
    (hv : value = .nil ∨ F value ≠ none) : Ends (fun e h' => e.isShortage ∧ h' = h)
    (insert f key value) h fun _ h' => ∃ F',
      F.SubButFrames F' ∧ Reports P (n + 1) O F' h' ∧ Enclosed (S.bind f ⟨key, cs, value⟩) F' ∧
      ∃ e D, F' e = some D ∧ key ∈ D.children := by
  obtain ⟨first, es, here, names⟩ := k.names hf
  obtain ⟨runes, known, -⟩ := id spells
  refine .read (g.sound.child_there (i := 1) (g.known here) rfl) ?_
  refine (Entry.create_ends g (.inr (by simp [known])) hv names.first).bind fun e h₁ ⟨fresh, g₁⟩ =>
    ?_
  have ne : f ≠ e := by
    rintro rfl
    cases fresh.symm.trans here
  have hf₁ := known_update (o := some ⟨.entry, [], [key, value, first]⟩) here ne
  have entry (o : Option Body) :
    Function.update (Function.update F e (some ⟨.entry, [], [key, value, first]⟩)) f o e =
      some ⟨.entry, [], [key, value, first]⟩ := by
    rw [Function.update_of_ne ne.symm, Function.update_self]
  refine ((g₁.putOwned hf₁ rfl (.inr (.inr ⟨e, _, entry _, by simp⟩))).heap.mono fun _ h₂ g₂ =>
    ?_).ends
  refine ⟨_, fun a D ha other => ?_, g₂, k.bind hf here names fresh spells, e, _, entry _, by simp⟩
  rw [Function.update_of_ne, Function.update_of_ne, ha]
  · rintro rfl
    cases fresh.symm.trans ha
  · rintro rfl
    obtain rfl := Option.some_inj.1 (here.symm.trans ha)
    exact other rfl

/-- A text is bound to a value. -/
theorem insertText_nests (g : Reports P (n + 1) O F h) (k : Enclosed S F) (hf : S f = some s)
    (hv : value = .nil ∨ F value ≠ none) :
    Ends Fault.Shortage (insertText f name value) h fun _ h' => ∃ key h₁ F',
      Text.create name h = .ok key h₁ ∧ F.SubButFrames F' ∧ Reports P (n + 1) O F' h' ∧
      Enclosed (S.bind f ⟨key, name.toList, value⟩) F' := by
  have made : Ends Fault.Shortage (Text.create name) h fun key h₁ =>
    Text.create name h = .ok key h₁ ∧
      Text.Writes P (n + 1) O F name.toList key h₁ :=
    (Text.create_spells g).imp_left fun ⟨key, h₁, run, writes⟩ => ⟨key, h₁, run, run, writes⟩
  refine made.bind fun key h₁ ⟨run, _, F₁, g₁, sub, spells⟩ => ?_
  have known : value = .nil ∨ F₁ value ≠ none := hv.imp_right fun known => by
    obtain ⟨D, hD⟩ := Option.ne_none_iff_exists'.1 known
    simp [sub hD]
  refine (insert_nests g₁ (k.mono sub) hf spells known).releasing
    (fun _ h₂ ⟨F₂, sub₂, g₂, k₂, e, D, hD, mem⟩ => ?_)
    fun e h₂ ⟨short, same⟩ => ?_
  · refine (g₂.free (.inr (.inr ⟨e, D, hD, mem⟩))).mono fun _ h₃ g₃ =>
      ⟨key, h₁, F₂, run, fun a B ha other => ?_, g₃, k₂⟩
    exact sub₂ (sub ha) other
  · subst same
    exact g₁.owns.frees.mono fun _ _ _ => short

end Frame

end GoMachine
