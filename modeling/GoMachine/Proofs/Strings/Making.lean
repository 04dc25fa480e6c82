import GoMachine.Proofs.Aggregates.Zero
import GoMachine.Proofs.Strings.Spelling
/-!
# Making strings

A new string is made of new runes or of those of other strings. It spells what it ought to, and all
records that were there say what they said. That fails for want of memory only.

* `Text.create_spells`, `Text.concat_spells`, `Text.substring_spells`: how the constructors end.
* `BinaryOp.apply_spells`: how the comparisons end.
-/
namespace GoMachine

open Heap (Reports Backed Holds)

/-! ## Changes that go well -/

theorem Yields.gives {ε σ α : Type} {x : EStateM ε σ α} {s : σ} {Q Q' : α → σ → Prop}
    (hx : Yields x s Q)
    (goes : Gives x s Q') : Gives x s Q := by
  obtain ⟨a, s', run, -⟩ := goes
  exact ⟨a, s', run, hx a s' run⟩

/-- A loop that numbers its turns, with what holds after some of them. -/
theorem Ends.fills {ε σ γ : Type} {l : List γ} {body : γ × Nat → PUnit →
    EStateM ε σ (ForInStep PUnit)}
    {E : ε → σ → Prop} {I : List γ → σ → Prop} {s : σ} (start : I [] s)
    (turn : ∀ pre c post s, l = pre ++ c :: post → I pre s →
      Ends E (body (c, pre.length) ⟨⟩) s fun r s' => r = .yield ⟨⟩ ∧ I (pre ++ [c]) s') :
    Ends E (forIn l.zipIdx PUnit.unit body) s fun _ => I l := by
  have go : ∀ post pre s, l = pre ++ post → I pre s →
      Ends E (forIn (post.zipIdx pre.length) PUnit.unit body) s fun _ => I l := by
    intro post
    induction post with
    | nil =>
      rintro pre s e inv
      rw [List.append_nil] at e
      exact .pure (e ▸ inv)
    | cons c post ih =>
      rintro pre s e inv
      rw [List.zipIdx_cons, List.forIn_cons]
      refine (turn pre c post s e inv).bind ?_
      rintro _ s' ⟨rfl, inv⟩
      have := ih (pre ++ [c]) s' (by simpa using e) inv
      rwa [List.length_append, List.length_singleton] at this
  exact go l [] s rfl start

variable {P O : Multiset Address} {n : Nat} {F F' : Facts} {h h' : Heap} {a b d r s : Address}
    {t : Tag} {i : Nat}
  {w : UInt64} {fs : List UInt64} {cs : List Address}

namespace Heap.Reports

/-- A record is made, or the heap is too small for it. -/
theorem allocate_ends {fields children : Nat} (g : Reports P n O F h) :
    Ends (fun e h' => e.isShortage ∧ h' = h) (liftM (HeapM.allocate t fields children) :
    Action Address) h
      fun a h' => F a = none ∧ Reports P n (a ::ₘ O)
        (Function.update F a (some ⟨t, .replicate fields 0, .replicate children .nil⟩)) h' := by
  have holds : Holds P n O (fun _ => none) h := ⟨g.owns, nofun, nofun⟩
  rcases holds.allocate with goes | ⟨e, h', run, short, -⟩
  · exact .inl (g.allocate.heap.gives goes)
  · refine .inr ⟨e, h', run, short, ?_⟩
    simp only [liftM, monadLift, MonadLift.monadLift] at run
    split at run <;> cases run
    exact Owns.allocate_error ‹_›

theorem setField_gives (g : Reports P n O F h) (ha : F a = some ⟨t, fs, cs⟩) (hi : i < fs.length) :
    Gives (HeapM.setField a t i w) h fun _ h' =>
      Reports P n O (Function.update F a (some ⟨t, fs.set i w, cs⟩)) h' := by
  obtain ⟨o, ho, e⟩ := body?_eq_some.1 (g.body ▸ ha)
  cases e
  exact (g.setField ha).gives (g.owns.exact.setField ho hi)

/-- A reference moves into a slot that is empty. -/
theorem fillOwned (g : Reports P n (b ::ₘ O) F h) (ha : F a = some ⟨t, fs, cs⟩)
    (hi : cs[i]? = some .nil) :
    Gives (HeapM.setChildOwned a t i b) h fun _ h' =>
      Reports P n O (Function.update F a (some ⟨t, fs, cs.set i b⟩)) h' := by
  obtain ⟨o, ho, e⟩ := body?_eq_some.1 (g.body ▸ ha)
  cases e
  exact (g.setChildOwned ha fun d hd => .inl (by simpa [hi] using hd.symm)).gives
    (g.owns.exact.setChildOwned ho hi)

/-- A new reference is stored in a slot that is empty. -/
theorem fill (g : Reports P (n + 1) O F h) (ha : F a = some ⟨t, fs, cs⟩) (hi : cs[i]? = some .nil)
    (here : F b ≠ none) : Gives (HeapM.setChild a t i b) h fun _ h' =>
      Reports P (n + 1) O (Function.update F a (some ⟨t, fs, cs.set i b⟩)) h' := by
  have taken := (g.owns.weaken (Nat.zero_le _)).reference_gain (.inr (g.isLive.2 here))
  exact (g.reference.gives taken).bind fun _ _ ⟨_, g₁⟩ => (g₁.fillOwned ha hi).mono fun _ _ g₂ =>
    g.restore g₂

end Heap.Reports

/-! ## Runes and truth values -/

theorem Scalar.new_ends (g : Reports P n O F h) :
    Ends (fun e h' => e.isShortage ∧ h' = h) (Scalar.new t w) h
    fun v h' => F v = none ∧
    Reports P n (v ::ₘ O) (Function.update F v (some ⟨t, [w], []⟩)) h' := by
  refine g.allocate_ends.bind fun v h₁ ⟨new, g₁⟩ => ?_
  refine (g₁.setField_gives (Function.update_self ..) (by simp)).heap.before fun _ h₂ g₂ =>
    .pure ⟨new, ?_⟩
  rwa [Function.update_idem] at g₂

namespace Text

variable {text : List Char} {runes : List Address}

/-- The heap was too small. -/
abbrev Shortage (e : Fault) (_ : Heap) : Prop := e.isShortage

/-- A new string spells the text, and nothing else has changed. -/
def Writes (P : Multiset Address) (n : Nat) (O : Multiset Address) (F : Facts) (text : List Char)
    (s : Address)
    (h : Heap) : Prop :=
  F s = none ∧ ∃ F', Reports P n (s ::ₘ O) F' h ∧ F.Sub F' ∧ F'.Spells s text

/-- A string of which some of the runes are there. -/
structure Partly (F F' : Facts) (text done : List Char) (s : Address) : Prop where
  new : F s = none
  sub : F.Sub F'
  filled : ∃ runes, F' s = some ⟨.string, [hashOf text],
    runes ++ .replicate (text.length - done.length) .nil⟩ ∧ runes.Forall₂ F'.IsRune done

namespace Partly

theorem start (new : F s = none) (here : F' = Function.update F s
    (some ⟨.string, [hashOf text], .replicate text.length .nil⟩)) : Partly F F' text [] s where
  new := new
  sub := here ▸ (Gains.one new).sub
  filled := ⟨[], by simp [here], .nil⟩

theorem done (k : Partly F F' text text s) : F'.Spells s text := by
  obtain ⟨runes, here, each⟩ := k.filled
  exact ⟨runes, by simpa using here, each⟩

/-- Another rune is put in its place. -/
theorem next {pre post : List Char} {c : Char} (k : Partly F F' (pre ++ c :: post) pre s)
    (rune : F'.IsRune r c) :
    ∃ slots, F' s = some ⟨.string, [hashOf (pre ++ c :: post)], slots⟩ ∧
    slots[pre.length]? = some .nil ∧
      Partly F (Function.update F' s
      (some ⟨.string, [hashOf (pre ++ c :: post)], slots.set pre.length r⟩))
        (pre ++ c :: post) (pre ++ [c]) s := by
  obtain ⟨runes, here, each⟩ := k.filled
  have size : runes.length = pre.length := each.length_eq
  have left : (pre ++ c :: post).length - pre.length = post.length + 1 := by simp
  rw [left] at here
  have other {x : Address} {c : Char} (rune : F'.IsRune x c) : x ≠ s := by
    rintro rfl
    cases rune.symm.trans here
  have keep {x : Address} {c : Char} {D : Body} (rune : F'.IsRune x c) :
      Facts.IsRune (Function.update F' s (some D)) x c := by
    rw [Facts.IsRune, Function.update_of_ne (other rune)]
    exact rune
  refine ⟨_, here, ?_, k.new, fun a D ha => ?_, runes ++ [r], ?_, ?_⟩
  · simp [← size]
  · rw [Function.update_of_ne, k.sub ha]
    rintro rfl
    rw [k.new] at ha
    cases ha
  · rw [Function.update_self, show (pre ++ c :: post).length - (pre ++ [c]).length = post.length by
      simp; omega,
      ← size]
    simp [List.replicate_succ]
  · exact List.rel_append (each.imp fun _ _ rune => keep rune) (.cons (keep rune) .nil)

theorem weaken {done : List Char} {F₁ : Facts} (k : Partly F F₁ text done s) (sub : F₁.Sub F') :
    Partly F F' text done s := by
  obtain ⟨new, sub₁, runes, here, each⟩ := k
  exact ⟨new, sub₁.trans sub, runes, sub here, each.imp fun _ _ rune => rune.mono sub⟩

end Partly

/-- A string with new runes. -/
theorem create_spells {text : String} (g : Reports P (n + 1) O F h) :
    Ends Shortage (create text) h (Writes P (n + 1) O F text.toList) := by
  refine (g.allocate_ends.weaken fun _ _ k => k.1).bind fun s h₁ ⟨new, g₁⟩ => ?_
  refine (g₁.setField_gives (Function.update_self ..) (by simp)).heap.before fun _ h₂ g₂ => ?_
  rw [Function.update_idem] at g₂
  refine (Ends.fills (I := fun done h' => ∃ F', Reports P (n + 1) (s ::ₘ O) F' h' ∧
    Partly F F' text.toList done s)
    ⟨_, g₂, .start new rfl⟩ ?_).bind fun _ h₃ ⟨F', g₃, k⟩ => .pure ⟨new, F', g₃, k.sub, k.done⟩
  intro pre c post h₃ e ⟨F', g₃, k⟩
  refine (Ends.orRelease (Scalar.new_ends g₃) fun e h₄ ⟨short, same⟩ => ?_).bind
    fun r h₄ ⟨fresh, g₄⟩ => ?_
  · subst same
    exact g₃.owns.frees.mono fun _ _ _ => short
  have rune : Facts.IsRune (Function.update F' r (some ⟨.rune, [c.val.toUInt64], []⟩)) r c :=
    Function.update_self ..
  obtain ⟨slots, here, empty, k'⟩ := (e ▸ k.weaken (Gains.one fresh).sub).next rune
  refine (g₄.fillOwned here empty).heap.before fun _ h₅ g₅ => .pure ⟨rfl, _, g₅, ?_⟩
  rw [e]
  exact k'

/-- Runes are read. -/
theorem mapM_spells (sound : h.Sound) (each : runes.Forall₂ (Facts.IsRune h.body?) text) :
    Gives (runes.mapM fun r => (Scalar.toRune r : Action Char)) h fun cs h' => cs = text ∧
    h' = h := by
  induction each with
  | nil => exact .pure ⟨rfl, rfl⟩
  | cons rune _ ih =>
    rw [List.mapM_cons]
    refine .read (Scalar.toRune_isRune sound rune) (ih.bind ?_)
    rintro _ _ ⟨rfl, rfl⟩
    exact .pure ⟨rfl, rfl⟩

/-- A string with the runes of others. -/
theorem ofRunes_spells (g : Reports P (n + 1) O F h) (each : runes.Forall₂ F.IsRune text) :
    Ends Shortage (ofRunes runes) h (Writes P (n + 1) O F text) := by
  refine (mapM_spells g.sound (g.body.symm ▸ each)).before ?_
  rintro cs _ ⟨rfl, rfl⟩
  refine (g.allocate_ends.weaken fun _ _ k => k.1).bind fun s h₁ ⟨new, g₁⟩ => ?_
  refine (g₁.setField_gives (Function.update_self ..) (by simp)).heap.before fun _ h₂ g₂ => ?_
  rw [Function.update_idem, each.length_eq] at g₂
  refine (Ends.fills (I := fun (done : List Address) h' => ∃ F' pre post, cs = pre ++ post ∧
    done.length = pre.length ∧
    Reports P (n + 1) (s ::ₘ O) F' h' ∧ Partly F F' cs pre s)
    ⟨_, [], cs, rfl, rfl, g₂, .start new rfl⟩ ?_).bind
    fun _ h₃ ⟨F', pre, post, e, size, g₃, k⟩ => ?_
  · rintro done r rest h₃ rfl ⟨F', pre, post, rfl, size, g₃, k⟩
    -- The runes that are left spell what is left of the text.
    have left := List.forall₂_drop_append _ pre post each
    rw [← size, List.drop_left] at left
    cases left with
    | @cons _ c _ post rune _ =>
      obtain ⟨slots, here, empty, k'⟩ := k.next (rune.mono k.sub)
      rw [← size] at empty k'
      refine (g₃.fill here empty (rune.mono k.sub).known).heap.before fun _ h₄ g₄ =>
        .pure ⟨rfl, _, pre ++ [c], post, by simp, by simp [size], g₄, k'⟩
  · obtain rfl : post = [] := by
      have := each.length_eq
      rw [e, List.length_append, size] at this
      exact List.eq_nil_of_length_eq_zero (by omega)
    rw [List.append_nil] at e
    exact .pure ⟨new, F', g₃, k.sub, (e ▸ k : Partly F F' cs cs s).done⟩

/-! ## Strings of strings -/

variable {cs ds : List Char} {low high : Int}

theorem concat_spells (g : Reports P (n + 1) O F h) (sa : F.Spells a cs) (sb : F.Spells b ds) :
    Ends Shortage (concat a b) h (Writes P (n + 1) O F (cs ++ ds)) := by
  have body := g.body
  subst body
  obtain ⟨runes, asked, each⟩ := children_spells g.sound sa
  obtain ⟨others, asked', each'⟩ := children_spells g.sound sb
  refine .read (check_spells g.sound sa)
    (.read (check_spells g.sound sb) (.read asked (.read asked' ?_)))
  exact ofRunes_spells g (List.rel_append each each')

/-- The code points from one position up to another one, both of them inside. -/
theorem substring_spells (g : Reports P (n + 1) O F h) (spells : F.Spells s cs) (inside : 0 ≤ low ∧
    low ≤ high)
    (end_inside : high ≤ cs.length) :
    Ends Shortage (substring s low high) h
    (Writes P (n + 1) O F ((cs.take high.toNat).drop low.toNat)) := by
  have body := g.body
  subst body
  obtain ⟨runes, asked, each⟩ := children_spells g.sound spells
  refine .read (size_spells g.sound spells) ?_
  rw [if_neg (by omega), if_neg (by omega)]
  exact .read asked (ofRunes_spells g (List.forall₂_drop _ (List.forall₂_take _ each)))

theorem substring_high (sound : h.Sound) (spells : Facts.Spells h.body? s cs) (outside : high < 0 ∨
    cs.length < high) :
    substring s low high h = .error (.sliceBounds high cs.length) h := by
  have asked : (liftM (size s) : Action Nat) h = .ok cs.length h :=
    lift_query_ok.2 ⟨size_spells sound spells, rfl⟩
  simp only [substring, bind, EStateM.bind, asked, if_pos outside]
  rfl

theorem substring_low (sound : h.Sound) (spells : Facts.Spells h.body? s cs)
    (end_inside : 0 ≤ high ∧ high ≤ cs.length)
    (outside : low < 0 ∨ high < low) : substring s low high h = .error
    (.invalidSliceIndices low high) h := by
  have asked : (liftM (size s) : Action Nat) h = .ok cs.length h :=
    lift_query_ok.2 ⟨size_spells sound spells, rfl⟩
  simp only [substring, bind, EStateM.bind, asked,
    if_neg (show ¬(high < 0 ∨ cs.length < high) by omega),
    if_pos outside]
  rfl

end Text

/-! ## Comparisons -/

namespace BinaryOp

variable {op : BinaryOp} {cs ds : List Char} {truth : Bool}

theorem holds?_compare (op : BinaryOp) (cs ds : List Char) :
    op.holds? (decide (cs = ds)) (decide (cs < ds)) (decide (ds < cs)) =
      match op with
      | .eq => some (decide (cs = ds))
      | .ne => some (!decide (cs = ds))
      | .lt => some (compareOfLessAndEq cs ds == .lt)
      | .le => some (compareOfLessAndEq cs ds != .gt)
      | .gt => some (compareOfLessAndEq cs ds == .gt)
      | .ge => some (compareOfLessAndEq cs ds != .lt)
      | _ => none := by
  unfold compareOfLessAndEq
  rcases lt_trichotomy cs ds with lt | rfl | gt
  · cases op <;> simp [holds?, lt, lt.ne, lt.not_gt]
  · cases op <;> simp [holds?]
  · cases op <;> simp [holds?, gt, gt.ne', gt.not_gt]

/-- Operators that compare say of two strings what they say of the lists of code points. -/
theorem apply_spells (g : Reports P n O F h) (sa : F.Spells a cs) (sb : F.Spells b ds)
    (asks : op.holds? (decide (cs = ds)) (decide (cs < ds)) (decide (ds < cs)) = some truth) :
    Ends Text.Shortage (op.apply a b) h fun v h' => Scalar.toBool v h' = .ok truth := by
  have body := g.body
  subst body
  have answer : Ends Text.Shortage (Scalar.newBool truth) h fun v h' =>
    Scalar.toBool v h' = .ok truth :=
    ((Scalar.new_ends g).weaken fun _ _ k => k.1).mono fun v h' ⟨_, g'⟩ =>
      Scalar.toBool_there g'.sound (by rw [g'.body, Function.update_self])
  have equal := Text.equals_spells g.sound sa sb
  have order := Text.compare_spells g.sound sa sb
  rw [holds?_compare] at asks
  refine .read (Text.view_spells g.sound sa) (.read (Text.view_spells g.sound sb) ?_)
  change Ends _ (op.onStrings a b) h _
  cases op <;> cases asks
  case eq | ne => exact .read equal answer
  case lt | le | gt | ge => exact .read order answer

end BinaryOp
end GoMachine
