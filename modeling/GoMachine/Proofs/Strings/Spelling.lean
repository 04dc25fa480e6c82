import Mathlib.Data.String.Basic
import GoMachine.Proofs.Slices.Contents
import GoMachine.Value.Operator
/-!
# What strings spell

A string spells a row of code points: its field is their hash, and its children are runes, one for
each. Where a string spells something, whatever is asked of it is answered by what it spells.

* `Text.toString_spells`, `Text.size_spells`, `Text.hash_spells`: the text, its length and its hash.
* `Text.equals_spells`, `Text.eqString_spells`: strings are equal if they spell the same, whatever
  their hashes are.
* `Text.compare_spells`: strings are ordered as lists of code points are.
-/
namespace GoMachine

namespace Facts

/-- A rune. -/
def IsRune (F : Facts) (r : Address) (c : Char) : Prop := F r = some ⟨.rune, [c.val.toUInt64], []⟩

/-- A string of code points. -/
def Spells (F : Facts) (s : Address) (cs : List Char) : Prop :=
  ∃ runes, F s = some ⟨.string, [Text.hashOf cs], runes⟩ ∧ runes.Forall₂ F.IsRune cs

variable {F F' : Facts} {r s : Address} {runes : List Address} {c : Char} {cs : List Char}

theorem IsRune.mono (rune : F.IsRune r c) (sub : F.Sub F') : F'.IsRune r c := sub rune

theorem IsRune.known (rune : F.IsRune r c) : F r ≠ none := Option.ne_none_iff_exists'.2 ⟨_, rune⟩

theorem Spells.mono (spells : F.Spells s cs) (sub : F.Sub F') : F'.Spells s cs := by
  obtain ⟨runes, here, each⟩ := spells
  exact ⟨runes, sub here, each.imp fun _ _ rune => rune.mono sub⟩

end Facts

variable {h : Heap} {r s a b : Address} {c : Char} {cs ds : List Char} {runes : List Address}

namespace Scalar

theorem runeOfWord_val (c : Char) : runeOfWord c.val.toUInt64 = c := by
  have e : c.val.toUInt64.toUInt32.toNat = c.toNat :=
    congrArg UInt32.toNat (UInt32.toUInt32_toUInt64 c.val)
  unfold runeOfWord
  rw [e]
  exact (if_pos c.valid).trans (Char.ofNat_toNat c)

theorem toRune_isRune (sound : h.Sound) (rune : Facts.IsRune h.body? r c) : toRune r h = .ok c := by
  refine query_bind_ok.2 ⟨.rune, sound.tag_there rune,
    query_bind_ok.2 ⟨_, sound.field_there rune rfl, ?_⟩⟩
  exact query_pure_ok.2 (runeOfWord_val c)

theorem toBool_there {t : Bool} (sound : h.Sound)
    (here : h.body? a = some ⟨.bool, [wordOfBool t], []⟩) :
    toBool a h = .ok t := by
  refine query_bind_ok.2 ⟨.bool, sound.tag_there here,
    query_bind_ok.2 ⟨_, sound.field_there here rfl, ?_⟩⟩
  cases t <;> rfl

end Scalar

namespace Text

variable (sound : h.Sound)

include sound

theorem mapM_isRune (each : runes.Forall₂ (Facts.IsRune h.body?) cs) :
    runes.mapM Scalar.toRune h = .ok cs := by
  induction each with
  | nil => rfl
  | cons rune _ ih =>
    rw [List.mapM_cons]
    exact query_bind_ok.2 ⟨_, Scalar.toRune_isRune sound rune, query_bind_ok.2 ⟨_, ih, rfl⟩⟩

theorem check_spells (spells : Facts.Spells h.body? s cs) : check s h = .ok () := by
  obtain ⟨runes, here, -⟩ := spells
  exact sound.require_there here

theorem children_spells (spells : Facts.Spells h.body? s cs) :
    ∃ runes, Query.children s h = .ok runes ∧ runes.Forall₂ (Facts.IsRune h.body?) cs := by
  obtain ⟨runes, here, each⟩ := spells
  obtain ⟨cell, hc, e⟩ := Heap.body?_eq_some.1 here
  exact ⟨runes, ofHeap_ok.2 (sound.children_ok.2 (.inr ⟨cell, hc, congrArg Body.children e⟩)), each⟩

theorem view_spells (spells : Facts.Spells h.body? s cs) :
    View.of s h = .ok (.record .string s) := by
  obtain ⟨runes, here, -⟩ := spells
  exact query_bind_ok.2 ⟨.string, sound.tag_there here, rfl⟩

theorem size_spells (spells : Facts.Spells h.body? s cs) : size s h = .ok cs.length := by
  refine query_bind_ok.2 ⟨(), check_spells sound spells, ?_⟩
  obtain ⟨runes, here, each⟩ := spells
  obtain ⟨cell, hc, e⟩ := Heap.body?_eq_some.1 here
  refine ofHeap_ok.2 (sound.numChildren_ok.2 (.inr ⟨cell, hc, ?_⟩))
  rw [← each.length_eq]
  exact congrArg (·.children.length) e

theorem hash_spells (spells : Facts.Spells h.body? s cs) : hash s h = .ok (hashOf cs) := by
  refine query_bind_ok.2 ⟨(), check_spells sound spells, ?_⟩
  obtain ⟨runes, here, -⟩ := spells
  exact sound.field_there here rfl

theorem toList_spells (spells : Facts.Spells h.body? s cs) : toList s h = .ok cs := by
  obtain ⟨runes, asked, each⟩ := children_spells sound spells
  exact query_bind_ok.2 ⟨(), check_spells sound spells,
    query_bind_ok.2 ⟨_, asked, mapM_isRune sound each⟩⟩

theorem toString_spells (spells : Facts.Spells h.body? s cs) : toString s h = .ok (.ofList cs) :=
  query_bind_ok.2 ⟨_, toList_spells sound spells, rfl⟩

/-! ## Comparisons -/

theorem sameRunes_spells {α : Type} {read : α → Query Char} {xs : List α}
    (each : runes.Forall₂ (Facts.IsRune h.body?) cs)
    (others : xs.Forall₂ (fun x d => read x h = .ok d) ds)
    (size : cs.length = ds.length) : sameRunes read runes xs h = .ok (decide (cs = ds)) := by
  induction each generalizing xs ds with
  | nil =>
    obtain rfl := List.eq_nil_of_length_eq_zero size.symm
    cases others
    rfl
  | @cons r c runes cs rune _ ih =>
    cases others with
    | nil => cases size
    | @cons x d xs ds asked others =>
      refine query_bind_ok.2 ⟨c, Scalar.toRune_isRune sound rune, query_bind_ok.2 ⟨d, asked, ?_⟩⟩
      by_cases e : c = d
      · rw [if_pos e, ih others (Nat.succ.inj size)]
        simp [e]
      · rw [if_neg e]
        simp [e, query_pure_ok]

/-- Two strings are equal if they spell the same: a hash or a length that differs shows that they do
not, and the runes decide where these agree. -/
theorem equals_spells (sa : Facts.Spells h.body? a cs) (sb : Facts.Spells h.body? b ds) :
    equals a b h = .ok (decide (cs = ds)) := by
  unfold equals
  by_cases same : a = b
  · subst same
    obtain rfl : cs = ds := by
      have := (toList_spells sound sa).symm.trans (toList_spells sound sb)
      exact Except.ok.inj this
    rw [if_pos rfl, decide_eq_true rfl]
    rfl
  rw [if_neg same]
  refine query_bind_ok.2 ⟨_, hash_spells sound sa, query_bind_ok.2 ⟨_, hash_spells sound sb, ?_⟩⟩
  by_cases hashes : hashOf cs = hashOf ds
  swap
  · rw [if_pos hashes, decide_eq_false fun e => hashes (congrArg hashOf e)]
    rfl
  rw [if_neg (not_not.2 hashes)]
  refine query_bind_ok.2 ⟨_, size_spells sound sa, query_bind_ok.2 ⟨_, size_spells sound sb, ?_⟩⟩
  by_cases sizes : cs.length = ds.length
  swap
  · rw [if_pos sizes, decide_eq_false fun e => sizes (congrArg List.length e)]
    rfl
  rw [if_neg (not_not.2 sizes)]
  obtain ⟨runes, asked, each⟩ := children_spells sound sa
  obtain ⟨others, asked', each'⟩ := children_spells sound sb
  refine query_bind_ok.2 ⟨_, asked, query_bind_ok.2 ⟨_, asked', ?_⟩⟩
  exact sameRunes_spells sound each
    (each'.imp fun _ _ rune => Scalar.toRune_isRune sound rune) sizes

theorem eqString_spells {text : String} (spells : Facts.Spells h.body? s cs) :
    eqString s text h = .ok (decide (cs = text.toList)) := by
  refine query_bind_ok.2 ⟨_, hash_spells sound spells, ?_⟩
  by_cases hashes : hashOf cs = hashOf text.toList
  swap
  · rw [if_pos hashes, decide_eq_false fun e => hashes (congrArg hashOf e)]
    rfl
  rw [if_neg (not_not.2 hashes)]
  refine query_bind_ok.2 ⟨_, size_spells sound spells, ?_⟩
  by_cases sizes : cs.length = text.toList.length
  swap
  · rw [if_pos sizes, decide_eq_false fun e => sizes (congrArg List.length e)]
    rfl
  rw [if_neg (not_not.2 sizes)]
  obtain ⟨runes, asked, each⟩ := children_spells sound spells
  refine query_bind_ok.2 ⟨_, asked, sameRunes_spells sound each ?_ sizes⟩
  exact List.forall₂_same.2 fun _ _ => rfl

/-- Strings are ordered as the lists of their code points. -/
theorem compare_spells (sa : Facts.Spells h.body? a cs) (sb : Facts.Spells h.body? b ds) :
    compare a b h = .ok (compareOfLessAndEq cs ds) := by
  refine query_bind_ok.2 ⟨_, toString_spells sound sa,
    query_bind_ok.2 ⟨_, toString_spells sound sb, ?_⟩⟩
  refine query_pure_ok.2 ?_
  change compareOfLessAndEq (String.ofList cs) (String.ofList ds) = _
  simp only [compareOfLessAndEq, String.lt_iff_toList_lt, String.toList_ofList, String.ofList_inj]

end Text
end GoMachine
