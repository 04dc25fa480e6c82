import GoMachine.Proofs.Heap.Facts
/-!
# What belongs to the scheduler and to threads

The scheduler record, the run queue and its links hold the runnable threads, and a waker holds one
that waits; no other record refers to a thread, nor to the run queue. The two stacks of a thread
stand in its own slots only. `Orderly K F O L h` says so of a heap: `F` tells what the records of
the scheduler say, `O` are the references to them and to threads that the machine owns, and `L` are
references about to be dropped. A thread stands in one slot at most, and those that stand in wakers
are among `K`.

All of these are `Private`: whatever a program does with its values keeps to the rest of the heap.

* `Orderly.replace`, `Orderly.put_field`, `Orderly.put_child`, `Orderly.create`: single writes.
* `Orderly.drain`: references given up, with all that is released on the way.
-/
namespace GoMachine

/-- The tags of the records that keep runnable threads. -/
def Tag.isInternal : Tag → Bool
  | .scheduler | .queue | .linkedList => true
  | _ => false

/-- The tags of a thread and of what belongs to it alone. -/
def Tag.isPersonal : Tag → Bool
  | .thread | .control | .stash => true
  | _ => false

/-- The tags of records that refer to nothing private, wherever they are. -/
def Tag.isOpen : Tag → Bool
  | .scheduler | .queue | .linkedList | .thread | .waker => false
  | _ => true

namespace Heap

/-- There is a record with a tag at an address. -/
def HasTag (h : Heap) (t : Tag) (a : Address) : Prop := ∃ c, h.cell? a = some c ∧ c.tag = t

/-- There is a thread at an address, or a stack of one. -/
def Personal (h : Heap) (a : Address) : Prop := ∃ t, t.isPersonal ∧ h.HasTag t a

/-- What programs do not get hold of. -/
def Private (h : Heap) (F : Facts) (a : Address) : Prop := F a ≠ none ∨ h.Personal a

/-- What may stand in a slot of a record, by the tag of the record and the number of the slot. -/
def Fits (h : Heap) (K : Set Address) (F : Facts) (t : Tag) (i : Nat) (b : Address) : Prop :=
  if t = .waker then b = .nil ∨ h.HasTag .thread b ∧ b ∈ K ∧ i = 0
  else if t = .thread ∧ i = 0 then b = .nil ∨ h.HasTag .control b
  else if t = .thread ∧ i = 1 then b = .nil ∨ h.HasTag .stash b
  else ¬h.Private F b

/-- What is private is referred to only from where it belongs. -/
structure Orderly (K : Set Address) (F : Facts) (O L : Multiset Address) (h : Heap) : Prop where
  sound : h.Sound
  body : ∀ {a B}, F a = some B → h.body? a = some B
  internal : ∀ {a B}, F a = some B → B.tag.isInternal
  held : Held F O
  owned : ∀ {a}, a ∈ O → a = .nil ∨ h.Private F a
  count : ∀ {a c}, h.Private F a → h.cell? a = some c → c.count.toNat = (L + O + h.edges).count a
  fits : ∀ {a c i b}, h.cell? a = some c → F a = none → c.children[i]? = some b →
    h.Fits K F c.tag i b
  inner : ∀ {a B b}, F a = some B → b ∈ B.children → b = .nil ∨ F b ≠ none ∨ h.HasTag .thread b
  once : ∀ {u}, h.HasTag .thread u → h.edges.count u ≤ 1

/-- Nothing personal has come up, and no thread has got into more slots. -/
structure Later (h h' : Heap) : Prop where
  personal : ∀ {t u}, t.isPersonal → h'.HasTag t u → h.HasTag t u
  slots : ∀ {u}, h'.HasTag .thread u → h'.edges.count u ≤ h.edges.count u

/-- The threads that are owned keep what stands in their slots. -/
structure Firm (O : Multiset Address) (h h' : Heap) : Prop where
  slots : ∀ {a c}, a ∈ O → h.cell? a = some c → c.tag = .thread →
    ∃ c', h'.cell? a = some c' ∧ c'.tag = .thread ∧ c'.children = c.children

variable {K K' : Set Address} {F J : Facts} {O P L M : Multiset Address}
  {h h₁ h' : Heap} {a b old u : Address} {c c' : Cell} {B : Body} {t : Tag} {i : Nat} {w : UInt64}

theorem HasTag.isLive (k : h.HasTag t a) : h.isLive a := by
  obtain ⟨c, hc, -⟩ := k
  exact (cell?_eq_some.1 hc).1

theorem HasTag.unique {t' : Tag} (k : h.HasTag t a) (k' : h.HasTag t' a) : t = t' := by
  obtain ⟨c, hc, rfl⟩ := k
  obtain ⟨c', hc', rfl⟩ := k'
  obtain rfl : c = c' := by simpa [hc] using hc'
  rfl

theorem HasTag.personal (k : h.HasTag t a) (ht : t.isPersonal) : h.Personal a := ⟨t, ht, k⟩

namespace Later

theorem refl : Later h h := ⟨fun _ hu => hu, fun _ => le_rfl⟩

theorem trans (l₁ : Later h h₁) (l : Later h₁ h') : Later h h' :=
  ⟨fun ht hu => l₁.personal ht (l.personal ht hu),
    fun hu => (l.slots hu).trans (l₁.slots (l.personal rfl hu))⟩

/-- What is not private does not become so. -/
theorem hidden (l : Later h h') (ha : ¬h.Private F a) : ¬h'.Private F a := fun hp =>
  ha (hp.imp_right fun ⟨t, ht, k⟩ => ⟨t, ht, l.personal ht k⟩)

end Later

namespace Firm

theorem refl : Firm O h h := ⟨fun _ hc ht => ⟨_, hc, ht, rfl⟩⟩

theorem trans (f₁ : Firm O h h₁) (f : Firm O h₁ h') : Firm O h h' := by
  refine ⟨fun {a c} ha hc ht => ?_⟩
  obtain ⟨c₁, hc₁, ht₁, e₁⟩ := f₁.slots ha hc ht
  obtain ⟨c', hc', ht', e⟩ := f.slots ha hc₁ ht₁
  exact ⟨c', hc', ht', e.trans e₁⟩

/-- Another record changes, or the same one in other respects. -/
theorem of_becomes (u : Becomes h a (some c') h') (hc : h.cell? a = some c) (tag : c'.tag = c.tag)
    (same : c.tag = .thread → c'.children = c.children) : Firm O h h' := by
  refine ⟨fun {b d} _ hd ht => ?_⟩
  by_cases hb : b = a
  · subst hb
    obtain rfl : c = d := by simpa [hc] using hd
    exact ⟨c', u.cell?_self, tag.trans ht, same ht⟩
  · exact ⟨d, by rwa [u.cell?_of_ne hb], ht, rfl⟩

theorem child (f : Firm O h h') (s : h.Sound) (s' : h'.Sound) (ha : a ∈ O)
    (run : Query.child a .thread i h = .ok b) : Query.child a .thread i h' = .ok b := by
  obtain ⟨c, hc, ht, hb⟩ := s.child_ok.1 (ofHeap_ok.1 run)
  obtain ⟨c', hc', ht', e⟩ := f.slots ha hc ht
  exact ofHeap_ok.2 (s'.child_ok.2 ⟨c', hc', ht', e ▸ hb⟩)

end Firm

/-- What fits a slot still does when no more is private and the stacks are still there. -/
theorem Fits.mono (f : h.Fits K F t i b) (sub : K ⊆ K') (unknown : F b = none → J b = none)
    (personal : h'.Personal b → h.Personal b)
    (kept : ∀ {t'}, t'.isPersonal → h.HasTag t' b → h'.HasTag t' b) : h'.Fits K' J t i b := by
  unfold Fits at f ⊢
  have hidden : ¬h.Private F b → ¬h'.Private J b := fun hb hp =>
    hp.elim (fun k => k (unknown (not_not.1 fun k => hb (.inl k)))) fun k => hb (.inr (personal k))
  split_ifs at f ⊢
  · exact f.imp_right fun k => ⟨kept rfl k.1, sub k.2.1, k.2.2⟩
  · exact f.imp_right (kept rfl)
  · exact f.imp_right (kept rfl)
  · exact hidden f

/-- In most slots only what is not private may stand. -/
theorem fits_iff (ht : t ≠ .waker) (ht' : t ≠ .thread) : h.Fits K F t i b ↔ ¬h.Private F b := by
  simp [Fits, ht, ht']

/-- What stands in a slot changes. -/
theorem Becomes.edges_set (u : Becomes h a (some { c with children := c.children.set i b }) h')
    (hc : h.cell? a = some c) (hold : c.children[i]? = some old) :
    old ::ₘ h'.edges = b ::ₘ h.edges := by
  obtain ⟨hi, rfl⟩ := List.getElem?_eq_some_iff.1 hold
  have e := u.edges
  have moved := Multiset.coe_eq_coe.2 (List.set_perm_cons_eraseIdx hi b)
  have kept := Multiset.coe_eq_coe.2 (List.getElem_cons_eraseIdx_perm hi)
  rw [hc, kids_some, kids_some, moved, ← kept] at e
  simp only [← Multiset.cons_coe, ← Multiset.singleton_add] at e ⊢
  refine add_right_cancel (b := (c.children.eraseIdx i : Multiset Address)) ?_
  calc _ = h'.edges + ({c.children[i]} + (c.children.eraseIdx i : Multiset Address)) := by abel
    _ = h.edges + ({b} + (c.children.eraseIdx i : Multiset Address)) := e
    _ = _ := by abel

/-- The same records have a tag after a change of a record that keeps its tag. -/
theorem Becomes.hasTag_iff (u : Becomes h a (some c') h') (hc : h.cell? a = some c)
    (tag : c'.tag = c.tag) : h'.HasTag t b ↔ h.HasTag t b := by
  unfold HasTag
  by_cases hne : b = a
  · subst hne
    simp [u.cell?_self, hc, tag]
  · rw [u.cell?_of_ne hne]

theorem index_lt_of_child (hc : h.cell? a = some c) (hb : b ∈ c.children) : b.index < 2 ^ 32 := by
  obtain ⟨-, rfl⟩ := cell?_eq_some.1 hc
  obtain ⟨i, -, rfl⟩ := List.mem_map.1 hb
  exact UInt32.toNat_lt _

namespace Orderly

theorem cell (o : Orderly K F O L h) (hB : F a = some B) : ∃ c, h.cell? a = some c ∧ c.body = B :=
  body?_eq_some.1 (o.body hB)

theorem isLive_of_private (o : Orderly K F O L h) (ha : h.Private F a) : h.isLive a := by
  rcases ha with ha | ⟨t, -, k⟩
  · obtain ⟨B, hB⟩ := Option.ne_none_iff_exists'.1 ha
    obtain ⟨c, hc, -⟩ := o.cell hB
    exact (cell?_eq_some.1 hc).1
  · exact k.isLive

/-- Nil is not private, nor is anything else that is no record. -/
theorem not_private_of_dead (o : Orderly K F O L h) (ha : h.isLive a = false) :
    ¬h.Private F a := fun hp => by
  rw [o.isLive_of_private hp] at ha
  cases ha

theorem not_private_nil (o : Orderly K F O L h) : ¬h.Private F .nil :=
  o.not_private_of_dead o.sound.not_isLive_nil

/-- A record that keeps no runnable threads by its tag. -/
theorem none_of_tag (o : Orderly K F O L h) (k : h.HasTag t a) (ht : t.isInternal = false) :
    F a = none := by
  by_contra known
  obtain ⟨B, hB⟩ := Option.ne_none_iff_exists'.1 known
  obtain ⟨c, hc, rfl⟩ := o.cell hB
  have := o.internal hB
  rw [Cell.body, HasTag.unique ⟨c, hc, rfl⟩ k, ht] at this
  cases this

theorem none_of_personal (o : Orderly K F O L h) (ha : h.Personal a) : F a = none := by
  obtain ⟨t, ht, k⟩ := ha
  exact o.none_of_tag k (by cases t <;> first | rfl | cases ht)

theorem not_private_of_tag (o : Orderly K F O L h) (k : h.HasTag t a) (ht : t.isInternal = false)
    (ht' : t.isPersonal = false) : ¬h.Private F a := by
  rintro (known | ⟨t', pers, k'⟩)
  · exact known (o.none_of_tag k ht)
  · rw [k'.unique k, ht'] at pers
    cases pers

/-- Where threads may wait. -/
theorem mono (o : Orderly K F O L h) (sub : K ⊆ K') : Orderly K' F O L h :=
  ⟨o.sound, o.body, o.internal, o.held, o.owned, o.count, fun hc hn hb =>
    (o.fits hc hn hb).mono sub id id fun _ k => k, o.inner, o.once⟩

/-- A record is replaced by one with the same tag. -/
theorem replace (o : Orderly K F O L h) (hc : h.cell? a = some c) (u : Becomes h a (some c') h')
    (tag : c'.tag = c.tag) (same : ∀ b, b ≠ a → J b = F b)
    (here : J a = (F a).map fun _ => c'.body) (held : Held J P)
    (owned : ∀ b ∈ P, b = .nil ∨ h.Private F b)
    (fits : F a = none → ∀ i b, c'.children[i]? = some b → h.Fits K F c.tag i b)
    (inner : F a ≠ none → ∀ b ∈ c'.children, b = .nil ∨ F b ≠ none ∨ h.HasTag .thread b)
    (others : ∀ b, b ≠ a → h.Private F b →
      (M + P + h'.edges).count b = (L + O + h.edges).count b)
    (self : h.Private F a → c'.count.toNat = (M + P + h'.edges).count a)
    (once : ∀ u, h.HasTag .thread u → h'.edges.count u ≤ 1) : Orderly K J P M h' := by
  have hasTag : ∀ {t b}, h'.HasTag t b ↔ h.HasTag t b := u.hasTag_iff hc tag
  have personal : ∀ {b}, h'.Personal b ↔ h.Personal b := by simp [Personal, hasTag]
  have none_iff : ∀ b, J b = none ↔ F b = none := by
    intro b
    by_cases hne : b = a
    · rw [hne, here, Option.map_eq_none_iff]
    · rw [same b hne]
  have priv : ∀ {b}, h'.Private J b ↔ h.Private F b := fun {b} =>
    or_congr (not_congr (none_iff b)) personal
  have still : ∀ {t i b}, h.Fits K F t i b → h'.Fits K J t i b := fun f =>
    f.mono (le_refl K) (none_iff _).2 personal.1 fun _ => hasTag.2
  have cases : ∀ {b d}, h'.cell? b = some d → (b = a ∧ d = c') ∨ (b ≠ a ∧ h.cell? b = some d) := by
    intro b d hb
    by_cases hne : b = a
    · rw [hne, u.cell?_self, Option.some_inj] at hb
      exact .inl ⟨hne, hb.symm⟩
    · exact .inr ⟨hne, by rwa [u.cell?_of_ne hne] at hb⟩
  refine ⟨u.sound, fun {b B} hB => ?_, fun {b B} hB => ?_, held, fun hb =>
    (owned _ hb).imp_right priv.2,
    fun {b d} hp hb => ?_, fun {b d i x} hb hn hx => ?_, fun {b B x} hB hx => ?_,
    fun {v} hv => once v (hasTag.1 hv)⟩
  · by_cases hne : b = a
    · subst hne
      rw [here, Option.map_eq_some_iff] at hB
      obtain ⟨-, -, rfl⟩ := hB
      rw [u.body?_self, Option.map_some]
    · rw [same b hne] at hB
      rw [u.body?_of_ne hne, o.body hB]
  · by_cases hne : b = a
    · subst hne
      rw [here, Option.map_eq_some_iff] at hB
      obtain ⟨C, hC, rfl⟩ := hB
      obtain ⟨d, hd, rfl⟩ := o.cell hC
      obtain rfl : c = d := by simpa [hc] using hd
      have := o.internal hC
      simpa only [Cell.body, tag] using this
    · rw [same b hne] at hB
      exact o.internal hB
  · rw [priv] at hp
    rcases cases hb with ⟨rfl, rfl⟩ | ⟨hne, hb⟩
    · exact self hp
    · rw [o.count hp hb, others b hne hp]
  · rw [none_iff] at hn
    rcases cases hb with ⟨rfl, rfl⟩ | ⟨-, hb⟩
    · rw [tag]
      exact still (fits hn i x hx)
    · exact still (o.fits hb hn hx)
  · refine Or.imp_right (Or.imp (mt (none_iff x).1) hasTag.2) ?_
    by_cases hne : b = a
    · subst hne
      rw [here, Option.map_eq_some_iff] at hB
      obtain ⟨C, hC, rfl⟩ := hB
      exact inner (by simp [hC]) x hx
    · rw [same b hne] at hB
      exact o.inner hB hx

/-- What the children of a record are that is known. -/
theorem inner_cell (o : Orderly K F O L h) (hc : h.cell? a = some c) (known : F a ≠ none) :
    ∀ b ∈ c.children, b = .nil ∨ F b ≠ none ∨ h.HasTag .thread b := by
  intro b hb
  obtain ⟨B, hB⟩ := Option.ne_none_iff_exists'.1 known
  obtain ⟨c', hc', rfl⟩ := o.cell hB
  obtain rfl : c' = c := by simpa [hc] using hc'.symm
  exact o.inner hB hb

/-! ## Changes of a record's own words -/

theorem put_field (o : Orderly K F O L h) (hc : h.cell? a = some c) (hi : i < c.fields.length)
    (same : ∀ b, b ≠ a → J b = F b)
    (here : J a = (F a).map fun _ => { c with fields := c.fields.set i w }.body) (held : Held J O) :
    Orderly K J O L (h.setWord (a.index + 2 + i) w) ∧
      Later h (h.setWord (a.index + 2 + i) w) := by
  have u := o.sound.put_field (w := w) hc hi
  have e := u.edges
  rw [hc, kids_some, kids_some, add_left_inj] at e
  refine ⟨o.replace hc u rfl same here held (fun _ => o.owned) (fun hn i b hb => o.fits hc hn hb)
    (fun known b hb => o.inner_cell hc known b hb) (fun b _ _ => by rw [e])
    (fun hp => ?_) fun v hv => ?_,
    fun _ hv => (u.hasTag_iff hc rfl).1 hv, fun _ => by rw [e]⟩
  · rw [e, ← o.count hp hc]
  · rw [e]
    exact o.once hv

/-- The count of a record changes, and so do the references to it that are owned or loose. -/
theorem put_count (o : Orderly K F O L h) (hc : h.cell? a = some c)
    (held : Held F P) (owned : ∀ b ∈ P, b = .nil ∨ h.Private F b)
    (others : ∀ b, b ≠ a → (M + P).count b = (L + O).count b)
    (self : h.Private F a → w.toNat = (M + P + h.edges).count a) :
    Orderly K F P M (h.setWord (a.index + 1) w) ∧ Later h (h.setWord (a.index + 1) w) := by
  have u := o.sound.put_count hc w
  have e := u.edges
  rw [hc, kids_some, kids_some, add_left_inj] at e
  refine ⟨o.replace hc u rfl (fun _ _ => rfl) ?_ held owned (fun hn i b hb => o.fits hc hn hb)
    (fun known b hb => o.inner_cell hc known b hb) (fun b hne _ => ?_) (fun hp => ?_) fun v hv =>
    ?_,
    fun _ hv => (u.hasTag_iff hc rfl).1 hv, fun _ => by rw [e]⟩
  · cases hB : F a with
    | none => rfl
    | some B =>
      obtain ⟨d, hd, rfl⟩ := o.cell hB
      obtain rfl : c = d := by simpa [hc] using hd
      rfl
  · rw [e, Multiset.count_add, others b hne, ← Multiset.count_add]
  · rw [e]
    exact self hp
  · rw [e]
    exact o.once hv

/-- A reference moves into a slot, and what was there comes loose. -/
theorem put_child (o : Orderly K F O L h) (hc : h.cell? a = some c)
    (hold : c.children[i]? = some old) (hb : b.index < 2 ^ 32)
    (same : ∀ b, b ≠ a → J b = F b)
    (here : J a = (F a).map fun _ => { c with children := c.children.set i b }.body)
    (held : Held J P) (owned : ∀ b ∈ P, b = .nil ∨ h.Private F b)
    (fits : F a = none → h.Fits K F c.tag i b)
    (inner : F a ≠ none → b = .nil ∨ F b ≠ none ∨ h.HasTag .thread b)
    (moved : ∀ x, h.Private F x → (b ::ₘ (M + P)).count x = (old ::ₘ (L + O)).count x)
    (single : h.HasTag .thread b → h.edges.count b = 0 ∨ b = old) :
    Orderly K J P M (h.setWord (a.index + 2 + c.fields.length + i) b.toWord) ∧
      ∀ v, (h.setWord (a.index + 2 + c.fields.length + i) b.toWord).edges.count v ≤
        h.edges.count v + if v = b then 1 else 0 := by
  obtain ⟨hi, -⟩ := List.getElem?_eq_some_iff.1 hold
  have u := o.sound.put_child hc hi hb
  have e := u.edges_set hc hold
  have count : ∀ x, (old ::ₘ
    (h.setWord (a.index + 2 + c.fields.length + i) b.toWord).edges).count x =
      (b ::ₘ h.edges).count x := fun x => by rw [e]
  simp only [Multiset.count_cons] at count moved
  have total : ∀ x, h.Private F x → (M + P + (h.setWord (a.index + 2 + c.fields.length + i)
      b.toWord).edges).count x = (L + O + h.edges).count x := by
    intro x hx
    have := moved x hx
    have := count x
    simp only [Multiset.count_add] at *
    omega
  refine ⟨o.replace hc u rfl same here held owned (fun hn j x hx => ?_) (fun known x hx =>
      (List.mem_or_eq_of_mem_set hx).elim (o.inner_cell hc known x) fun e => e ▸ inner known)
    (fun x _ hx => total x hx)
    (fun hp => by rw [total a hp, ← o.count hp hc]) fun v hv => ?_, fun v => ?_⟩
  · by_cases hij : i = j
    · subst hij
      rw [List.getElem?_set_self hi, Option.some_inj] at hx
      exact hx ▸ fits hn
    · rw [List.getElem?_set_ne hij] at hx
      exact o.fits hc hn hx
  · have changed := count v
    have := o.once hv
    by_cases hvb : v = b
    · subst hvb
      rcases single hv with zero | rfl
      · rw [if_pos rfl, zero] at changed
        omega
      · omega
    · rw [if_neg hvb] at changed
      omega
  · have := count v
    omega

/-! ## New records -/

end Orderly

/-- A record with empty slots comes up where nothing was. If it is private, nothing refers to it
yet. -/
structure Appears (h : Heap) (F : Facts) (a : Address) (c : Cell) (h' : Heap) (J : Facts) :
    Prop where
  dead : h.isLive a = false
  becomes : Becomes h a (some c) h'
  nils : ∀ b ∈ c.children, b = .nil
  same : ∀ b, b ≠ a → J b = F b
  here : J a = none ∨ J a = some c.body ∧ c.tag.isInternal
  unused : h'.Private J a → h.edges.count a = 0

namespace Appears

theorem ne_nil (new : Appears h F a c h' J) : a ≠ .nil := by
  rintro rfl
  have dead := new.becomes.sound.not_isLive_nil
  rw [(cell?_eq_some.1 new.becomes.cell?_self).1] at dead
  cases dead

/-- Its slots are empty. -/
theorem edges_count (new : Appears h F a c h' J) (ne : u ≠ .nil) :
    h'.edges.count u = h.edges.count u := by
  have e := new.becomes.edges
  rw [cell?_eq_none.2 new.dead, kids_none, add_zero, kids_some] at e
  rw [e, Multiset.count_add, Multiset.coe_count, List.count_eq_zero_of_not_mem, add_zero]
  exact fun hm => ne (new.nils u hm)

theorem hasTag_iff (new : Appears h F a c h' J) (ne : b ≠ a) : h'.HasTag t b ↔ h.HasTag t b := by
  unfold HasTag
  rw [new.becomes.cell?_of_ne ne]

theorem private_iff (new : Appears h F a c h' J) (ne : b ≠ a) :
    h'.Private J b ↔ h.Private F b := by
  simp only [Private, Personal, new.hasTag_iff ne, new.same b ne]

/-- What is known of it is what it holds. -/
theorem eq_body (new : Appears h F a c h' J) (hB : J a = some B) :
    B = c.body ∧ c.tag.isInternal := by
  obtain ⟨e, ht⟩ := new.here.resolve_left (by simp [hB])
  exact ⟨Option.some_inj.1 (hB.symm.trans e), ht⟩

theorem body (new : Appears h F a c h' J) (o : Orderly K F O L h) (hB : J b = some B) :
    h'.body? b = some B := by
  by_cases ne : b = a
  · subst ne
    rw [new.becomes.body?_self, (new.eq_body hB).1, Option.map_some]
  · rw [new.same b ne] at hB
    rw [new.becomes.body?_of_ne ne, o.body hB]

theorem internal (new : Appears h F a c h' J) (o : Orderly K F O L h) (hB : J b = some B) :
    B.tag.isInternal := by
  by_cases ne : b = a
  · subst ne
    obtain ⟨rfl, ht⟩ := new.eq_body hB
    exact ht
  · rw [new.same b ne] at hB
    exact o.internal hB

/-- The address of the new record may stand in slots only if the record is not private. -/
theorem still (new : Appears h F a c h' J) {d : Address} {x : Cell} (hd : h.cell? d = some x)
    (hx : x.children[i]? = some b) (f : h.Fits K F t i b) : h'.Fits K J t i b := by
  by_cases hb : b = a
  · subst hb
    have hidden : ¬h'.Private J b := fun hp =>
      (Multiset.count_pos.2 (mem_edges.2 ⟨d, x, hd, List.mem_of_getElem? hx⟩)).ne' (new.unused hp)
    refine f.mono (le_refl K) (fun _ => not_not.1 fun k => hidden (.inl k))
      (fun k => absurd (.inr k) hidden) fun _ k => ?_
    have dead := new.dead
    rw [k.isLive] at dead
    cases dead
  · exact f.mono (le_refl K) (fun k => by rw [new.same b hb, k])
      (fun ⟨t, ht, k⟩ => ⟨t, ht, (new.hasTag_iff hb).1 k⟩) fun _ => (new.hasTag_iff hb).2

theorem fits {d : Cell} (new : Appears h F a c h' J) (o : Orderly K F O L h)
    (hd : h'.cell? b = some d) (unknown : J b = none) (hx : d.children[i]? = some u) :
    h'.Fits K J d.tag i u := by
  by_cases ne : b = a
  · subst ne
    obtain rfl : c = d := Option.some_inj.1 (new.becomes.cell?_self.symm.trans hd)
    obtain rfl := new.nils u (List.mem_of_getElem? hx)
    have hidden : ¬h'.Private J .nil := by
      rw [new.private_iff new.ne_nil.symm]
      exact o.not_private_nil
    unfold Fits
    split_ifs
    · exact .inl rfl
    · exact .inl rfl
    · exact .inl rfl
    · exact hidden
  · rw [new.becomes.cell?_of_ne ne] at hd
    rw [new.same b ne] at unknown
    exact new.still hd hx (o.fits hd unknown hx)

theorem inner (new : Appears h F a c h' J) (o : Orderly K F O L h) (hB : J b = some B)
    (hx : u ∈ B.children) : u = .nil ∨ J u ≠ none ∨ h'.HasTag .thread u := by
  by_cases ne : b = a
  · subst ne
    obtain ⟨rfl, -⟩ := new.eq_body hB
    exact .inl (new.nils u hx)
  · rw [new.same b ne] at hB
    refine (o.inner hB hx).imp_right fun private' => ?_
    have live : u ≠ a := by
      rintro rfl
      exact o.not_private_of_dead new.dead (private'.imp_right fun k => k.personal rfl)
    rwa [new.same u live, new.hasTag_iff live]

theorem once (new : Appears h F a c h' J) (o : Orderly K F O L h) (k : h'.HasTag .thread u) :
    h'.edges.count u ≤ 1 := by
  by_cases ne : u = a
  · subst ne
    rw [new.edges_count new.ne_nil, new.unused (.inr (k.personal rfl))]
    exact Nat.zero_le 1
  · have k := (new.hasTag_iff ne).1 k
    rw [new.edges_count (o.sound.ne_nil k.isLive)]
    exact o.once k

theorem count {d : Cell} (new : Appears h F a c h' J) (o : Orderly K F O L h)
    (others : ∀ b, b ≠ a → P.count b = O.count b)
    (first : h'.Private J a → c.count.toNat = (L + P).count a) (hp : h'.Private J b)
    (hd : h'.cell? b = some d) : d.count.toNat = (L + P + h'.edges).count b := by
  by_cases ne : b = a
  · subst ne
    obtain rfl : c = d := Option.some_inj.1 (new.becomes.cell?_self.symm.trans hd)
    rw [Multiset.count_add, new.edges_count new.ne_nil, new.unused hp, first hp, add_zero]
  · rw [new.private_iff ne] at hp
    rw [new.becomes.cell?_of_ne ne] at hd
    have there : b ≠ .nil := fun e => o.not_private_nil (e ▸ hp)
    rw [o.count hp hd, Multiset.count_add, Multiset.count_add, Multiset.count_add,
      Multiset.count_add, others b ne, new.edges_count there]

end Appears

namespace Orderly

/-- A record comes up where nothing was, and may be owned from now on. -/
theorem create (o : Orderly K F O L h) (new : Appears h F a c h' J) (held : Held J P)
    (owned : ∀ b ∈ P, b ≠ a → b ∈ O) (mine : a ∈ P → h'.Private J a)
    (others : ∀ b, b ≠ a → P.count b = O.count b)
    (first : h'.Private J a → c.count.toNat = (L + P).count a) : Orderly K J P L h' where
  sound := new.becomes.sound
  body := new.body o
  internal := new.internal o
  held := held
  owned {b} hb := by
    by_cases ne : b = a
    · exact .inr (ne ▸ mine (ne ▸ hb))
    · exact (o.owned (owned b hb ne)).imp_right (new.private_iff ne).2
  count := new.count o others first
  fits := new.fits o
  inner := new.inner o
  once := new.once o

/-! ## Dropping references -/

/-- A record goes away, and the references in its slots come loose. -/
theorem release (o : Orderly K F O (a ::ₘ L) h) (hc : h.cell? a = some c) (last : c.count = 1)
    (u : Becomes h a none h') :
    Orderly K F O (c.children + L) h' ∧ Later h h' ∧ Firm O h h' := by
  have e : h'.edges + c.children = h.edges := by simpa [hc] using u.edges
  -- a private record that is owned or known has another reference beside the one that is dropped
  have loose : h.Private F a → a ∉ O ∧ h.edges.count a = 0 := by
    intro hp
    have count := o.count hp hc
    rw [last, Multiset.cons_add, Multiset.cons_add, Multiset.count_cons_self, Multiset.count_add,
      Multiset.count_add] at count
    rw [← Multiset.count_eq_zero]
    simp only [UInt64.toNat_one] at count
    omega
  have unknown : F a = none := by
    by_contra known
    obtain ⟨B, hB⟩ := Option.ne_none_iff_exists'.1 known
    obtain ⟨unheld, zero⟩ := loose (.inl known)
    rcases o.held a B hB with ho | ⟨d, D, hd, hm⟩
    · exact unheld ho
    · obtain ⟨x, hx, rfl⟩ := o.cell hd
      exact absurd (Multiset.count_pos.2 (mem_edges.2 ⟨d, x, hx, hm⟩)) (by omega)
  have other : ∀ {b d}, h'.cell? b = some d → b ≠ a ∧ h.cell? b = some d := by
    intro b d hb
    have hne : b ≠ a := by
      rintro rfl
      rw [u.cell?_self] at hb
      cases hb
    exact ⟨hne, by rwa [u.cell?_of_ne hne] at hb⟩
  have personal : ∀ {t b}, h'.HasTag t b → h.HasTag t b := fun ⟨d, hd, ht⟩ => ⟨d, (other hd).2, ht⟩
  have kept : ∀ {t b}, b ≠ a → h.HasTag t b → h'.HasTag t b := fun {t b} hb ⟨d, hd, ht⟩ =>
    ⟨d, by rwa [u.cell?_of_ne hb], ht⟩
  have later : Later h h' := ⟨fun _ => personal, fun {v} _ => by
    rw [← e]
    exact Multiset.count_le_of_le v (Multiset.le_add_right _ _)⟩
  refine ⟨⟨u.sound, fun {b B} hB => ?_, o.internal, o.held, fun {b} hb => ?_,
    fun {b d} hp hb => ?_, fun {b d i x} hb hn hx => ?_, fun {b B x} hB hx => ?_,
    fun hv => (later.slots hv).trans (o.once (personal hv))⟩, later, ⟨fun {b d} hb hd ht => ?_⟩⟩
  · have hne : b ≠ a := by
      rintro rfl
      rw [unknown] at hB
      cases hB
    rw [u.body?_of_ne hne, o.body hB]
  · refine (o.owned hb).imp_right fun priv => ?_
    have hne : b ≠ a := by
      rintro rfl
      exact (loose priv).1 hb
    exact priv.imp_right fun ⟨t, ht, k⟩ => ⟨t, ht, kept hne k⟩
  · obtain ⟨hne, hb⟩ := other hb
    rw [o.count (hp.imp_right fun ⟨t, ht, k⟩ => ⟨t, ht, personal k⟩) hb, ← e, Multiset.cons_add,
      Multiset.cons_add, Multiset.count_cons_of_ne hne]
    simp only [Multiset.count_add]
    omega
  · obtain ⟨-, hb⟩ := other hb
    refine (o.fits hb hn hx).mono (le_refl K) id (fun ⟨t, ht, k⟩ => ⟨t, ht, personal k⟩) fun ht k =>
      kept (fun e => ?_) k
    subst e
    exact (Multiset.count_pos.2 (mem_edges.2 ⟨b, d, hb, List.mem_of_getElem? hx⟩)).ne'
      (loose (.inr (k.personal ht))).2
  · refine (o.inner hB hx).imp_right (.imp_right fun k => kept (fun e => ?_) k)
    subst e
    obtain ⟨d, hd, rfl⟩ := o.cell hB
    exact (Multiset.count_pos.2 (mem_edges.2 ⟨b, d, hd, hx⟩)).ne' (loose (.inr (k.personal rfl))).2
  · have hne : b ≠ a := by
      rintro rfl
      exact (loose (.inr (HasTag.personal ⟨d, hd, ht⟩ rfl))).1 hb
    exact ⟨d, by rwa [u.cell?_of_ne hne], ht, rfl⟩

/-- A reference is dropped, and others keep the record. -/
theorem lower (o : Orderly K F O (a ::ₘ L) h) (hc : h.cell? a = some c) (counted : c.count ≠ 0) :
    Orderly K F O L (h.setWord (a.index + 1) (c.count - 1)) ∧
      Later h (h.setWord (a.index + 1) (c.count - 1)) ∧
      Firm O h (h.setWord (a.index + 1) (c.count - 1)) := by
  have pos : 1 ≤ c.count := by grind
  have pred : (c.count - 1).toNat = c.count.toNat - 1 := UInt64.toNat_sub_of_le _ _ pos
  have others : ∀ b, b ≠ a → (L + O).count b = (a ::ₘ L + O).count b := fun b hne => by
    rw [Multiset.cons_add, Multiset.count_cons_of_ne hne]
  obtain ⟨o', l⟩ := o.put_count hc o.held (fun _ => o.owned) others fun hp => by
    rw [pred, o.count hp hc, Multiset.cons_add, Multiset.cons_add, Multiset.count_cons_self,
      Nat.add_sub_cancel]
  exact ⟨o', l, .of_becomes (o.sound.put_count hc _) hc rfl fun _ => rfl⟩

/-- Loose references to what is not private do not matter. -/
theorem congr (o : Orderly K F O L h) (same : ∀ a, h.Private F a → M.count a = L.count a) :
    Orderly K F O M h :=
  ⟨o.sound, o.body, o.internal, o.held, o.owned, fun {a c} hp hc => by
    rw [o.count hp hc, Multiset.count_add, Multiset.count_add, Multiset.count_add,
      Multiset.count_add, same a hp], o.fits, o.inner, o.once⟩

/-- Loose references are dropped. -/
theorem drain {l : List Address} (o : Orderly K F O l h) (run : h.drain l = .ok () h') :
    Orderly K F O 0 h' ∧ Later h h' ∧ Firm O h h' := by
  induction h, l using Heap.drain.induct with
  | case1 h =>
    rw [Heap.drain] at run
    cases run
    exact ⟨o, .refl, .refl⟩
  | case2 h a rest hn ih =>
    rw [Heap.drain, if_pos hn] at run
    obtain rfl := Address.isNil_iff.1 hn
    refine ih (o.congr fun b hp => ?_) run
    have : b ≠ .nil := fun e => o.not_private_nil (e ▸ hp)
    rw [← Multiset.cons_coe, Multiset.count_cons_of_ne this]
  | case3 h a rest hn hl count h0 =>
    rw [Heap.drain, if_neg hn, dif_pos hl] at run
    simp [count] at h0
    simp [h0] at run
  | case4 h a rest hn hl count h0 hd next pool last q hq ih =>
    rw [← Multiset.cons_coe] at o
    have hc := cell?_eq_some.2 ⟨hl, rfl⟩
    have u := o.sound.put_count hc (count - 1)
    obtain ⟨q', hq', u'⟩ := u.sound.discarded (a := a) (h := h.setWord (a.index + 1) (count - 1)) hl
    obtain rfl : q' = q := by simpa [Heap.setWord, hq, pool] using hq'.symm
    rw [Heap.drain, if_neg hn, dif_pos hl] at run
    dsimp only at run
    rw [if_neg h0, if_pos last, show (h.pool.setWord _ _).deallocate a.index =
      .ok q' from hq] at run
    obtain ⟨o₁, l₁, f₁⟩ := o.release hc last.1 (u.trans u')
    have e : ((h.cellAt a).children + rest : Multiset Address) = next := by
      rw [Multiset.coe_add, Multiset.coe_eq_coe]
      exact ((List.reverse_perm _).append_right rest).symm
    obtain ⟨o', l', f'⟩ := ih (e ▸ o₁) run
    exact ⟨o', l₁.trans l', f₁.trans f'⟩
  | case5 h a rest hn hl count h0 hd pool last e he =>
    rw [Heap.drain, if_neg hn, dif_pos hl] at run
    dsimp only at run
    rw [if_neg h0, if_pos last, show (h.pool.setWord _ _).deallocate a.index =
      .error e from he] at run
    cases run
  | case6 h a rest hn hl count h0 hd pool kept ih =>
    rw [← Multiset.cons_coe] at o
    have hc := cell?_eq_some.2 ⟨hl, rfl⟩
    rw [Heap.drain, if_neg hn, dif_pos hl] at run
    dsimp only at run
    rw [if_neg h0, if_neg kept] at run
    obtain ⟨o₁, l₁, f₁⟩ := o.lower hc h0
    obtain ⟨o', l', f'⟩ := ih o₁ run
    exact ⟨o', l₁.trans l', f₁.trans f'⟩
  | case7 h a rest hn hl =>
    rw [Heap.drain, if_neg hn, dif_neg hl] at run
    cases run

end Orderly
end Heap
end GoMachine
