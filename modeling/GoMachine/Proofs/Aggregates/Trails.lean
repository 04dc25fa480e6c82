import GoMachine.Proofs.Heap.Reports
import GoMachine.Proofs.Owns.Types
/-!
# Chains of entries and frames

Entries are linked to the entries behind them, and frames to the frames around them. Each link is
made together with its record and leads to a record that is there already, so that no chain leads
back to itself: whoever walks along one comes to its end. `Facts.Listed` says so. It is kept by
everything that writes to frames and to declarations in no other way than through a new entry in
front of others.

* `Trail`: a walk along links to its end.
* `Listed.add`, `Listed.sub`: records that come and go.
* `Listing`: a ledger that keeps the chains.
-/
namespace GoMachine

open Heap (Owns Reports)

/-- Where a slot of a record of the tag leads to. -/
def Facts.link (F : Facts) (t : Tag) (i : Nat) (a : Address) : Option Address :=
  (F a).bind fun B => if B.tag = t then B.children[i]? else none

/-- The records on the way along links from an address to the end. -/
inductive Trail (next : Address → Option Address) : Address → List Address → Prop
  | stop {a : Address} : next a = none → Trail next a []
  | step {a b : Address} {l : List Address} : next a = some b → Trail next b l →
      Trail next a (a :: l)

variable {P O : Multiset Address} {n : Nat} {F F' : Facts} {h h' : Heap} {a b e : Address}
    {D : Body} {t : Tag}
  {i : Nat} {next next' : Address → Option Address} {l l' : List Address}

namespace Facts

theorem link_eq_some : F.link t i a = some b ↔ ∃ D, F a = some D ∧ D.tag = t ∧
    D.children[i]? = some b := by
  unfold link
  cases F a <;> simp

/-- Links of a record that is changed elsewhere. -/
theorem link_congr {o : Option Body} (ne : b ≠ a) :
    link (Function.update F a o) t i b = F.link t i b := by
  rw [link, Function.update_of_ne ne, link]

theorem Sub.link (sub : F'.Sub F) (found : F'.link t i a = some b) : F.link t i a = some b := by
  obtain ⟨D, hD, ht, hb⟩ := link_eq_some.1 found
  exact link_eq_some.2 ⟨D, sub hD, ht, hb⟩

end Facts

namespace Trail

theorem unique (k : Trail next a l) (k' : Trail next a l') : l = l' := by
  induction k generalizing l' with
  | stop ended =>
    cases k' with
    | stop => rfl
    | step found => rw [ended] at found; cases found
  | step found _ ih =>
    cases k' with
    | stop ended => rw [ended] at found; cases found
    | step found' k' =>
      obtain rfl := Option.some_inj.1 (found.symm.trans found')
      rw [ih k']

/-- The rest of a walk. -/
theorem rest (k : Trail next a l) (hb : b ∈ l) : ∃ l', Trail next b l' ∧ l'.length ≤ l.length := by
  induction k with
  | stop => cases hb
  | @step a c l found k ih =>
    rcases List.mem_cons.1 hb with rfl | hb
    · exact ⟨_, .step found k, le_rfl⟩
    · obtain ⟨l', k', le⟩ := ih hb
      exact ⟨l', k', le.trans (Nat.le_succ _)⟩

/-- Nobody comes by twice. -/
theorem nodup (k : Trail next a l) : l.Nodup := by
  induction k with
  | stop => exact List.nodup_nil
  | @step a b l found k ih =>
    refine List.nodup_cons.2 ⟨fun again => ?_, ih⟩
    obtain ⟨l', k', le⟩ := k.rest again
    rw [k'.unique (.step found k)] at le
    exact absurd le (Nat.not_succ_le_self _)

theorem goes_on (k : Trail next a l) (hb : b ∈ l) : next b ≠ none := by
  induction k with
  | stop => cases hb
  | step found _ ih =>
    rcases List.mem_cons.1 hb with rfl | hb
    · rw [found]
      simp
    · exact ih hb

/-- A walk along some of the links. -/
theorem sub (k : Trail next a l) (less : ∀ ⦃a b⦄, next' a = some b → next a = some b) : ∃ l',
    Trail next' a l' := by
  induction k with
  | @stop a ended =>
    refine ⟨[], .stop ?_⟩
    by_contra known
    obtain ⟨b, found⟩ := Option.ne_none_iff_exists'.1 known
    rw [less found] at ended
    cases ended
  | @step a b l found _ ih =>
    obtain ⟨l', k'⟩ := ih
    cases found' : next' a with
    | none => exact ⟨[], .stop found'⟩
    | some c =>
      obtain rfl := Option.some_inj.1 (found.symm.trans (less found'))
      exact ⟨a :: l', .step found' k'⟩

/-- A walk along links of records is no longer than there are records. -/
theorem length_le (k : Trail (F.link t i) a l) (s : h.Sound) (there : F.Sub h.body?) :
    l.length ≤ h.liveCount := by
  refine (s.length_le k.nodup fun b hb => ?_).1
  obtain ⟨c, found⟩ := Option.ne_none_iff_exists'.1 (k.goes_on hb)
  obtain ⟨D, hD, -⟩ := Facts.link_eq_some.1 found
  obtain ⟨cell, hc, -⟩ := Heap.body?_eq_some.1 (there hD)
  exact (Heap.cell?_eq_some.1 hc).1

end Trail

/-- The chains of entries and frames come to an end. -/
structure Facts.Listed (F : Facts) : Prop where
  entries : ∀ a, ∃ l, Trail (F.link .entry 2) a l
  frames : ∀ a, ∃ l, Trail (F.link .frame 0) a l

namespace Facts.Listed

/-- Fewer records. -/
theorem sub (listed : F.Listed) (less : F'.Sub F) : F'.Listed :=
  ⟨fun a => (listed.entries a).elim fun _ k => k.sub fun _ _ => less.link,
    fun a => (listed.frames a).elim fun _ k => k.sub fun _ _ => less.link⟩

/-- There is no more to walk along. -/
theorem of_links (listed : F.Listed) (entries : ∀ a b, link F' .entry 2 a = some b →
    link F .entry 2 a = some b)
    (frames : ∀ a b, link F' .frame 0 a = some b → F.link .frame 0 a = some b) : F'.Listed :=
  ⟨fun a => (listed.entries a).elim fun _ k => k.sub fun a b => entries a b,
    fun a => (listed.frames a).elim fun _ k => k.sub fun a b => frames a b⟩

/-- A slot changes that no walk leads along. -/
theorem write (listed : F.Listed) (ha : F a = some D) {C : Body} (tag : C.tag = D.tag)
    (entry : D.tag = .entry → C.children[2]? = D.children[2]?)
    (frame : D.tag = .frame → C.children[0]? = D.children[0]?) :
    Listed (Function.update F a (some C)) := by
  have same {t : Tag} {i : Nat} (slot : D.tag = t → C.children[i]? = D.children[i]?) (b : Address) :
      link (Function.update F a (some C)) t i b = F.link t i b := by
    by_cases e : b = a
    · subst e
      rw [link, link, Function.update_self, ha, Option.bind_some, Option.bind_some, tag]
      split_ifs with ht
      · exact slot ht
      · rfl
    · exact link_congr e
  exact listed.of_links (fun b _ found => (same entry b).symm.trans found)
    fun b _ found => (same frame b).symm.trans found

/-- A new record leads to records that were there before. -/
theorem add (listed : F.Listed) (closed : Closed F) (new : F e = none) (there : e ≠ .nil)
    (entry : D.tag = .entry → ∀ b, D.children[2]? = .some b → b = .nil ∨ F b ≠ none)
    (frame : D.tag = .frame → ∀ b, D.children[0]? = .some b → b = .nil ∨ F b ≠ none) :
    Listed (Function.update F e (.some D)) := by
  have elsewhere {a : Address} {t : Tag} {i : Nat} {l : List Address} (k : Trail (F.link t i) a l)
    (ne : a ≠ e) :
      Trail (link (Function.update F e (.some D)) t i) a l := by
    induction k with
    | stop ended => exact .stop ((link_congr ne).trans ended)
    | step found _ ih =>
      refine .step ((link_congr ne).trans found) (ih ?_)
      obtain ⟨B, hB, -, hb⟩ := link_eq_some.1 found
      rintro rfl
      exact (closed _ B _ hB (List.mem_of_getElem? hb)).elim there fun known => known new
  have all {t : Tag} {i : Nat} (old : D.tag = t → ∀ b, D.children[i]? = .some b → b = .nil ∨
    F b ≠ none)
      (k : ∀ a, ∃ l, Trail (F.link t i) a l) (a : Address) :
      ∃ l, Trail (link (Function.update F e (.some D)) t i) a l := by
    by_cases ne : a = e
    · subst ne
      cases found : link (Function.update F a (.some D)) t i a with
      | none => exact ⟨[], .stop found⟩
      | some b =>
        obtain ⟨l, hl⟩ := k b
        obtain ⟨B, hB, ht, hb⟩ := link_eq_some.1 found
        rw [Function.update_self, Option.some_inj] at hB
        subst hB
        refine ⟨a :: l, .step found (elsewhere hl ?_)⟩
        rintro rfl
        exact (old ht b hb).elim there fun known => known new
    · exact (k a).imp fun l hl => elsewhere hl ne
  exact ⟨all entry listed.entries, all frame listed.frames⟩

/-- Without entries and frames there is nothing to walk along. -/
theorem bare (plain : ∀ a D, F a = some D → D.tag ≠ .entry ∧ D.tag ≠ .frame) : F.Listed := by
  have stop {t : Tag} {i : Nat} (other : ∀ a D, F a = some D → D.tag ≠ t) (a : Address) :
      ∃ l, Trail (F.link t i) a l := by
    refine ⟨[], .stop ?_⟩
    by_contra found
    obtain ⟨b, found⟩ := Option.ne_none_iff_exists'.1 found
    obtain ⟨D, hD, ht, -⟩ := link_eq_some.1 found
    exact other a D hD ht
  exact ⟨stop fun a D hD => (plain a D hD).1, stop fun a D hD => (plain a D hD).2⟩

end Facts.Listed

/-! ## What keeps the chains -/

/-- What a client owns, in a heap whose chains come to an end. -/
structure Listing (P : Multiset Address) (n : Nat) (O : Multiset Address) (h : Heap) : Prop where
  owns : Owns P n O h
  listed : Facts.Listed h.body?

/-- An entry is all that comes. -/
theorem Entry.create_reports {key value next : Address} (g : Reports P (n + 1) O F h) :
    Yields (create key value next) h fun e h' => F e = none ∧
      Reports P (n + 1) (e ::ₘ O)
      (Function.update F e (some ⟨.entry, [], [key, value, next]⟩)) h' := by
  refine g.allocate.heap.bind fun e h₁ ⟨new, g⟩ => ?_
  refine (g.setChild (Function.update_self ..) fun d hd => .inl ?_).heap.bind fun _ h₂ g => ?_
  · simpa using hd.symm
  refine (g.setChild (Function.update_self ..) fun d hd => .inl ?_).heap.bind fun _ h₃ g => ?_
  · simpa using hd.symm
  refine (g.setChild (Function.update_self ..) fun d hd => .inl ?_).heap.bind fun _ h₄ g => ?_
  · simpa using hd.symm
  rw [Function.update_idem, Function.update_idem, Function.update_idem] at g
  exact .pure ⟨new, g⟩

/-- A frame is all that comes. -/
theorem Frame.create_reports {parent : Address} (g : Reports P (n + 1) O F h) :
    Yields (create parent) h fun f h' => F f = none ∧
      Reports P (n + 1) (f ::ₘ O) (Function.update F f (some ⟨.frame, [], [parent, .nil]⟩)) h' := by
  refine g.allocate.heap.bind fun f h₁ ⟨new, g⟩ => ?_
  refine (g.setChild (Function.update_self ..) fun d hd => .inl ?_).heap.bind fun _ h₂ g => ?_
  · simpa using hd.symm
  rw [Function.update_idem] at g
  exact .pure ⟨new, g⟩

namespace Listing

theorem reports (g : Listing P n O h) : Reports P n O h.body? h := .of g.owns

theorem here (g : Listing P n O h) : (a = .nil ∨ h.isLive a) ↔ a = .nil ∨ h.body? a ≠ none := by
  rw [g.reports.isLive]

/-- A new record with links to what was there. -/
theorem added (g : Listing P n O h) (new : h.body? e = none)
    (entry : D.tag = .entry → ∀ b, D.children[2]? = some b → b = .nil ∨ h.body? b ≠ none)
    (frame : D.tag = .frame → ∀ b, D.children[0]? = some b → b = .nil ∨ h.body? b ≠ none)
    (g' : Reports P n (e ::ₘ O) (Function.update h.body? e (some D)) h') :
    Listing P n (e ::ₘ O) h' := by
  refine ⟨g'.owns, ?_⟩
  rw [g'.body]
  exact g.listed.add g.reports.closed new (g'.ne_nil (Function.update_self ..)) entry frame

theorem allocate {fields children : Nat} (g : Listing P n O h) :
    Yields (HeapM.allocate t fields children) h fun a h' => Listing P n (a ::ₘ O) h' :=
  g.reports.allocate.mono fun _ _ ⟨new, g'⟩ =>
  g.added new (fun _ _ hb => .inl (List.eq_of_mem_replicate (List.mem_of_getElem? hb)))
    (fun _ _ hb => .inl (List.eq_of_mem_replicate (List.mem_of_getElem? hb))) g'

theorem setField {w : UInt64} (g : Listing P n O h) :
    Yields (HeapM.setField a t i w) h fun _ h' => Listing P n O h' := by
  refine g.reports.writes.mono fun _ h' ⟨D, ha, _, g'⟩ => ⟨g'.owns, ?_⟩
  rw [g'.body]
  exact g.listed.write ha rfl (fun _ => rfl) fun _ => rfl

theorem setChildOwned (g : Listing P n (b ::ₘ O) h) (entry : t ≠ .entry) (frame : t = .frame →
    i = 1) :
    Yields (HeapM.setChildOwned a t i b) h fun _ h' => Listing P n O h' := by
  refine g.reports.replaces.mono fun _ h' ⟨D, d, ha, tag, _, own, sub, _⟩ =>
    ⟨own, Facts.Listed.sub ?_ sub⟩
  refine g.listed.write ha rfl (fun e => absurd (tag.symm.trans e) entry) fun e => ?_
  rw [frame (tag.symm.trans e), List.getElem?_set_ne (by decide)]

/-- A frame inside of another one. -/
theorem frame {parent : Address} (here : parent = .nil ∨ h.isLive parent)
    (g : Listing P (n + 1) O h) :
    Yields (Frame.create parent) h fun f h' => Listing P (n + 1) (f ::ₘ O) h' :=
  (Frame.create_reports g.reports).mono fun f h' ⟨new, g'⟩ =>
    g.added new (by simp) (fun _ b hb => g.here.1 (by simp at hb; rwa [← hb])) g'

theorem lock {k : LockKind} {initial : Int64} (hk : k.tag.isLock) (g : Listing P n O h) :
    Yields (LockKind.create k initial) h fun lock h' => Listing P n (lock ::ₘ O) h' := by
  have entry : k.tag ≠ .entry := fun e => by rw [e] at hk; cases hk
  have frame : k.tag ≠ .frame := fun e => by rw [e] at hk; cases hk
  refine g.allocate.heap.bind fun lock h₁ g => ?_
  refine g.setField.heap.bind fun _ h₂ g => ?_
  refine (Yields.orRelease (x := Queue.create) g.allocate.heap).bind fun q h₃ g => ?_
  exact (g.setChildOwned entry fun e => absurd e frame).heap.bind fun _ h₄ g => .pure g

instance : Ledger P (Listing P) where
  owns g := ⟨0, by rw [zero_add]; exact g.owns⟩
  cons_nil := ⟨fun g => ⟨Owns.cons_nil.1 g.owns, g.listed⟩, fun g =>
  ⟨Owns.cons_nil.2 g.owns, g.listed⟩⟩
  weaken g le := ⟨g.owns.weaken le, g.listed⟩
  restore g g' := ⟨g'.owns.tighten g.owns.spare, g'.listed⟩
  allocates _ _ g := g.allocate
  writes _ g := g.setField
  references g := g.reports.reference.mono fun _ _ ⟨e, g'⟩ => ⟨e, g'.owns, g'.body ▸ g.listed⟩
  drops g := g.reports.drops.yields.mono fun _ _ ⟨own, sub⟩ => ⟨own, g.listed.sub sub⟩
  replaces ht g := g.setChildOwned (by rintro rfl; simp [Tag.isSet] at ht)
    (by rintro rfl; exact (ht.resolve_left (by decide)).2)
  enters here g := (Entry.create_reports g.reports).mono fun e h' ⟨new, g'⟩ =>
    g.added new (fun _ b hb => g.here.1 (by simp at hb; rwa [← hb])) (by simp) g'
  opens g := g.frame (.inl rfl)
  locks hk g := g.lock hk

end Listing
end GoMachine
