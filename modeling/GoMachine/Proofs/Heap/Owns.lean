import GoMachine.Proofs.Heap.Pays
/-!
# What a client owns

`Owns P n O h` says that a client owns the references `O` and the pins `P`, that the heap counts
them right, and that no count is near the largest word: the client could take `n` more references to
each record. The primitives of the heap are described by what they do to `O`: taking a reference
adds to it, giving one up or moving it into a slot takes from it, and moving one out of a slot adds
to it.
-/
namespace GoMachine
namespace Heap

/-- How many references to a record a client may own. -/
def limit : Nat := 2 ^ 62

/-- A client that owns the references could take `n` more to each record. -/
structure Spare (n : Nat) (O : Multiset Address) : Prop where
  lt : n < limit
  le : ∀ a, a ≠ .nil → O.count a + n ≤ limit

/-- The client owns the pins `P` and the references `O`, with room for `n` more to each record. -/
structure Owns (P : Multiset Address) (n : Nat) (O : Multiset Address) (h : Heap) : Prop where
  exact : Exact P O h
  spare : Spare n O

variable {P F O O' : Multiset Address} [Within F O] {n m : Nat} {h h' : Heap} {a b : Address}
    {c : Cell} {t : Tag}
  {i : Nat} {w : UInt64}

namespace Spare

theorem cons (sp : Spare (n + 1) O) : Spare n (a ::ₘ O) := by
  refine ⟨Nat.lt_of_succ_lt sp.lt, fun b hb => ?_⟩
  have := sp.le b hb
  rw [Multiset.count_cons]
  split_ifs <;> omega

theorem cons_fresh (sp : Spare n O) (fresh : a ∉ O) : Spare n (a ::ₘ O) := by
  refine ⟨sp.lt, fun b hb => ?_⟩
  have := sp.le b hb
  have := sp.lt
  rw [Multiset.count_cons]
  split_ifs with e
  · rw [e, Multiset.count_eq_zero_of_notMem fresh]
    omega
  · omega

theorem anti (sp : Spare n O') (le : O ≤ O') : Spare n O :=
  ⟨sp.lt, fun a ha => (Nat.add_le_add_right (Multiset.count_le_of_le a le) n).trans (sp.le a ha)⟩

theorem weaken (sp : Spare n O) (le : m ≤ n) : Spare m O :=
  ⟨lt_of_le_of_lt le sp.lt, fun a ha => (Nat.add_le_add_left le _).trans (sp.le a ha)⟩

end Spare

namespace Owns

instance : Covers P (Owns P n) := ⟨fun own => Covers.exact own.exact⟩

theorem tighten (own : Owns P m O h) (sp : Spare n O) : Owns P n O h := ⟨own.exact, sp⟩

theorem weaken (own : Owns P n O h) (le : m ≤ n) : Owns P m O h := ⟨own.exact, own.spare.weaken le⟩

theorem swap (own : Owns P n (a ::ₘ b ::ₘ O) h) : Owns P n (b ::ₘ a ::ₘ O) h := by
  rwa [Multiset.cons_swap]

/-- Another reference does not come in between. -/
theorem lade {l : List Address} (own : Owns P n (a ::ₘ laden l O) h) :
    Owns P n (laden l (a ::ₘ O)) h := by
  rwa [laden_eq, ← Multiset.add_cons, ← laden_eq] at own

/-- Owning nil is owning nothing. -/
theorem cons_nil : Owns P n (.nil ::ₘ O) h ↔ Owns P n O h := by
  have same : ∀ a, a ≠ .nil → (.nil ::ₘ O).count a = O.count a := fun a ha =>
    Multiset.count_cons_of_ne ha O
  constructor
  · refine fun own => ⟨own.exact.congr fun a ha => (same a ha).symm, own.spare.lt, fun a ha => ?_⟩
    exact (same a ha) ▸ own.spare.le a ha
  · refine fun own => ⟨own.exact.congr same, own.spare.lt, fun a ha => ?_⟩
    exact (same a ha) ▸ own.spare.le a ha

/-- Counts stay far from the largest word. -/
theorem count_lt (own : Owns P n O h) (hc : h.cell? a = some c) : c.count.toNat + 1 < 2 ^ 64 := by
  have hne := own.exact.sound.ne_nil (cell?_eq_some.1 hc).1
  have := own.exact.count hc
  have := own.spare.le a hne
  have := Multiset.count_le_card a h.edges
  have := own.exact.sound.card_edges_le
  rw [Multiset.count_add] at *
  simp only [limit, maxSlots] at *
  omega

/-! ## The primitives -/

theorem allocate_error {fields children : Nat} {e : HeapError}
    (run : HeapM.allocate t fields children h = .error e h') : h' = h := by
  unfold HeapM.allocate at run
  split at run
  · cases run
    rfl
  · dsimp only at run
    split at run <;> cases run
    rfl

theorem allocate (own : Owns P n O h) {fields children : Nat} :
    Pays P F (HeapM.allocate t fields children) h fun a h' =>
      Owns P n (a ::ₘ O) h' := by
  refine .of_yields (fun a h' run => ?_) own fun e h' run => allocate_error run
  obtain ⟨dead, hne, u⟩ := own.exact.sound.allocated run
  have fresh : a ∉ O := fun ha => by
    rw [own.exact.isLive_of_mem ha hne] at dead
    cases dead
  exact ⟨own.exact.create dead hne u rfl rfl fun b hb => List.eq_of_mem_replicate hb,
    own.spare.cons_fresh fresh⟩

theorem setField (own : Owns P n O h) :
    Pays P F (HeapM.setField a t i w) h fun _ h' => Owns P n O h' := by
  refine Pays.ask own fun slot e => ?_
  obtain ⟨c, hc, -, hi, rfl⟩ := own.exact.sound.fieldSlot_ok.1 e
  exact .modify ⟨own.exact.put_field hc hi, own.spare⟩

theorem reference (own : Owns P (n + 1) O h) :
    Pays P F (HeapM.reference a) h fun b h' => b = a ∧ Owns P n (a ::ₘ O) h' := by
  unfold HeapM.reference
  split
  · next hn =>
    obtain rfl := Address.isNil_iff.1 hn
    exact .pure ⟨rfl, cons_nil.2 (own.weaken (Nat.le_succ n))⟩
  · next hn =>
    refine Pays.ask own fun count e => ?_
    rcases own.exact.sound.refCount_ok.1 e with ⟨rfl, -⟩ | ⟨c, hc, rfl⟩
    · exact absurd rfl hn
    · refine (Pays.modify (Q := fun _ h' => Owns P n (a ::ₘ O) h') ?_).bind
        fun _ h' own => .pure ⟨rfl, own⟩
      exact ⟨own.exact.gain hc (own.count_lt hc), own.spare.cons⟩

theorem frees (own : Owns P n (a ::ₘ O) h) : Gives (HeapM.free a) h fun _ h' => Owns P n O h' := by
  obtain ⟨h', run, x, -⟩ := own.exact.free
  exact ⟨(), h', run, x, own.spare.anti (Multiset.le_cons_self O a)⟩

omit [Within F O] in
theorem free (own : Owns P n (a ::ₘ O) h) : Pays P F (HeapM.free a) h fun _ h' => Owns P n O h' :=
  own.frees.ends

theorem setChildOwned (own : Owns P n (b ::ₘ O) h) :
    Pays P F (HeapM.setChildOwned a t i b) h fun _ h' => Owns P n O h' := by
  refine Pays.ask own fun slot e => ?_
  obtain ⟨c, hc, -, rfl, old⟩ := own.exact.sound.childSlot_word e
  refine (Pays.modifyGet (Q := fun old h' => Exact P (old ::ₘ O) h') ?_).bind fun old h₁ x => ?_
  · exact (own.exact.put_child hc old).1
  · obtain ⟨h₂, freed, x, -⟩ := x.free
    exact .inl ⟨(), h₂, freed, x, own.spare.anti (Multiset.le_cons_self O b)⟩

theorem setChild (own : Owns P (n + 1) O h) :
    Pays P F (HeapM.setChild a t i b) h fun _ h' => Owns P (n + 1) O h' := by
  refine own.reference.bind fun _ h₁ ⟨_, owned⟩ => ?_
  exact owned.setChildOwned.mono fun _ h' owned => owned.tighten own.spare

theorem takeChild (own : Owns P (n + 1) O h) :
    Pays P F (HeapM.takeChild a t i) h fun b h' => Owns P n (b ::ₘ O) h' := by
  refine Pays.ask own fun slot e => ?_
  obtain ⟨c, hc, -, rfl, old⟩ := own.exact.sound.childSlot_word e
  refine Pays.modifyGet ⟨?_, own.spare.cons⟩
  exact (Exact.put_child (b := .nil) (cons_nil.2 own).exact hc old).1

end Owns

/-! ## Moving references out of slots -/

/-- No record is referred to more than `m` times in all. Moving references out of slots and dropping
them keeps it so, however many they are. -/
structure Capped (P : Multiset Address) (m : Nat) (O : Multiset Address) (h : Heap) : Prop where
  exact : Exact P O h
  cap : ∀ a, a ≠ .nil → (O + h.edges).count a ≤ m

theorem Owns.capped (own : Owns P (n + maxSlots) O h) : Capped P (limit - n) O h := by
  refine ⟨own.exact, fun a ha => ?_⟩
  have := own.spare.le a ha
  have := (Multiset.count_le_card a h.edges).trans own.exact.sound.card_edges_le
  rw [Multiset.count_add]
  omega

namespace Capped

instance : Covers P (Capped P m) := ⟨fun cp => Covers.exact cp.exact⟩

theorem owns (cp : Capped P (limit - n) O h) (lt : n < limit) : Owns P n O h := by
  refine ⟨cp.exact, lt, fun a ha => ?_⟩
  have := cp.cap a ha
  rw [Multiset.count_add] at this
  omega

theorem setField (cp : Capped P m O h) :
    Pays P F (HeapM.setField a t i w) h fun _ h' => Capped P m O h' := by
  refine Pays.ask cp fun slot e => ?_
  obtain ⟨c, hc, -, hi, rfl⟩ := cp.exact.sound.fieldSlot_ok.1 e
  have e := (cp.exact.sound.put_field (w := w) hc hi).edges
  rw [hc, kids_some, kids_some, add_left_inj] at e
  exact .modify ⟨cp.exact.put_field hc hi, by rw [e]; exact cp.cap⟩

theorem frees (cp : Capped P m (a ::ₘ O) h) :
    Gives (HeapM.free a) h fun _ h' => Capped P m O h' := by
  obtain ⟨h', run, x, k, -⟩ := cp.exact.free
  refine ⟨(), h', run, x, fun b hb => ?_⟩
  exact (Multiset.count_le_of_le b (add_le_add (Multiset.le_cons_self O a) k.edges_le)).trans
    (cp.cap b hb)

omit [Within F O] in
theorem free (cp : Capped P m (a ::ₘ O) h) : Pays P F (HeapM.free a) h fun _ h' =>
    Capped P m O h' :=
  cp.frees.ends

theorem setChildOwned (cp : Capped P m (b ::ₘ O) h) :
    Pays P F (HeapM.setChildOwned a t i b) h fun _ h' => Capped P m O h' := by
  refine Pays.ask cp fun slot e => ?_
  obtain ⟨c, hc, -, rfl, old⟩ := cp.exact.sound.childSlot_word e
  obtain ⟨x, total⟩ := cp.exact.put_child hc old
  refine (Pays.modifyGet (Q := fun old h' => Capped P m (old ::ₘ O) h') ?_).bind
    fun old h₁ cp => cp.free
  exact ⟨x, by rw [total]; exact cp.cap⟩

theorem takeChild (cp : Capped P m O h) :
    Pays P F (HeapM.takeChild a t i) h fun b h' => Capped P m (b ::ₘ O) h' := by
  refine Pays.ask cp fun slot e => ?_
  obtain ⟨c, hc, -, rfl, old⟩ := cp.exact.sound.childSlot_word e
  have widened : Exact P (.nil ::ₘ O) h := cp.exact.congr fun a ha => Multiset.count_cons_of_ne ha O
  obtain ⟨x, total⟩ := widened.put_child hc old
  refine Pays.modifyGet ⟨x, fun b hb => ?_⟩
  rw [show (0 : UInt64) = Address.nil.toWord from rfl, total, Multiset.cons_add,
    Multiset.count_cons_of_ne hb]
  exact cp.cap b hb

end Capped
end Heap
end GoMachine
