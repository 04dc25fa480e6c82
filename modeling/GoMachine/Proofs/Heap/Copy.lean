import GoMachine.Proofs.Heap.Outcome
/-!
# Copies

`copy` makes a record of the right size and fills its slots one after another. While it does, the
new record agrees with the old one up to some slot and is blank from there on.

* `Owns.copy_outcome`: a copy ends as `Does` says, or for want of memory with nothing changed.
-/
namespace GoMachine
namespace Heap

/-- A list that is filled up to some place and blank from there on. -/
def filled {α : Type} (l : List α) (blank : α) (k : Nat) : List α :=
  l.take k ++ .replicate (l.length - k) blank

section Filled

variable {α : Type} {l : List α} {blank x : α} {k : Nat}

theorem filled_zero : filled l blank 0 = .replicate l.length blank := by simp [filled]

theorem filled_length : filled l blank l.length = l := by simp [filled]

theorem length_filled (hk : k ≤ l.length) : (filled l blank k).length = l.length := by
  simp [filled]
  omega

theorem filled_set (hk : l[k]? = some x) : (filled l blank k).set k x = filled l blank (k + 1) := by
  obtain ⟨lt, rfl⟩ := List.getElem?_eq_some_iff.1 hk
  obtain ⟨n, hn⟩ : ∃ n, l.length - k = n + 1 := ⟨l.length - k - 1, by omega⟩
  have len : (l.take k).length = k := by simp; omega
  rw [filled, filled, List.set_append_right _ _ (by omega), len, Nat.sub_self, hn,
    List.replicate_succ, List.set_cons_zero, List.take_add_one, hk,
    show l.length - (k + 1) = n by omega, List.append_assoc]
  rfl

theorem getElem?_filled (hk : k < l.length) : (filled l blank k)[k]? = some blank := by
  have len : (l.take k).length = k := by simp; omega
  rw [filled, List.getElem?_append_right (by omega), len, Nat.sub_self,
    List.getElem?_replicate_of_lt (by omega)]

end Filled

variable {P O : Multiset Address} {h h' : Heap} {a b : Address} {c : Cell} {m m' : Records}
  {l l' cs : List Address}

namespace Records

theorem gain_nil : m.gain [] = m := by
  funext b
  cases hb : m b <;> simp [gain, hb]

theorem gain_gain : (m.gain l).gain l' = m.gain (l ++ l') := by
  funext b
  cases hb : m b with
  | none => simp [gain, hb]
  | some c => simp [gain, hb, Nat.toUInt64, UInt64.ofNat_add, UInt64.add_assoc]

theorem gain_update {o : Option Cell} (hb : b ∉ l) :
    gain (Function.update m b o) l = Function.update (m.gain l) b o := by
  funext d
  by_cases hd : d = b
  · subst hd
    cases o <;> simp [gain, List.count_eq_zero_of_not_mem hb]
  · simp [gain, hd]

end Records

/-- There is no record at nil, and so dropping nil changes nothing. -/
theorem Drops.eq_of_nil (d : Drops m [.nil] m') (dead : m .nil = none) : m' = m := by
  cases d with
  | nil d => cases d; rfl
  | lower hc | release hc =>
    rw [dead] at hc
    cases hc

/-- The fields are copied. -/
theorem Exact.copy_fields (x : Exact P O h) (ha : ∀ w ∈ c.fields, m a = some c) (hb : m b = none)
    (cells : h.cell? = Function.update m b
      (some ⟨c.tag, filled c.fields 0 0, cs, 1, 0⟩)) :
    Gives (forIn (List.range c.fields.length) PUnit.unit fun i _ => do
        HeapM.setField b c.tag i (← HeapM.ask (·.field a c.tag i))
        pure (ForInStep.yield PUnit.unit) : HeapM PUnit) h fun _ h' => Exact P O h' ∧
      h'.cell? = Function.update m b (some ⟨c.tag, c.fields, cs, 1, 0⟩) := by
  refine (Gives.forIn (I := fun done h' => Exact P O h' ∧ h'.cell? = Function.update m b
    (some ⟨c.tag, filled c.fields 0 done.length, cs, 1, 0⟩)) ⟨x, cells⟩ ?_).mono
      fun _ h' ⟨x, cells⟩ => ⟨x, by rwa [List.length_range, filled_length] at cells⟩
  rintro done i rest h₁ split ⟨x, cells⟩
  obtain ⟨hi, rfl⟩ : i < c.fields.length ∧ i = done.length := by
    have here := congrArg (·[done.length]?) split
    have bound : i ∈ List.range c.fields.length := by simp [split]
    have len := congrArg List.length split
    simp only [List.length_range, List.length_append, List.length_cons] at len
    simp [List.getElem?_range (show done.length < c.fields.length by omega)] at here
    exact ⟨by omega, here.symm⟩
  have ha := ha c.fields[done.length] (List.getElem_mem hi)
  have hne : a ≠ b := by
    rintro rfl
    rw [ha] at hb
    cases hb
  have source : h₁.cell? a = some c := by rw [cells, Function.update_of_ne hne, ha]
  have target : h₁.cell? b = some ⟨c.tag, filled c.fields 0 done.length, cs, 1, 0⟩ := by
    rw [cells, Function.update_self]
  refine Gives.ask (x.sound.field_ok.2 ⟨c, source, rfl, List.getElem?_eq_getElem hi⟩) ?_
  refine (x.setField target (by rwa [length_filled (by omega)])).bind fun _ h₂ ⟨x, new⟩ =>
    .pure ⟨rfl, x, ?_⟩
  rw [new, cells, Function.update_idem, filled_set (List.getElem?_eq_getElem hi),
    List.length_append, List.length_singleton]

/-- The children are copied, each with a reference of its own. -/
theorem Owns.copy_children (own : Owns P 0 O h) (hb : m b = none) (hn : b ≠ .nil)
    (dead : m .nil = none) (closed : ∀ d ∈ cs, d = .nil ∨ (m d).isSome)
    (cells : h.cell? = Function.update m b (some ⟨c.tag, c.fields, filled cs .nil 0, 1, 0⟩)) :
    Gives (forIn cs.zipIdx PUnit.unit fun x _ => match x with
        | (d, i) => do
          HeapM.setChild b c.tag i d
          pure (ForInStep.yield PUnit.unit) : HeapM PUnit) h fun _ h' => Exact P O h' ∧
      h'.cell? = Function.update (m.gain cs) b (some ⟨c.tag, c.fields, cs, 1, 0⟩) := by
  have other : ∀ d ∈ cs, d ≠ b := by
    rintro d hd rfl
    rcases closed d hd with e | hs
    · exact hn e
    · simp [hb] at hs
  refine (Gives.forIn (I := fun done h' => Exact P O h' ∧ h'.cell? = Function.update
    (m.gain (cs.take done.length)) b
    (some ⟨c.tag, c.fields, filled cs .nil done.length, 1, 0⟩)) ⟨own.exact, ?_⟩ ?_).mono
      fun _ h' copied => ⟨copied.1, by
        rw [copied.2, List.length_zipIdx, filled_length, List.take_length]⟩
  · rw [cells, List.length_nil, List.take_zero, Records.gain_nil]
  rintro done ⟨d, i⟩ rest h₁ split ⟨x, cells⟩
  obtain ⟨hd, rfl⟩ : cs[done.length]? = some d ∧ i = done.length := by
    have here := congrArg (·[done.length]?) split
    simpa [List.getElem?_zipIdx, and_comm, eq_comm] using here
  obtain ⟨hi, rfl⟩ := List.getElem?_eq_some_iff.1 hd
  have mem := List.getElem_mem hi
  have live : cs[done.length] = .nil ∨ h₁.isLive cs[done.length] := by
    refine (closed _ mem).imp_right fun hs => ?_
    rw [← isSome_cell?, cells, Function.update_of_ne (other _ mem)]
    simpa [Records.gain] using hs
  refine (Gives.bind (R := fun (_ : Unit) h' => Exact P O h' ∧ h'.cell? = Function.update
      (m.gain (cs.take (done ++ [(cs[done.length], done.length)]).length)) b
      (some ⟨c.tag, c.fields, filled cs .nil (done ++ [(cs[done.length], done.length)]).length, 1,
      0⟩))
    (Owns.reference_gain ⟨x, own.spare⟩ live) ?_).bind fun _ h₃ done => .pure ⟨rfl, done⟩
  rintro _ h₂ ⟨rfl, x, gained⟩
  rw [cells, Records.gain_update (by simpa using (other _ mem).symm), Records.gain_gain] at gained
  have target : h₂.cell? b = some ⟨c.tag, c.fields, filled cs .nil done.length, 1, 0⟩ := by
    rw [gained, Function.update_self]
  refine (x.setChildOwned target (getElem?_filled hi)).mono ?_
  rintro _ h₃ ⟨x, drops⟩
  refine ⟨x, ?_⟩
  rw [gained, Function.update_idem] at drops
  rw [drops.eq_of_nil (by rw [Function.update_of_ne hn.symm]; simp [Records.gain, dead]),
    filled_set hd, List.length_append, List.length_singleton, List.take_add_one, hd]
  rfl

/-- What can be seen of a record is no larger than a header can say. -/
theorem Sound.look_length (s : Sound h) (hc : Records.look h.cell? a = some c) :
    c.fields.length ≤ Header.limit ∧ c.children.length ≤ Header.limit := by
  rcases s.look_eq_some.1 hc with ⟨-, rfl⟩ | hc
  · exact ⟨Nat.zero_le _, Nat.zero_le _⟩
  · obtain ⟨-, rfl⟩ := cell?_eq_some.1 hc
    have := (h.headerAt a).fields.toNat_lt
    have := (h.headerAt a).children.toNat_lt
    simp only [length_fields, length_children, Header.limit]
    omega

/-- A record that can be seen is copied, once there is a new one of its size. -/
theorem Owns.copies (own : Owns P 0 O h) (hc : Records.look h.cell? a = some c)
    (made : Gives (HeapM.allocate c.tag c.fields.length c.children.length) h fun b h' => b ≠ .nil ∧
      h.cell? b = none ∧ Exact P (b ::ₘ O) h' ∧ h'.cell? = Function.update h.cell? b
        (some ⟨c.tag, .replicate c.fields.length 0, .replicate c.children.length .nil, 1, 0⟩)) :
    Gives (HeapM.copy a) h fun b h' => b ≠ .nil ∧ h.cell? b = none ∧ Exact P (b ::ₘ O) h' ∧
      h'.cell? = Function.update (Records.gain h.cell? c.children) b
        (some ⟨c.tag, c.fields, c.children, 1, 0⟩) := by
  have s := own.exact.sound
  have seen := s.look_eq_some.1 hc
  have tag : h.tag a = .ok c.tag := s.tag_ok.2 (by grind)
  have fields : h.numFields a = .ok c.fields.length := s.numFields_ok.2 (by grind)
  have children : h.children a = .ok c.children := s.children_ok.2 (by grind)
  refine Gives.ask tag (Gives.ask fields (Gives.ask children (made.bind ?_)))
  rintro b h₁ ⟨hn, fresh, x, cells⟩
  have real : c.fields ≠ [] ∨ c.children ≠ [] → h.cell? a = some c := fun slotted =>
    seen.resolve_left (by grind)
  rw [← filled_zero, ← filled_zero] at cells
  refine (x.copy_fields (fun w hw => real (.inl (by grind))) fresh cells).bind
    fun _ h₂ ⟨x, cells⟩ => ?_
  have spare : Spare 0 (b ::ₘ O) := own.spare.cons_fresh fun ho => by
    have := own.exact.isLive_of_mem ho hn
    rw [cell?_eq_none.1 fresh] at this
    cases this
  refine (Owns.copy_children ⟨x, spare⟩ fresh hn (cell?_eq_none.2 s.not_isLive_nil)
    (fun d hd => ?_) cells).bind fun _ h₃ ⟨x, cells⟩ => .pure ⟨hn, fresh, x, cells⟩
  have here := mem_edges.2 ⟨a, c, real (.inr (by grind)), hd⟩
  rw [isSome_cell?]
  exact own.exact.closed (by simp [here])

/-- A copy for which there is no room changes nothing. -/
theorem Sound.copy_error {e : HeapError} (s : Sound h) (hc : Records.look h.cell? a = some c)
    (run : HeapM.allocate c.tag c.fields.length c.children.length h = .error e h) :
    HeapM.copy a h = .error e h := by
  have seen := s.look_eq_some.1 hc
  have tag : h.tag a = .ok c.tag := s.tag_ok.2 (by grind)
  have fields : h.numFields a = .ok c.fields.length := s.numFields_ok.2 (by grind)
  have children : h.children a = .ok c.children := s.children_ok.2 (by grind)
  rw [HeapM.copy, ask_bind tag, ask_bind fields, ask_bind children]
  exact bind_error run

/-- What cannot be seen is not copied. -/
theorem Sound.copy_dead (s : Sound h) (hc : Records.look h.cell? a = none) :
    ∃ e, HeapM.copy a h = .error e h := by
  cases e : h.tag a with
  | ok t =>
    have seen : (Records.look h.cell? a).isSome := by
      rw [s.isSome_look]
      exact (s.tag_ok.1 e).imp And.left fun ⟨c, hc, _⟩ => (cell?_eq_some.1 hc).1
    simp [hc] at seen
  | error w => exact ⟨w, bind_error (by simp [HeapM.ask, e])⟩

theorem Owns.copy_outcome (own : Owns P 0 O h) : Outcome P O (.copy a) h := by
  have s := own.exact.sound
  cases hc : Records.look h.cell? a with
  | none =>
    obtain ⟨e, run⟩ := s.copy_dead hc
    refine .refused (bind_error run) own.exact rfl fun r m d => ?_
    cases d with
    | copy hc' _ _ =>
      rw [hc] at hc'
      cases hc'
  | some c =>
    obtain ⟨-, -, made⟩ | ⟨e, run, why⟩ :=
      @Exact.allocate P O h c.tag own.exact c.fields.length c.children.length
    · refine .of_gives ((own.copies hc made).bind fun b h' ⟨hn, fresh, x, cells⟩ => .pure ⟨?_, x⟩)
      rw [cells]
      exact .copy hc hn fresh
    · refine .of_error (e := e) (bind_error (s.copy_error hc run)) rfl own.exact (.inl ?_)
      obtain ⟨hf, hk⟩ := s.look_length hc
      obtain ⟨words, free, e⟩ := why.resolve_right (by omega)
      exact ⟨words, free, e, trivial⟩

end Heap
end GoMachine
