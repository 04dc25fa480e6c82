import GoMachine.Proofs.Heap.Client
import GoMachine.Proofs.Store.Moves
/-!
# Links that nobody else has hold of

`Stocks P n O S h` says that a client owns `O` and that the heap is what the store `S` tells: plain
records, stacks and queues, and besides them nothing but the links of these. Nobody but its
container has hold of a link: none is owned or pinned, and none is referred to by anything in the
store (`Outer`).

* `Stack.pushOwned_stocks`, `Stack.pop_stocks`, `Queue.enqueueOwned_stocks`, `Queue.dequeue_stocks`:
  what is done to a container.
* `Stocks.follow`: what else a client does, as long as it minds its containers.
-/
namespace GoMachine

open Heap (Exact Owns Reports Lays Laid Linked known_update Op Reply Client)

variable {P P' O O' : Multiset Address} {n m : Nat} {S : Store} {N : Address → List Address}
    {F F' : Facts} {h h' : Heap}
  {a b c d l q v x : Address} {t : Tag} {links vs : List Address} {s s' : Shape} {D D' : Body}

namespace Heap

/-! ## What is in a container -/

/-- A link is where its number says, with a value and the next link. -/
theorem Linked.nth (k : Linked F links vs) {i : Nat} (hl : links[i]? = some l) : ∃ v,
    vs[i]? = some v ∧
    F l = some ⟨.linkedList, [], [v, (links[i + 1]?).getD .nil]⟩ := by
  induction links generalizing vs i with
  | nil => simp at hl
  | cons a links ih =>
    cases vs with
    | nil => exact k.elim
    | cons v vs =>
      cases i with
      | zero =>
        obtain rfl : a = l := by simpa using hl
        exact ⟨v, rfl, by rw [k.1]; cases links <;> rfl⟩
      | succ i => exact ih k.2 (by simpa using hl)

/-- The first link of a chain comes after no other one. -/
theorem Linked.first_lone (k : Linked F (l :: links) vs) (nodup : (l :: links).Nodup)
    (value : l ∉ vs) (notNil : l ≠ .nil)
    (mem : d ∈ l :: links) (hd : F d = some D) : l ∉ D.children := by
  intro hx
  obtain ⟨i, hi⟩ := List.getElem?_of_mem mem
  obtain ⟨v, hv, here⟩ := k.nth hi
  obtain rfl := Option.some_inj.1 (hd.symm.trans here)
  rcases List.mem_pair.1 hx with rfl | next
  · exact value (List.mem_of_getElem? hv)
  · rw [List.getElem?_cons_succ] at next
    cases after : links[i]? with
    | none => exact notNil (by rw [next, after, Option.getD_none])
    | some y =>
      rw [after, Option.getD_some] at next
      exact (List.nodup_cons.1 nodup).1 (next ▸ List.mem_of_getElem? after)

/-- The slots of a container and of its links lead to links, and to what is stored. -/
theorem Laid.slots (laid : Laid F q links s) (ours : d = q ∨ d ∈ links) (hd : F d = some D)
    (mem : x ∈ D.children) :
    x = .nil ∨ x ∈ links ∨ x ∈ s.refs := by
  have chain : ∀ {vs}, Linked F links vs → d ∈ links → x = .nil ∨ x ∈ links ∨ x ∈ vs := by
    intro vs k hl
    obtain ⟨i, hi⟩ := List.getElem?_of_mem hl
    obtain ⟨v, hv, here⟩ := k.nth hi
    obtain rfl := Option.some_inj.1 (hd.symm.trans here)
    rcases List.mem_pair.1 mem with rfl | rfl
    · exact .inr (.inr (List.mem_of_getElem? hv))
    · cases e : links[i + 1]? with
      | none => exact .inl rfl
      | some y => exact .inr (.inl (List.mem_of_getElem? e))
  have first : links.headD .nil = .nil ∨ links.headD .nil ∈ links := by cases links <;> simp
  have last : links.getLastD .nil = .nil ∨ links.getLastD .nil ∈ links := by
    rcases List.eq_nil_or_concat links with e | ⟨us, b, e⟩
    · exact .inl (by rw [e]; rfl)
    · exact .inr (by simp [e])
  cases s with
  | plain B =>
    obtain ⟨here, rfl⟩ := laid
    obtain rfl : d = q := by simpa using ours
    obtain rfl := Option.some_inj.1 (hd.symm.trans here)
    exact .inr (.inr mem)
  | queue vs =>
    rcases ours with rfl | hl
    · obtain rfl := Option.some_inj.1 (hd.symm.trans laid.1)
      rcases List.mem_pair.1 mem with rfl | rfl
      · exact first.imp_right .inl
      · exact last.imp_right .inl
    · exact chain laid.2 hl
  | stack t vs =>
    rcases ours with rfl | hl
    · obtain rfl := Option.some_inj.1 (hd.symm.trans laid.1)
      obtain rfl := List.mem_singleton.1 mem
      exact first.imp_right .inl
    · exact chain laid.2 hl

/-- Nobody owns or pins a link, and nothing in the store refers to one. -/
def Outer (P O : Multiset Address) (S : Store) (N : Address → List Address) : Prop :=
  ∀ x q, x ∈ O ∨ x ∈ P ∨ (∃ a s, S a = some s ∧ x ∈ s.refs) → x ∉ N q

/-- A client owns `O`, with room for `n` more, and the heap is what `S` tells but for hidden links.
-/
def Stocks (P : Multiset Address) (n : Nat) (O : Multiset Address) (S : Store) (h : Heap) : Prop :=
  ∃ N, Lays S N h.body? ∧ Outer P O S N ∧ Owns P n O h

/-- Only a container and its links have one of these in a slot. -/
theorem Lays.slots (lays : Lays S N F) (outer : Outer P O S N) (dead : F .nil = none) (hl : l ∈ N q)
    (hd : F d = some D)
    (mem : l ∈ D.children) : d = q ∨ d ∈ N q := by
  have notNil : l ≠ .nil := by
    rintro rfl
    obtain ⟨v, next, here⟩ := lays.link_known hl
    cases dead.symm.trans here
  -- whichever container it belongs to, this is the one
  have ours : ∀ {r s}, S r = some s → d = r ∨ d ∈ N r → r = q := by
    intro r s hr ours
    rcases (lays.laid hr).slots ours hd mem with e | hl' | ref
    · exact absurd e notNil
    · exact lays.apart hl' hl
    · exact absurd hl (outer l q (.inr (.inr ⟨r, s, hr, ref⟩)))
  rcases lays.only hd with here | ⟨r, hr⟩
  · obtain ⟨s, hs⟩ := Option.ne_none_iff_exists'.1 here
    exact .inl (ours hs (.inl rfl))
  · obtain ⟨s, hs⟩ := Option.ne_none_iff_exists'.1 (lays.inner hr).2
    exact .inr (ours hs (.inr hr) ▸ hr)

/-- Chains are short. -/
theorem Lays.small (lays : Lays S N h.body?) (sound : h.Sound) (e : N q = l :: links) :
    links.length < 2 ^ 31 := by
  have few := (sound.length_le (lays.nodup q) fun a ha => by
    obtain ⟨v, next, known⟩ := lays.link_known ha
    obtain ⟨c, hc, -⟩ := body?_eq_some.1 known
    exact (cell?_eq_some.1 hc).1).2
  rw [e, List.length_cons] at few
  omega

namespace Stocks

theorem weaken (st : Stocks P n O S h) (le : m ≤ n) : Stocks P m O S h := by
  obtain ⟨N, lays, outer, own⟩ := st
  exact ⟨N, lays, outer, own.weaken le⟩

theorem tighten (st : Stocks P m O S h) (spare : Spare n O) : Stocks P n O S h := by
  obtain ⟨N, lays, outer, own⟩ := st
  exact ⟨N, lays, outer, own.tighten spare⟩

/-- Nil may be owned or not. -/
theorem cons_nil (st : Stocks P n O S h) : Stocks P n (.nil ::ₘ O) S h := by
  obtain ⟨N, lays, outer, own⟩ := st
  refine ⟨N, lays, fun x q hx hq => ?_, Owns.cons_nil.2 own⟩
  rcases hx with hx | hx
  · rcases Multiset.mem_cons.1 hx with rfl | hx
    · obtain ⟨v, next, known⟩ := lays.link_known hq
      cases own.exact.sound.body?_nil.symm.trans known
    · exact outer x q (.inl hx) hq
  · exact outer x q (.inr hx) hq

/-- A heap without containers. -/
theorem start (own : Owns P n O h) : Stocks P n O (fun a => (h.body? a).map .plain) h := by
  refine ⟨fun _ => [], ⟨fun {a s} ha => ?_, fun {a B} ha => .inl (by simp [ha]), fun _ =>
    List.nodup_nil, by simp, by simp⟩,
    by simp [Outer], own⟩
  obtain ⟨B, hB, rfl⟩ := Option.map_eq_some_iff.1 ha
  exact ⟨hB, rfl⟩

/-- A container gets other links, of those it had and of new ones, and references have moved between
it and the client. -/
theorem rechain (lays : Lays S N F) (outer : Outer P O S N) (own : Owns P n O h)
    (body : h.body? = F) (hq : S q = some s)
    (lays' : Lays (Function.update S q (some s')) (Function.update N q links) h'.body?)
    (own' : Owns P m O' h')
    (new : ∀ l ∈ links, l ∈ N q ∨ F l = none) (moved : ∀ x, x ∈ O' ∨ x ∈ s'.refs → x ∈ O ∨
    x ∈ s.refs) :
    Stocks P m O' (Function.update S q (some s')) h' := by
  subst body
  have closed := own.exact.closed_body
  -- what was there and no link is no new link either
  have stays : ∀ x, x = .nil ∨ h.body? x ≠ none → (∀ r, x ∉ N r) →
    ∀ r, x ∉ Function.update N q links r := by
    intro x here out r hr
    by_cases e : r = q
    · subst e
      rw [Function.update_self] at hr
      refine here.elim (fun e => ?_) fun here => here ((new x hr).resolve_left (out r))
      obtain ⟨v, next, notNil⟩ := lays'.link_known (q := r) (by rwa [Function.update_self])
      exact absurd e fun e => by simp [e, own'.exact.sound.body?_nil] at notNil
    · rw [Function.update_of_ne e] at hr
      exact out r hr
  have owned : ∀ x, x ∈ O ∨ x ∈ P → x = .nil ∨ h.body? x ≠ none := fun x hx => by
    refine (own.exact.closed (a := x) ?_).imp_right fun live => ?_
    · rcases hx with hx | hx <;> simp [hx]
    · simpa [body?] using Option.isSome_iff_ne_none.1 (isSome_cell?.trans live)
  have referred : ∀ a s x, S a = some s → x ∈ s.refs → x = .nil ∨ h.body? x ≠ none :=
    fun a s x ha hx => by
    obtain ⟨d, D, hd, mem⟩ := lays.refs_held ha hx
    exact closed d D x hd mem
  refine ⟨_, lays', fun x r hx => ?_, own'⟩
  have old : x ∈ O ∨ x ∈ P ∨ ∃ a s, S a = some s ∧ x ∈ s.refs := by
    rcases hx with hx | hx | ⟨a, s₁, ha, hx⟩
    · exact (moved x (.inl hx)).imp_right fun hx => .inr ⟨q, s, hq, hx⟩
    · exact .inr (.inl hx)
    · rw [Function.update_apply] at ha
      split_ifs at ha
      · cases ha
        exact (moved x (.inr hx)).imp_right fun hx => .inr ⟨q, s, hq, hx⟩
      · exact .inr (.inr ⟨a, s₁, ha, hx⟩)
  refine stays x ?_ (fun r => outer x r old) r
  rcases old with hx | hx | ⟨a, s₁, ha, hx⟩
  · exact owned x (.inl hx)
  · exact owned x (.inr hx)
  · exact referred a s₁ x ha hx

/-- A new record that is empty. -/
theorem create {fields children : Nat} (st : Stocks P n O S h)
    (laid : ∀ F q, F q = some ⟨t, .replicate fields 0,
    .replicate children .nil⟩ → Laid F q [] s) (empty : ∀ x ∈ s.refs, x = .nil) :
    Ends Fault.Shortage (liftM (HeapM.allocate t fields children) : Action Address) h fun q h' =>
    S q = none ∧
      Stocks P n (q ::ₘ O) (Function.update S q (some s)) h' := by
  obtain ⟨N, lays, outer, own⟩ := st
  refine ((Reports.of own).allocate_ends.weaken fun _ _ short => short.1).mono
    fun q h' ⟨fresh, g⟩ => ?_
  have lays' := lays.insert fresh (laid _ q (Function.update_self ..))
  refine ⟨(lays.unknown fresh).1, N, g.body ▸ lays', fun x r hx hr => ?_, g.owns⟩
  obtain ⟨v, next, here⟩ := lays.link_known hr
  rcases hx with hx | hx | ⟨a, s₁, ha, hx⟩
  · rcases Multiset.mem_cons.1 hx with rfl | hx
    · cases fresh.symm.trans here
    · exact outer x r (.inl hx) hr
  · exact outer x r (.inr (.inl hx)) hr
  · rw [Function.update_apply] at ha
    split_ifs at ha
    · cases ha
      rw [empty x hx, own.exact.sound.body?_nil] at here
      cases here
    · exact outer x r (.inr (.inr ⟨a, s₁, ha, hx⟩)) hr

/-- A reference to something that is no link. -/
theorem reference (st : Stocks P (n + 1) O S h) (here : v = .nil ∨ S v ≠ none) :
    Gives (HeapM.reference v) h fun r h' => r = v ∧ Stocks P n (v ::ₘ O) S h' := by
  obtain ⟨N, lays, outer, own⟩ := st
  have g := Reports.of own
  have live : v = .nil ∨ h.isLive v := here.imp_right fun notNil => by
    obtain ⟨s, hs⟩ := Option.ne_none_iff_exists'.1 notNil
    obtain ⟨B, hB⟩ := lays.known hs
    exact g.isLive.2 (by simp [hB])
  have taken := (own.weaken (Nat.zero_le _)).reference_gain live
  refine (g.reference.gives taken).mono fun r h' ⟨e, g'⟩ =>
    ⟨e, N, g'.body ▸ lays, fun x q hx hq => ?_, g'.owns⟩
  rcases hx with hx | hx
  · rcases Multiset.mem_cons.1 hx with rfl | hx
    · rcases here with rfl | here
      · obtain ⟨v, next, known⟩ := lays.link_known hq
        cases g.sound.body?_nil.symm.trans known
      · exact here (lays.inner hq).1
    · exact outer x q (.inl hx) hq
  · exact outer x q (.inr hx) hq

end Stocks
end Heap

open Heap (Stocks)

/-! ## What is done to a container -/

/-- The first link of a container is in no other slot than that of the container. -/
theorem Heap.Lays.lone (lays : Lays S N F) (outer : Heap.Outer P O S N) (dead : F .nil = none)
    (hq : S q = some s)
    (e : N q = l :: links) (linked : Linked F (l :: links) s.refs) :
    Facts.Lone (Function.update F q none) P O l := by
  have mem : l ∈ N q := by simp [e]
  refine ⟨fun hl => outer l q (.inl hl) mem, fun hl => outer l q (.inr (.inl hl)) mem,
    fun d D hd hx => ?_⟩
  rw [Function.update_apply] at hd
  split_ifs at hd with same
  have inside := (lays.slots outer dead mem hd hx).resolve_left same
  rw [e] at inside
  refine linked.first_lone (e ▸ lays.nodup q) (fun hv => outer l q (.inr (.inr ⟨q, s, hq, hv⟩)) mem)
    ?_ inside hd hx
  rintro rfl
  obtain ⟨_, _, known⟩ := lays.link_known mem
  cases dead.symm.trans known

namespace Stack

/-- An empty stack. -/
theorem create_stocks (st : Stocks P n O S h) : Ends Fault.Shortage (create t) h fun q h' =>
    S q = none ∧
    Stocks P n (q ::ₘ O) (Function.update S q (some (.stack t []))) h' :=
  st.create (fun _ _ here => ⟨here, trivial⟩) (by simp [Shape.refs])

/-- A reference to a value moves onto a stack. -/
theorem pushOwned_stocks (st : Stocks P (n + 1) (v ::ₘ O) S h) (hq : S q = some (.stack t vs)) :
    Ends Fault.Shortage (pushOwned q v) h fun _ h' =>
      Stocks P (n + 1) O (Function.update S q (some (.stack t (v :: vs)))) h' := by
  obtain ⟨N, lays, outer, own⟩ := st
  refine (pushOwned_reports (.of own) (lays.laid hq).1).mono fun _ h' ⟨l, fresh, g⟩ => ?_
  refine Stocks.rechain lays outer own rfl hq (g.body ▸ lays.push hq fresh) g.owns (fun b hb => ?_)
    fun x hx => ?_
  · rcases List.mem_cons.1 hb with rfl | hb
    · exact .inr fresh
    · exact .inl hb
  · rcases hx with hx | hx
    · exact .inl (Multiset.mem_cons_of_mem hx)
    · exact (List.mem_cons.1 hx).imp_left fun e => by simp [e]

/-- A new reference to a value is put onto a stack. -/
theorem push_stocks (st : Stocks P (n + 2) O S h) (hq : S q = some (.stack t vs)) (here : v = .nil ∨
    S v ≠ none) :
    Ends Fault.Shortage (push q v) h fun _ h' =>
      Stocks P (n + 2) O (Function.update S q (some (.stack t (v :: vs)))) h' := by
  have room := st.choose_spec.2.2.spare
  exact (st.reference here).heap.before fun _ h₁ ⟨_, st₁⟩ =>
    (pushOwned_stocks st₁ hq).mono fun _ h₂ st₂ => st₂.tighten room

/-- The top value moves to the client, or nil if there is none. -/
theorem pop_stocks (st : Stocks P (n + 3) O S h) (hq : S q = some (.stack t vs)) :
    Gives (pop q) h fun v h' => v = vs.headD .nil ∧ Stocks P (n + 2) (v ::ₘ O)
      (Function.update S q (some (.stack t vs.tail))) h' := by
  obtain ⟨N, lays, outer, own⟩ := st
  obtain ⟨hF, linked⟩ := lays.laid hq
  cases e : N q with
  | nil =>
    rw [e] at hF linked
    obtain rfl : vs = [] := List.length_eq_zero_iff.1 linked.length_eq.symm
    refine (pop_none (n := n + 2) (.of own) hF).mono fun v h' ⟨absent, g⟩ => ⟨absent, ?_⟩
    rw [List.tail_nil, Function.update_eq_self_iff.2 hq.symm, absent]
    exact Stocks.cons_nil ⟨N, g.body ▸ lays, outer, g.owns⟩
  | cons l links =>
    rw [e] at hF linked
    cases vs with
    | nil => exact linked.elim
    | cons v vs =>
      have dead := own.exact.sound.body?_nil
      refine (pop_reports (.of own) hF linked.1 (lays.link_ne (q := q) (by simp [e]) hq)
        (lays.lone outer dead hq e linked)).mono fun r h' ⟨value, g⟩ => ⟨value, ?_⟩
      subst r
      have lays' := g.body ▸ lays.pop hq e (lays.small own.exact.sound e)
      refine Stocks.rechain lays outer own rfl hq lays' g.owns (fun b hb => .inl (by simp [e, hb]))
        fun x hx => ?_
      rcases hx with hx | hx
      · exact (Multiset.mem_cons.1 hx).symm.imp_right fun e => by simp [Shape.refs, e]
      · exact .inr (List.mem_cons_of_mem _ hx)

end Stack

namespace Queue

/-- An empty queue. -/
theorem create_stocks (st : Stocks P n O S h) : Ends Fault.Shortage create h fun q h' =>
    S q = none ∧
    Stocks P n (q ::ₘ O) (Function.update S q (some (.queue []))) h' :=
  st.create (fun _ _ here => ⟨here, trivial⟩) (by simp [Shape.refs])

/-- A reference to a value moves to the back of a queue. -/
theorem enqueueOwned_stocks (st : Stocks P (n + 1) (v ::ₘ O) S h) (hq : S q = some (.queue vs)) :
    Ends Fault.Shortage (enqueueOwned q v) h fun _ h' =>
      Stocks P (n + 1) O (Function.update S q (some (.queue (vs ++ [v])))) h' := by
  obtain ⟨N, lays, outer, own⟩ := st
  obtain ⟨hF, linked⟩ := lays.laid hq
  have moved : ∀ x, x ∈ O ∨ x ∈ (Shape.queue (vs ++ [v])).refs → x ∈ v ::ₘ O ∨
    x ∈ (Shape.queue vs).refs := by
    intro x hx
    rcases hx with hx | hx
    · exact .inl (Multiset.mem_cons_of_mem hx)
    · exact (List.mem_append.1 hx).symm.imp_left fun e => by simp [List.mem_singleton.1 e]
  rcases List.eq_nil_or_concat (N q) with e | ⟨us, b, e⟩
  · rw [e] at hF linked
    obtain rfl : vs = [] := List.length_eq_zero_iff.1 linked.length_eq.symm
    refine (enqueueOwned_first (.of own) hF).mono fun _ h' ⟨l, fresh, g⟩ => ?_
    refine Stocks.rechain lays outer own rfl hq (g.body ▸ lays.enqueue_first hq fresh) g.owns
      (fun b hb => ?_) moved
    exact .inr (by rwa [List.mem_singleton.1 hb])
  · rw [List.concat_eq_append] at e
    have mem {a : Address} (ha : a ∈ us ++ [b]) : a ∈ N q := e ▸ ha
    have nodup := lays.nodup q
    rw [e] at hF linked nodup
    rw [List.getLastD_concat] at hF
    obtain ⟨us', u, -, hb⟩ := linked.last
    refine (enqueueOwned_reports (.of own) hF hb (lays.link_ne (mem (by simp)) hq) ?_).mono
      fun _ h' ⟨l, fresh, g⟩ => ?_
    · cases us with
      | nil => exact .inl rfl
      | cons d us =>
        obtain ⟨d', hd', u', found⟩ := linked.before_last (by simp)
        have apart : d' ≠ b := fun e => (List.nodup_append.1 nodup).2.2 d' hd' b (by simp) e
        exact .inr ⟨d', _, lays.link_ne (mem (List.mem_append_left _ hd')) hq, apart, found, by
          simp⟩
    · refine Stocks.rechain lays outer own rfl hq (g.body ▸ lays.enqueue hq e hb fresh) g.owns
        (fun b hb => ?_) moved
      exact (List.mem_append.1 hb).imp mem fun hb => by rwa [List.mem_singleton.1 hb]

/-- A new reference to a value goes to the back of a queue. -/
theorem enqueue_stocks (st : Stocks P (n + 2) O S h) (hq : S q = some (.queue vs))
    (here : v = .nil ∨ S v ≠ none) :
    Ends Fault.Shortage (enqueue q v) h fun _ h' =>
      Stocks P (n + 2) O (Function.update S q (some (.queue (vs ++ [v])))) h' := by
  have room := st.choose_spec.2.2.spare
  exact (st.reference here).heap.before fun _ h₁ ⟨_, st₁⟩ =>
    (enqueueOwned_stocks st₁ hq).mono fun _ h₂ st₂ => st₂.tighten room

/-- The value in front moves to the client, or nil if there is none. -/
theorem dequeue_stocks (st : Stocks P (n + 4) O S h) (hq : S q = some (.queue vs)) :
    Gives (dequeue q) h fun v h' => v = vs.headD .nil ∧ Stocks P (n + 3) (v ::ₘ O)
      (Function.update S q (some (.queue vs.tail))) h' := by
  obtain ⟨N, lays, outer, own⟩ := st
  obtain ⟨hF, linked⟩ := lays.laid hq
  cases e : N q with
  | nil =>
    rw [e] at hF linked
    obtain rfl : vs = [] := List.length_eq_zero_iff.1 linked.length_eq.symm
    refine (dequeue_none (n := n + 3) (.of own) hF).mono fun v h' ⟨absent, g⟩ => ⟨absent, ?_⟩
    rw [List.tail_nil, Function.update_eq_self_iff.2 hq.symm, absent]
    exact Stocks.cons_nil ⟨N, g.body ▸ lays, outer, g.owns⟩
  | cons l links =>
    rw [e] at hF linked
    cases vs with
    | nil => exact linked.elim
    | cons v vs =>
      have dead := own.exact.sound.body?_nil
      refine (dequeue_reports (.of own) hF linked.1 (lays.link_ne (q := q) (by simp [e]) hq)
        (lays.lone outer dead hq e linked) (lays.last_iff dead e)).mono
        fun r h' ⟨value, g⟩ => ⟨value, ?_⟩
      subst r
      have lays' := lays.dequeue hq e (lays.small own.exact.sound e)
      rw [← lays.last_behind dead e] at lays'
      replace lays' : Lays _ _ h'.body? := g.body ▸ lays'
      refine Stocks.rechain lays outer own rfl hq lays' g.owns (fun b hb => .inl (by simp [e, hb]))
        fun x hx => ?_
      rcases hx with hx | hx
      · exact (Multiset.mem_cons.1 hx).symm.imp_right fun e => by simp [Shape.refs, e]
      · exact .inr (List.mem_cons_of_mem _ hx)

end Queue

/-! ## What else a client does -/

/-- The store after something else has been done with the heap: containers stay as long as they are
there, and what has come is plain. -/
def Store.follow (S : Store) (F F' : Facts) : Store := fun a =>
  match F' a, S a, F a with
  | none, _, _ => none
  | some D, some (.plain _), _ => some (.plain D)
  | some _, some s, _ => some s
  | some D, none, none => some (.plain D)
  | some _, none, some _ => none

theorem Store.follow_some (ha : S.follow F F' a = some s) : F' a ≠ none ∧
    (S a = some s ∧ (∀ B, s ≠ .plain B) ∨
    ∃ D, F' a = some D ∧ s = .plain D ∧
    ((∃ B, S a = some (.plain B)) ∨ S a = none ∧ F a = none)) := by
  cases hD : F' a with
  | none => simp [follow, hD] at ha
  | some D =>
    refine ⟨by simp, ?_⟩
    cases hS : S a with
    | none =>
      cases hF : F a with
      | none => exact .inr ⟨D, rfl, by simpa [follow, hD, hS, hF] using ha.symm, .inr ⟨rfl, rfl⟩⟩
      | some B => simp [follow, hD, hS, hF] at ha
    | some s' =>
      cases s' with
      | plain B => exact .inr ⟨D, rfl, by simpa [follow, hD, hS] using ha.symm, .inl ⟨B, rfl⟩⟩
      | queue vs | stack t vs =>
        obtain rfl := by simpa [follow, hD, hS] using ha
        exact .inl ⟨rfl, by simp⟩

/-- A plain record, or nil. -/
def Store.Plain (S : Store) (a : Address) : Prop := a = .nil ∨ ∃ D, S a = some (.plain D)

/-- Something that stands in the store, or nil. -/
def Store.Named (S : Store) (a : Address) : Prop := a = .nil ∨ S a ≠ none

/-- The operation writes and copies nothing but plain records, and names no links. -/
def Heap.Op.Minds (S : Store) : Op → Prop
  | .setField a .. | .setChildOwned a .. | .takeChild a .. | .copy a => S.Plain a
  | .setChild a _ _ b => S.Plain a ∧ S.Named b
  | .reference a | .pin a => S.Named a
  | _ => True

namespace Heap

/-- A record that is there is owned or pinned, or stands in a slot. -/
theorem Exact.kept (x : Exact P O h) (ha : h.body? a ≠ none) :
    a ∈ O ∨ a ∈ P ∨ ∃ d D, h.body? d = some D ∧ a ∈ D.children := by
  obtain ⟨D, hD⟩ := Option.ne_none_iff_exists'.1 ha
  obtain ⟨c, hc, -⟩ := body?_eq_some.1 hD
  have count := x.count hc
  have pins := x.pins hc
  by_contra unreferred
  push Not at unreferred
  have slotless : a ∉ h.edges := fun edge => by
    obtain ⟨d, o, hd, mem⟩ := mem_edges.1 edge
    exact unreferred.2.2 d o.body (body?_eq_some.2 ⟨o, hd, rfl⟩) mem
  rw [Multiset.count_add, Multiset.count_eq_zero_of_notMem unreferred.1,
    Multiset.count_eq_zero_of_notMem slotless] at count
  rw [Multiset.count_eq_zero_of_notMem unreferred.2.1] at pins
  exact x.idle hc (UInt64.toNat_inj.1 count) (UInt16.toNat_inj.1 pins)

/-- What has happened to the records of a store: containers and links are as they were, or gone, and
what is written or new refers to no links. -/
structure Minded (S : Store) (N : Address → List Address) (F F' : Facts) : Prop where
  kept : ∀ {a D D'}, F a = some D → F' a = some D' → (∃ B, S a = some (.plain B)) ∨ D' = D
  named : ∀ {d D' x q}, F' d = some D' → (∃ B, S d = some (.plain B)) ∨ F d = none →
  x ∈ D'.children → x ∉ N q

namespace Minded

variable (k : Minded S N F F') (lays : Lays S N F) (closed : Closed F')

include k lays in
theorem link (hl : l ∈ N q) (here : F' l ≠ none) : F' l = F l := by
  obtain ⟨v, next, known⟩ := lays.link_known hl
  obtain ⟨D', hD'⟩ := Option.ne_none_iff_exists'.1 here
  rcases k.kept known hD' with ⟨B, plain⟩ | e
  · cases (lays.inner hl).1.symm.trans plain
  · rw [hD', known, e]

include k lays closed in
/-- The links of a container that stays are there. -/
theorem stays (hq : S q = some s) (container : ∀ B, s ≠ .plain B) (here : F' q ≠ none)
    (dead : F .nil = none) :
    Laid F' q (N q) s := by
  have laid := lays.laid hq
  have same : F' q = F q := by
    obtain ⟨D, hD⟩ := lays.known hq
    obtain ⟨D', hD'⟩ := Option.ne_none_iff_exists'.1 here
    rcases k.kept hD hD' with ⟨B, plain⟩ | e
    · exact absurd (Option.some_inj.1 (hq.symm.trans plain)) (container B)
    · rw [hD', hD, e]
  have first : (N q).headD .nil = .nil ∨ F' ((N q).headD .nil) ≠ none := by
    cases s with
    | plain B => exact absurd rfl (container B)
    | queue vs | stack t vs => exact closed q _ _ (same.trans laid.1) (by simp)
  have stay : ∀ (i : Nat) l, (N q)[i]? = some l → F' l ≠ none := by
    intro i
    induction i with
    | zero =>
      intro l hl
      obtain ⟨v, next, known⟩ := lays.link_known (List.mem_of_getElem? hl)
      have e : (N q).headD .nil = l := by
        rw [List.headD_eq_head?_getD, List.head?_eq_getElem?, hl]; rfl
      exact (e ▸ first).resolve_left fun absent => by cases dead.symm.trans (absent ▸ known)
    | succ i ih =>
      intro l hl
      obtain ⟨d, hd⟩ : ∃ d, (N q)[i]? = some d :=
        ⟨_, List.getElem?_eq_getElem (Nat.lt_of_succ_lt (List.getElem?_eq_some_iff.1 hl).1)⟩
      obtain ⟨v, next, known⟩ := lays.link_known (List.mem_of_getElem? hl)
      have linked := (lays.linked hq).resolve_right fun e => by simp [e] at hl
      obtain ⟨u, -, before⟩ := linked.nth hd
      rw [hl, Option.getD_some, ← k.link lays (List.mem_of_getElem? hd) (ih d hd)] at before
      exact (closed d _ l before (by simp)).resolve_left fun absent => by
        cases dead.symm.trans (absent ▸ known)
  refine laid.congr same fun l hl => ?_
  obtain ⟨i, hi⟩ := List.getElem?_of_mem hl
  exact k.link lays hl (stay i l hi)

include k lays in
/-- The links of a container that has gone are gone. -/
theorem gone (x : Exact P' O' h') (hF' : h'.body? = F') (outer : Outer P O S N)
    (held : ∀ x q, x ∈ O' ∨ x ∈ P' → x ∉ N q)
    (dead : F .nil = none) (unknown : F' q = none) : ∀ l ∈ N q, F' l = Option.none := by
  have go : ∀ (i : Nat) l, (N q)[i]? = some l → F' l = Option.none := by
    intro i
    induction i using Nat.strong_induction_on with
    | _ i ih =>
      intro l hl
      have mem := List.mem_of_getElem? hl
      obtain ⟨s, hq⟩ := Option.ne_none_iff_exists'.1 (lays.inner mem).2
      have linked := (lays.linked hq).resolve_right fun e => by simp [e] at hl
      by_contra here
      rcases x.kept (hF' ▸ here) with own | pin | ⟨d, D', hd, slot⟩
      · exact held l q (.inl own) mem
      · exact held l q (.inr pin) mem
      rw [hF'] at hd
      -- the slot that still has the link is that of the link before
      cases before : F d with
      | none => exact k.named hd (.inr before) slot mem
      | some D =>
        rcases k.kept before hd with plain | rfl
        · exact k.named hd (.inl plain) slot mem
        rcases lays.slots outer dead mem before slot with rfl | inside
        · cases unknown.symm.trans hd
        obtain ⟨j, hj⟩ := List.getElem?_of_mem inside
        obtain ⟨v, hv, known⟩ := linked.nth hj
        obtain rfl := Option.some_inj.1 (before.symm.trans known)
        rcases List.mem_pair.1 slot with value | next
        · exact outer l q (.inr (.inr ⟨q, s, hq, value ▸ List.mem_of_getElem? hv⟩)) mem
        cases after : (N q)[j + 1]? with
        | none =>
          rw [after, Option.getD_none] at next
          obtain ⟨_, _, there⟩ := lays.link_known mem
          cases dead.symm.trans (next ▸ there)
        | some y =>
          rw [after, Option.getD_some] at next
          obtain ⟨_, at_i⟩ := List.getElem?_eq_some_iff.1 hl
          obtain ⟨_, at_j⟩ := List.getElem?_eq_some_iff.1 after
          have e : i = j + 1 := (lays.nodup q).getElem_inj_iff.1 (at_i.trans (next.trans at_j.symm))
          exact absurd (ih j (by omega) d hj) (by simp [hd])
  intro l hl
  obtain ⟨i, hi⟩ := List.getElem?_of_mem hl
  exact go i l hi

/-- What is left of the store. -/
theorem stocks (k : Minded S N F F') (lays : Lays S N F) (outer : Outer P O S N)
    (dead : F .nil = none)
    (own : Owns P' m O' h') (hF' : h'.body? = F') (held : ∀ x q, x ∈ O' ∨ x ∈ P' → x ∉ N q) :
    Stocks P' m O' (S.follow F F') h' := by
  classical
  have closed : Closed F' := hF' ▸ own.exact.closed_body
  let N' : Address → List Address := fun q => if F' q = none then [] else N q
  have sub {a q : Address} (ha : a ∈ N' q) : a ∈ N q ∧ F' q ≠ none := by
    dsimp only [N'] at ha
    split_ifs at ha with there
    · cases ha
    · exact ⟨ha, there⟩
  refine ⟨N', ?_, fun x q hx hq => ?_, own⟩
  · rw [hF']
    refine ⟨fun {a s} ha => ?_, fun {a D} ha => ?_, fun q => ?_, fun {a q r} hq hr =>
      ?_, fun {a q} hq => ?_⟩
    · obtain ⟨there, ⟨hS, container⟩ | ⟨D, hD, rfl, was⟩⟩ := Store.follow_some ha
      · dsimp only [N']
        rw [if_neg there]
        exact k.stays lays closed hS container there dead
      · refine ⟨hD, ?_⟩
        have emptied : N a = [] := lays.links_eq_nil (was.symm.imp_left And.left)
        dsimp only [N']
        rw [if_neg there, emptied]
    · cases hS : S a with
      | some s => exact .inl (by cases s <;> simp [Store.follow, ha, hS])
      | none =>
        cases hF : F a with
        | none => exact .inl (by simp [Store.follow, ha, hS, hF])
        | some B =>
          obtain ⟨q, hq⟩ := (lays.only hF).resolve_left (by simp [hS])
          refine .inr ⟨q, ?_⟩
          dsimp only [N']
          split_ifs with none
          · cases (k.gone lays own.exact hF' outer held dead none a hq).symm.trans ha
          · exact hq
    · dsimp only [N']
      split_ifs
      · exact List.nodup_nil
      · exact lays.nodup q
    · exact lays.apart (sub hq).1 (sub hr).1
    · obtain ⟨mem, there⟩ := sub hq
      obtain ⟨v, next, known⟩ := lays.link_known mem
      obtain ⟨s, hs⟩ := Option.ne_none_iff_exists'.1 (lays.inner mem).2
      obtain ⟨D, hD⟩ := Option.ne_none_iff_exists'.1 there
      refine ⟨?_, by cases s <;> simp [Store.follow, hD, hs]⟩
      cases here : F' a with
      | none => simp [Store.follow, here]
      | some E => simp [Store.follow, here, known, (lays.inner mem).1]
  · obtain ⟨mem, -⟩ := sub hq
    rcases hx with hx | hx | ⟨a, s, ha, hx⟩
    · exact held x q (.inl hx) mem
    · exact held x q (.inr hx) mem
    · obtain ⟨there, ⟨hS, -⟩ | ⟨D, hD, rfl, was⟩⟩ := Store.follow_some ha
      · exact outer x q (.inr (.inr ⟨a, s, hS, hx⟩)) mem
      · exact k.named hD (was.imp_right And.right) hx mem

end Minded

/-! ### Operations of the heap -/

theorem Records.facts_some {m : Records} {c : Cell} (hc : m a = some c) : m.facts a = some c.body :=
  Option.map_eq_some_iff.2 ⟨c, hc, rfl⟩

/-- What has a name is no link. -/
theorem Lays.named (lays : Lays S N F) (dead : F .nil = none) (named : S.Named x) : x ∉ N q := by
  intro hq
  rcases named with rfl | here
  · obtain ⟨v, next, known⟩ := lays.link_known hq
    cases dead.symm.trans known
  · exact here (lays.inner hq).1

/-- What a plain record refers to is no link. -/
theorem Outer.plain (outer : Outer P O S N) (lays : Lays S N F) (plain : ∃ B, S a = some (.plain B))
    (ha : F a = some D)
    (hx : x ∈ D.children) : x ∉ N q := by
  obtain ⟨B, hB⟩ := plain
  obtain rfl := Option.some_inj.1 ((lays.plain hB).symm.trans ha)
  exact outer x q (.inr (.inr ⟨a, _, hB, hx⟩))

namespace Minded

variable (lays : Lays S N F) (outer : Outer P O S N)

include lays outer in
theorem same : Minded S N F F := by
  refine ⟨fun hD hD' => .inr (Option.some_inj.1 (hD'.symm.trans hD)), fun {d D x q} hd was hx => ?_⟩
  exact outer.plain lays (was.resolve_right (by simp [hd])) hd hx

/-- Records go away. -/
theorem sub (k : Minded S N F F') {G : Facts} (less : G.Sub F') : Minded S N F G :=
  ⟨fun hD hD' => k.kept hD (less hD'), fun hd => k.named (less hd)⟩

include lays outer in
/-- A plain record is written. -/
theorem write (plain : ∃ B, S a = some (.plain B)) (ha : F a = some D)
    (named : ∀ x ∈ D'.children, x ∈ D.children ∨ ∀ q, x ∉ N q) :
    Minded S N F (Function.update F a (some D')) := by
  refine ⟨fun {b E E'} hE hE' => ?_, fun {b E' x q} hE' was hx => ?_⟩
  · by_cases e : b = a
    · exact .inl (e ▸ plain)
    · rw [Function.update_of_ne e] at hE'
      exact .inr (Option.some_inj.1 (hE'.symm.trans hE))
  · by_cases e : b = a
    · subst e
      obtain rfl : D' = E' := by simpa using hE'
      exact (named x hx).elim (outer.plain lays plain ha) fun out => out q
    · rw [Function.update_of_ne e] at hE'
      exact (same lays outer).named hE' was hx

include lays outer in
/-- A record is made. -/
theorem make (ha : F a = none) (named : ∀ x ∈ D'.children, ∀ q, x ∉ N q) :
    Minded S N F (Function.update F a (some D')) := by
  refine ⟨fun {b E E'} hE hE' => ?_, fun {b E' x q} hE' was hx => ?_⟩
  · rw [Function.update_of_ne] at hE'
    · exact .inr (Option.some_inj.1 (hE'.symm.trans hE))
    · rintro rfl
      cases ha.symm.trans hE
  · by_cases e : b = a
    · subst e
      obtain rfl : D' = E' := by simpa using hE'
      exact named x hx q
    · rw [Function.update_of_ne e] at hE'
      exact (same lays outer).named hE' was hx

end Minded

/-- An operation that minds the containers leaves them alone. -/
theorem Does.minded {m m' : Records} {op : Op} {r : Reply} (did : Does m op r m')
    (minds : op.Minds S)
    (entitled : op.Entitled O) (lays : Lays S N m.facts) (outer : Outer P O S N)
    (dead : m.facts .nil = none) :
    Minded S N m.facts m'.facts := by
  have unnamed : ∀ q, Address.nil ∉ N q := fun q => lays.named dead (.inl rfl)
  have plain {m : Records} {a : Address} {c : Cell} (lays : Lays S N m.facts)
    (dead : m.facts .nil = none) (hc : m a = some c)
      (plain : S.Plain a) : ∃ B, S a = some (.plain B) := plain.resolve_left fun e => by
    cases dead.symm.trans (e ▸ Records.facts_some hc)
  -- what is stored is no link, be it that the client gives up a reference or takes a new one
  have stored : ∀ a t i b, op = .setChildOwned a t i b ∨ op = .setChild a t i b → ∀ q, b ∉ N q := by
    rintro a t i b (rfl | rfl) q
    · rcases entitled with rfl | own
      · exact unnamed q
      · exact outer b q (.inl own)
    · exact lays.named dead minds.2
  clear entitled
  induction did with
  | read | pinNil | unpinNil => exact .same lays outer
  | allocate _ _ _ new =>
    rw [Records.facts_update]
    exact .make lays outer (by simp [Records.facts, new]) fun x hx q =>
      List.eq_of_mem_replicate hx ▸ unnamed q
  | setField hc _ =>
    rw [Records.facts_update]
    exact .write lays outer (plain lays dead hc minds) (Records.facts_some hc) fun x hx => .inl hx
  | @setChildOwned m m' a b old i c hc _ drops =>
    refine Minded.sub ?_ drops.facts
    rw [Records.facts_update]
    refine .write lays outer (plain lays dead hc minds) (Records.facts_some hc) fun x hx => ?_
    refine (List.mem_or_eq_of_mem_set hx).imp_right ?_
    rintro rfl
    exact stored a _ i x (.inl rfl)
  | @setChild m m' a b t i r _ _ ih =>
    rw [Records.facts_gain] at ih
    refine ih minds.1 lays dead fun a' t' i' b' e => ?_
    rcases e with e | e <;> cases e
    exact stored a t i b (.inr rfl)
  | takeChild hc _ =>
    rw [Records.facts_update]
    refine .write lays outer (plain lays dead hc minds) (Records.facts_some hc) fun x hx => ?_
    refine (List.mem_or_eq_of_mem_set hx).imp_right ?_
    rintro rfl
    exact unnamed
  | reference =>
    rw [Records.facts_gain]
    exact .same lays outer
  | free drops => exact (Minded.same lays outer).sub drops.facts
  | @copy m a b c hc _ new =>
    rw [Records.facts_update, Records.facts_gain]
    refine .make lays outer (by simp [Records.facts, new]) fun x hx q => ?_
    unfold Records.look at hc
    split at hc
    · cases hc
      cases hx
    · exact outer.plain lays (plain lays dead hc minds) (Records.facts_some hc) hx
  | pin hc _ | unpin hc _ _ =>
    refine (Minded.same lays outer).sub fun x D hx => ?_
    rw [Records.facts_update, Function.update_apply] at hx
    split_ifs at hx with e
    · rw [e, Records.facts_some hc, ← hx]
      rfl
    · exact hx
  | unpinLast _ _ _ drops =>
    refine (Minded.same lays outer).sub (drops.facts.trans fun x D hx => ?_)
    rw [Records.facts_update, Function.update_apply] at hx
    split_ifs at hx
    · cases hx
    · exact hx
  | sweep _ _ _ drops =>
    refine (Minded.same lays outer).sub (drops.facts.trans fun x D hx => ?_)
    obtain ⟨c, hc, rfl⟩ := Option.map_eq_some_iff.1 hx
    dsimp only at hc
    split_ifs at hc
    exact Records.facts_some hc

/-- What a client owns or has pinned after an operation that minds the containers is no link. -/
theorem Does.minds_owned {m m' : Records} {op : Op} {r : Reply} (did : Does m op r m')
    (minds : op.Minds S)
    (lays : Lays S N m.facts) (outer : Outer P O S N) (dead : m.facts .nil = none) :
    ∀ x q, x ∈ op.owned O r ∨ x ∈ op.pinned P → x ∉ N q := by
  have old : ∀ x q, x ∈ O ∨ x ∈ P → x ∉ N q := fun x q hx => outer x q (hx.imp_right .inl)
  have fresh {a : Address} (new : m a = none) : ∀ q, a ∉ N q := fun q hq => by
    obtain ⟨v, next, known⟩ := lays.link_known hq
    simp [Records.facts, new] at known
  have own {a x q : Address} (out : ∀ q, a ∉ N q) (hx : x ∈ a ::ₘ O ∨ x ∈ P) : x ∉ N q := by
    rcases hx with hx | hx
    · rcases Multiset.mem_cons.1 hx with rfl | hx
      · exact out q
      · exact old x q (.inl hx)
    · exact old x q (.inr hx)
  have less {a x q : Address} (hx : x ∈ O.erase a ∨ x ∈ P) : x ∉ N q :=
    old x q (hx.imp_left Multiset.mem_of_mem_erase)
  have pin {a x q : Address} (named : S.Named a) (hx : x ∈ O ∨ x ∈ a ::ₘ P) : x ∉ N q := by
    rcases hx with hx | hx
    · exact old x q (.inl hx)
    · rcases Multiset.mem_cons.1 hx with rfl | hx
      · exact lays.named dead named
      · exact old x q (.inr hx)
  have unpin {a x q : Address} (hx : x ∈ O ∨ x ∈ P.erase a) : x ∉ N q :=
    old x q (hx.imp_right Multiset.mem_of_mem_erase)
  intro x q hx
  cases did with
  | read | setField | setChild | sweep => exact old x q hx
  | allocate _ _ _ new | copy _ _ new => exact own (fresh new) hx
  | takeChild hc hb =>
    have here := Records.facts_some hc
    refine own (fun q => ?_) hx
    exact outer.plain lays (minds.resolve_left fun e => by cases dead.symm.trans (e ▸ here)) here
      (List.mem_of_getElem? hb)
  | reference => exact own (fun q => lays.named dead minds) hx
  | free | setChildOwned => exact less hx
  | pin | pinNil => exact pin minds hx
  | unpin | unpinLast | unpinNil => exact unpin hx

/-- What a client's store is after an operation that minds the containers, be it that this fails. -/
theorem Stocks.follow {k k' : Client} {op : Op} {r : Except HeapError Reply}
    (st : Stocks k.pins n k.owned S k.heap)
    (did : Client.Step k op r k') (minds : op.Minds S) (entitled : op.Entitled k.owned)
    (spare : Spare m k'.owned) :
    Stocks k'.pins m k'.owned (S.follow k.heap.body? k'.heap.body?) k'.heap := by
  obtain ⟨N, lays, outer, own⟩ := st
  have x := own.exact
  have own' : Owns k'.pins m k'.owned k'.heap := ⟨did.exact entitled x, spare⟩
  have dead := x.sound.body?_nil
  have outcome := (Client.owns x).outcome entitled
  cases did with
  | done run owned pins =>
    have does := (outcome.done _ _ run).1
    refine (does.minded minds entitled lays outer dead).stocks lays outer dead own'
      rfl fun a q ha => ?_
    exact does.minds_owned minds lays outer dead a q (by rwa [owned, pins] at ha)
  | failed run owned pins =>
    have same : k'.heap.body? = k.heap.body? := by
      change Records.facts k'.heap.cell? = Records.facts k.heap.cell?
      rw [(outcome.failed _ _ run).1]
      cases op <;> first | rfl | exact Records.facts_gain
    have left := (Minded.same lays outer).stocks lays outer dead own' same fun a q ha => ?_
    · rwa [same]
    rw [owned, pins] at ha
    rcases ha with ha | ha
    · unfold Op.stuck at ha
      split at ha
      · split_ifs at ha
        · rcases Multiset.mem_cons.1 ha with rfl | ha
          · exact lays.named dead minds.2
          · exact outer a q (.inl ha)
        · exact outer a q (.inl ha)
      · exact outer a q (.inl ha)
    · exact outer a q (.inr (.inl ha))

end Heap

end GoMachine
