import GoMachine.Proofs.Queues
import GoMachine.Proofs.Store.Basic
/-!
# Stacks and queues in a store

A stack or a queue is made empty, and what puts a value into it does so to the list that is stored
there.

* `Stack.create_stores`, `Stack.pushOwned_stores`: stacks.
* `Queue.enqueueOwned_stores`, `Queue.dequeue_stores`: queues.
-/
namespace GoMachine

open Heap (known_update Held Holds Short Linked Laid Lays Stores Owns)

variable {P O : Multiset Address} {n : Nat} {S : Store} {N : Address → List Address} {F F' : Facts}
  {h : Heap} {a b c q v w : Address} {t : Tag} {links vs us : List Address}

theorem length_succ_toUInt64 {k : Nat} : (k + 1).toUInt64 = k.toUInt64 + 1 := UInt64.ofNat_add k 1

/-- A count of values that is lowered. -/
theorem decrement_succ {k : Nat} (small : k < 2 ^ 31) :
    Stack.decrement (k + 1).toUInt64 = k.toUInt64 := by
  have positive : (k + 1).toUInt64 ≠ 0 := by
    intro e
    have := congrArg UInt64.toNat e
    simp only [Nat.toUInt64, UInt64.toNat_ofNat', UInt64.toNat_zero] at this
    omega
  rw [Stack.decrement, if_neg positive, length_succ_toUInt64]
  exact UInt64.add_sub_cancel _ _

namespace Heap.Linked

/-- The last link of a chain. -/
theorem last (k : Linked F (links ++ [b]) vs) :
    ∃ us u, vs = us ++ [u] ∧ F b = some ⟨.linkedList, [], [u, .nil]⟩ := by
  induction links generalizing vs with
  | nil =>
    cases vs with
    | nil => exact k.elim
    | cons v vs =>
      cases vs with
      | nil => exact ⟨[], v, rfl, k.1⟩
      | cons u us => exact k.2.elim
  | cons d links ih =>
    cases vs with
    | nil => exact k.elim
    | cons v vs =>
      obtain ⟨us, u, rfl, hb⟩ := ih k.2
      exact ⟨v :: us, u, rfl, hb⟩

/-- A link is added after the last one. -/
theorem extend (k : Linked F (links ++ [b]) (us ++ [v])) (same : ∀ d ∈ links, F' d = F d)
    (hb : F' b = some ⟨.linkedList, [], [v, c]⟩) (hc : F' c = some ⟨.linkedList, [], [w, .nil]⟩) :
    Linked F' (links ++ [b, c]) (us ++ [v, w]) := by
  induction links generalizing us with
  | nil =>
    cases us with
    | nil => exact ⟨hb, hc, trivial⟩
    | cons u us => cases us <;> exact k.2.elim
  | cons d links ih =>
    cases us with
    | nil => cases links <;> exact k.2.elim
    | cons u us =>
      refine ⟨?_, ih k.2 fun e he => same e (by simp [he])⟩
      rw [same d (by simp), k.1]
      cases links <;> rfl

/-- The last link but one leads to the last one. -/
theorem before_last (k : Linked F (links ++ [b]) vs) (hl : links ≠ []) :
    ∃ d ∈ links, ∃ u, F d = some ⟨.linkedList, [], [u, b]⟩ := by
  induction links generalizing vs with
  | nil => exact absurd rfl hl
  | cons d links ih =>
    cases vs with
    | nil => exact k.elim
    | cons u vs =>
      cases links with
      | nil => exact ⟨d, by simp, u, k.1⟩
      | cons e links =>
        obtain ⟨d', hd', found⟩ := ih k.2 (by simp)
        exact ⟨d', by simp [hd'], found⟩

/-- The values of a chain as they are read. -/
theorem take (k : Linked F links vs) (s : h.Sound)
    (body : ∀ {a B}, F a = some B → h.body? a = some B) {m : Nat} (le : links.length ≤ m) :
    Chain.take m (links.headD .nil) h = .ok vs := by
  induction links generalizing vs m with
  | nil =>
    cases vs with
    | nil => cases m <;> rfl
    | cons v vs => exact k.elim
  | cons a links ih =>
    cases vs with
    | nil => exact k.elim
    | cons v vs =>
      obtain ⟨m, rfl⟩ : ∃ m', m = m' + 1 := ⟨m - 1, by simp at le; omega⟩
      obtain ⟨c, hc, -⟩ := Heap.body?_eq_some.1 (body k.1)
      have live : a.isNil = false := s.isNil_eq_false (Heap.cell?_eq_some.1 hc).1
      have rest := ih k.2 (m := m) (by simpa using le)
      rw [List.headD_cons, Chain.take, live]
      refine query_bind_ok.2 ⟨v, s.child_body (body k.1) rfl, ?_⟩
      refine query_bind_ok.2 ⟨links.headD .nil, s.child_body (body k.1) rfl, ?_⟩
      exact query_bind_ok.2 ⟨vs, rest, rfl⟩

theorem values (k : Linked F links vs) (s : h.Sound)
    (body : ∀ {a B}, F a = some B → h.body? a = some B) (nodup : links.Nodup) :
    Chain.values (links.headD .nil) h = .ok vs := by
  have le := (s.length_le nodup fun a ha => by
    obtain ⟨v, next, e, -⟩ := k.known ha
    obtain ⟨c, hc, -⟩ := Heap.body?_eq_some.1 (body e)
    exact (Heap.cell?_eq_some.1 hc).1).1
  exact k.take s body (Nat.le_succ_of_le le)

end Heap.Linked

namespace Heap.Lays

variable {l : Address}

/-- A link is put in front of the chain of a stack. -/
theorem push (lays : Lays S N F) (hq : S q = some (.stack t vs)) (fresh : F l = none) :
    Lays (Function.update S q (some (.stack t (v :: vs)))) (Function.update N q (l :: N q))
      (Function.update (Function.update F l (some ⟨.linkedList, [], [v, (N q).headD .nil]⟩)) q
        (some ⟨t, [(N q).length.toUInt64 + 1], [l]⟩)) := by
  obtain ⟨hF, linked⟩ := lays.laid hq
  obtain ⟨-, out⟩ := lays.unknown fresh
  have ne : q ≠ l := by
    rintro rfl
    cases fresh.symm.trans hF
  refine lays.rechain (l :: N q) hq ⟨?_, ?_, ?_⟩ (List.nodup_cons.2 ⟨out q, lays.nodup q⟩) ?_ ?_ ?_
  · rw [Function.update_self]
    simp [length_succ_toUInt64]
  · rw [Function.update_of_ne ne.symm, Function.update_self]
  · refine linked.congr fun b hb => ?_
    rw [Function.update_of_ne (lays.link_ne hb hq), Function.update_of_ne]
    rintro rfl
    exact out q hb
  · intro b hb
    rcases List.mem_cons.1 hb with rfl | hb
    · exact .inr fresh
    · exact .inl hb
  · exact fun b hb hnb => absurd (List.mem_cons_of_mem l hb) hnb
  · intro b hbq _ hbl
    rw [Function.update_of_ne hbq, Function.update_of_ne fun e => hbl (by simp [e])]

/-- What is left of a chain whose first link is taken away. -/
theorem rest (lays : Lays S N F) {s : Shape} (hq : S q = some s) (e : N q = a :: links)
    (linked : Linked F links vs)
    {o : Option Body} : a ≠ q ∧ links.Nodup ∧
    Linked (Function.update (Function.update F a none) q o) links vs ∧
      (∀ b ∈ N q, b ∉ links → Function.update (Function.update F a none) q o b = none) ∧
      ∀ b, b ≠ q → b ∉ N q → Function.update (Function.update F a none) q o b = F b := by
  have ne : a ≠ q := lays.link_ne (q := q) (by simp [e]) hq
  have nodup := lays.nodup q
  rw [e, List.nodup_cons] at nodup
  refine ⟨ne, nodup.2, linked.congr fun b hb => ?_, fun b hb hnb => ?_, fun b hbq hbN => ?_⟩
  · have hbl : b ≠ a := fun e => nodup.1 (e ▸ hb)
    rw [Function.update_of_ne (lays.link_ne (q := q) (by simp [e, hb]) hq),
      Function.update_of_ne hbl]
  · obtain rfl : b = a := by simpa [e, hnb] using hb
    simp [ne]
  · have hbl : b ≠ a := fun h => hbN (by simp [e, h])
    rw [Function.update_of_ne hbq, Function.update_of_ne hbl]

/-- The first link of a stack is taken away. -/
theorem pop (lays : Lays S N F) (hq : S q = some (.stack t (v :: vs))) (e : N q = a :: links)
    (small : links.length < 2 ^ 31) :
    Lays (Function.update S q (some (.stack t vs))) (Function.update N q links)
      (Function.update (Function.update F a none) q
        (some ⟨t, [Stack.decrement (a :: links).length.toUInt64], [links.headD .nil]⟩)) := by
  have linked := (lays.laid hq).2
  rw [e] at linked
  obtain ⟨-, nodup, rest, gone, same⟩ := lays.rest hq e linked.2
  refine lays.rechain links hq ⟨?_, rest⟩ nodup (fun b hb => .inl (by simp [e, hb]))
    gone fun b hbq hbN _ => same b hbq hbN
  rw [Function.update_self]
  simpa using decrement_succ small

/-- Links are records. -/
theorem link_ne_nil (lays : Lays S N F) (dead : F .nil = none) (hb : b ∈ N q) : b ≠ .nil := by
  rintro rfl
  obtain ⟨_, _, here⟩ := lays.link_known hb
  cases dead.symm.trans here

/-- Nil is the next link of the last one only. -/
theorem last_iff (lays : Lays S N F) (dead : F .nil = none) (e : N q = a :: links) :
    if links.headD .nil = .nil then (a :: links).getLastD .nil = a
    else (a :: links).getLastD .nil ≠ a := by
  cases links with
  | nil => rfl
  | cons b links =>
    have nodup := lays.nodup q
    rw [e, List.nodup_cons] at nodup
    rw [List.headD_cons, if_neg (lays.link_ne_nil dead (q := q) (by simp [e])), List.getLastD_cons,
      List.getLastD_cons]
    exact fun same => nodup.1 (same ▸ List.getLastD_mem_cons)

/-- The last link stays the last one as long as it is not taken away. -/
theorem last_behind (lays : Lays S N F) (dead : F .nil = none) (e : N q = a :: links) :
    (if links.headD .nil = .nil then .nil else (a :: links).getLastD .nil) =
      links.getLastD .nil := by
  cases links with
  | nil => rfl
  | cons b links =>
    rw [List.headD_cons, if_neg (lays.link_ne_nil dead (q := q) (by simp [e]))]
    rfl

/-- The first link of a queue is taken away. -/
theorem dequeue (lays : Lays S N F) (hq : S q = some (.queue (v :: vs))) (e : N q = a :: links)
    (small : links.length < 2 ^ 31) :
    Lays (Function.update S q (some (.queue vs))) (Function.update N q links)
      (Function.update (Function.update F a none) q (some ⟨.queue,
        [Stack.decrement (a :: links).length.toUInt64],
        [links.headD .nil, links.getLastD .nil]⟩)) := by
  have linked := (lays.laid hq).2
  rw [e] at linked
  obtain ⟨-, nodup, rest, gone, same⟩ := lays.rest hq e linked.2
  refine lays.rechain links hq ⟨?_, rest⟩ nodup (fun b hb => .inl (by simp [e, hb]))
    gone fun b hbq hbN _ => same b hbq hbN
  rw [Function.update_self]
  simpa using decrement_succ small

/-- A link is put into an empty queue. -/
theorem enqueue_first (lays : Lays S N F) (hq : S q = some (.queue [])) (fresh : F l = none) :
    Lays (Function.update S q (some (.queue [v]))) (Function.update N q [l])
      (Function.update (Function.update F l (some ⟨.linkedList, [], [v, .nil]⟩)) q
        (some ⟨.queue, [(0 : Nat).toUInt64 + 1], [l, l]⟩)) := by
  obtain ⟨hF, linked⟩ := lays.laid hq
  have e : N q = [] := List.length_eq_zero_iff.1 linked.length_eq
  have ne : l ≠ q := by
    rintro rfl
    cases fresh.symm.trans hF
  refine lays.rechain [l] hq ⟨Function.update_self .., ?_, trivial⟩ (List.nodup_singleton l) ?_
    (by simp [e]) ?_
  · rw [Function.update_of_ne ne, Function.update_self]
    rfl
  · simp [fresh]
  · intro b hbq _ hbl
    rw [Function.update_of_ne hbq, Function.update_of_ne (by simpa using hbl)]

/-- A link is put behind the last one of a queue. -/
theorem enqueue (lays : Lays S N F) (hq : S q = some (.queue vs)) (e : N q = us ++ [b])
    (hb : F b = some ⟨.linkedList, [], [w, .nil]⟩) (fresh : F l = none) :
    Lays (Function.update S q (some (.queue (vs ++ [v])))) (Function.update N q (us ++ [b] ++ [l]))
      (Function.update (Function.update (Function.update F l (some ⟨.linkedList, [], [v, .nil]⟩)) b
        (some ⟨.linkedList, [], [w, l]⟩)) q
        (some ⟨.queue, [(us ++ [b]).length.toUInt64 + 1], [(us ++ [b]).headD .nil, l]⟩)) := by
  obtain ⟨hF, linked⟩ := lays.laid hq
  obtain ⟨-, out⟩ := lays.unknown fresh
  have mem {a : Address} (ha : a ∈ us ++ [b]) : a ∈ N q := e ▸ ha
  have ne : ∀ {a B}, F a = some B → a ≠ l := fun hB e => by simp [e, fresh] at hB
  have hbq : b ≠ q := lays.link_ne (mem (by simp)) hq
  have nodup : (us ++ [b] ++ [l]).Nodup :=
    (e ▸ lays.nodup q).append (List.nodup_singleton l) (List.disjoint_singleton.2 (e ▸ out q))
  have apart : ∀ d ∈ us, d ≠ b := fun d hd e =>
    (List.nodup_append.1 (List.nodup_append.1 nodup).1).2.2 d hd b (by simp) e
  rw [e] at linked
  obtain ⟨ws, u, rfl, hb'⟩ := linked.last
  obtain rfl : u = w := by simpa [hb'] using hb
  refine lays.rechain (us ++ [b] ++ [l]) hq ⟨?_, ?_⟩ nodup (fun a ha => ?_) (fun a ha hna => ?_)
    fun a haq ham hal => ?_
  · have length : (us ++ [b] ++ [l]).length = (us ++ [b]).length + 1 := List.length_append
    rw [Function.update_self, length, length_succ_toUInt64, List.getLastD_concat]
    cases us <;> rfl
  · rw [List.append_assoc, List.append_assoc]
    refine linked.extend (fun d hd => ?_) (known_update (Function.update_self ..) hbq) ?_
    · have hds : d ∈ us ++ [b] := by simp [hd]
      obtain ⟨x, next, e', -⟩ := linked.known hds
      rw [Function.update_of_ne (lays.link_ne (mem hds) hq), Function.update_of_ne (apart d hd),
        Function.update_of_ne (ne e')]
    · exact known_update (known_update (Function.update_self ..) (ne hb).symm) (ne hF).symm
  · exact (List.mem_append.1 ha).imp mem fun ha => by rwa [List.mem_singleton.1 ha]
  · exact absurd (List.mem_append_left _ (e ▸ ha)) hna
  · have hab : a ≠ b := fun h => ham (mem (by simp [h]))
    have hal : a ≠ l := fun h => hal (by simp [h])
    rw [Function.update_of_ne haq, Function.update_of_ne hab, Function.update_of_ne hal]

end Heap.Lays

/-- A new link takes over the client's reference to its value. -/
theorem Chain.createOwned_holds {next : Address} (holds : Holds P (n + 1) (v ::ₘ O) F h)
    (here : next = .nil ∨ ∃ B, F next = some B) :
    Ends (Short P O) (Chain.createOwned v next) h fun l h' => F l = none ∧
      Holds P (n + 1) (l ::ₘ O) (Function.update F l (some ⟨.linkedList, [], [v, next]⟩)) h' := by
  refine (holds.allocate.orRelease fun _ _ failed => failed.free).bind fun l h₁ ⟨fresh, holds⟩ => ?_
  rw [Multiset.cons_swap] at holds
  have blank := Function.update_self l (some (⟨.linkedList, [], [.nil, .nil]⟩ : Body)) F
  refine (holds.setChildOwned blank rfl (.inl (holds.nil_still blank))).heap.before
    fun _ h₂ holds => ?_
  have filled := Function.update_self l (some (⟨.linkedList, [], [v, .nil]⟩ : Body)) F
  rw [Function.update_idem] at holds
  refine (holds.setChild filled rfl (here.imp_right ?_) (.inl (holds.nil_still filled))).heap.before
    fun _ h₃ holds => .pure ⟨fresh, ?_⟩
  · rintro ⟨B, hB⟩
    refine holds.isLive (B := B) ?_
    rwa [Function.update_of_ne]
    rintro rfl
    simp [fresh] at hB
  · rwa [Function.update_idem] at holds

/-! ## Stacks -/

namespace Stack

/-- An empty stack. -/
theorem create_stores (st : Stores P n O S h) :
    Ends (Short P O) (create t) h fun q h' => S q = none ∧
      Stores P n (q ::ₘ O) (Function.update S q (some (.stack t []))) h' := by
  obtain ⟨N, F, lays, holds⟩ := st
  refine holds.allocate.mono fun q h' ⟨fresh, holds⟩ => ⟨(lays.unknown fresh).1, N, _, ?_, holds⟩
  exact lays.insert fresh ⟨Function.update_self .., trivial⟩

/-- A reference to a value moves onto a stack. -/
theorem pushOwned_stores (st : Stores P (n + 1) (v ::ₘ O) S h) (hq : S q = some (.stack t vs)) :
    Ends (Short P O) (pushOwned q v) h fun _ h' =>
      Stores P (n + 1) O (Function.update S q (some (.stack t (v :: vs)))) h' := by
  obtain ⟨N, F, lays, holds⟩ := st
  have laid := lays.laid hq
  refine .read (holds.tag laid.1) (.read (holds.child laid.1 rfl) ?_)
  have first : (N q).headD .nil = .nil ∨ ∃ B, F ((N q).headD .nil) = some B := by
    cases e : N q with
    | nil => exact .inl rfl
    | cons b l =>
      obtain ⟨u, next, hb⟩ := lays.link_known (a := b) (q := q) (by simp [e])
      exact .inr ⟨_, hb⟩
  refine (Chain.createOwned_holds holds first).bind fun l h₁ ⟨fresh, holds⟩ => ?_
  have ne : q ≠ l := by
    rintro rfl
    exact absurd laid.1 (by simp [fresh])
  have hq₁ := laid.1
  rw [← Function.update_of_ne ne (some ⟨.linkedList, [], [v, (N q).headD .nil]⟩) F] at hq₁
  refine (holds.setChildOwned hq₁ rfl (.inr (.inr ⟨l, ⟨.linkedList, [], [v, _]⟩, ?_,
    List.mem_cons_of_mem v (List.mem_singleton_self _)⟩))).heap.before fun _ h₂ holds => ?_
  · rw [Function.update_of_ne ne.symm, Function.update_self]
  refine .read (holds.field (Function.update_self ..) rfl) ?_
  refine (holds.setField (Function.update_self ..) (Nat.zero_lt_one)).heap.ends.mono
    fun _ h₃ holds => ?_
  rw [Function.update_idem] at holds
  exact ⟨_, _, lays.push hq fresh, holds⟩

/-- What is on a stack. -/
theorem values_stores (st : Stores P n O S h) (hq : S q = some (.stack t vs)) :
    Stack.values q h = .ok vs := by
  obtain ⟨N, F, lays, holds⟩ := st
  obtain ⟨hF, linked⟩ := lays.laid hq
  refine query_bind_ok.2 ⟨_, holds.tag hF, query_bind_ok.2 ⟨_, holds.child hF rfl, ?_⟩⟩
  exact linked.values holds.owns.exact.sound holds.body (lays.nodup q)

end Stack

/-! ## Queues -/

namespace Queue

/-- An empty queue. -/
theorem create_stores (st : Stores P n O S h) :
    Ends (Short P O) create h fun q h' => S q = none ∧
      Stores P n (q ::ₘ O) (Function.update S q (some (.queue []))) h' := by
  obtain ⟨N, F, lays, holds⟩ := st
  refine holds.allocate.mono fun q h' ⟨fresh, holds⟩ => ⟨(lays.unknown fresh).1, N, _, ?_, holds⟩
  exact lays.insert fresh ⟨Function.update_self .., trivial⟩

/-- A link comes to be the last one of a queue. -/
theorem closeBack_holds {k : UInt64} {front back : Address} (holds : Holds P n (a ::ₘ O) F h)
    (hq : F q = some ⟨.queue, [k], [front, back]⟩)
    (still : back = .nil ∨ back = front ∨ ∃ d D, d ≠ q ∧ F d = some D ∧ back ∈ D.children) :
    Gives (closeBack q a) h fun _ h' =>
      Holds P n O (Function.update F q (some ⟨.queue, [k + 1], [front, a]⟩)) h' := by
  have here := Function.update_self q (some (⟨.queue, [k], [front, a]⟩ : Body)) F
  refine (holds.setChildOwned hq rfl ?_).heap.bind fun _ h₁ holds => ?_
  · rcases still with rfl | rfl | ⟨d, D, ne, hd, hm⟩
    · exact .inl (holds.nil_still hq)
    · exact .inr (.inr ⟨q, _, here, by simp⟩)
    · exact .inr (.inr ⟨d, D, known_update hd ne, hm⟩)
  refine .read (holds.field here rfl) ?_
  refine (holds.setField here Nat.zero_lt_one).heap.mono fun _ h₂ holds => ?_
  rwa [Function.update_idem] at holds

/-- A reference to a value moves to the back of an empty queue. -/
theorem enqueueOwned_first_holds {k : UInt64} (holds : Holds P (n + 1) (v ::ₘ O) F h)
    (hq : F q = some ⟨.queue, [k], [.nil, .nil]⟩) :
    Ends (Short P O) (enqueueOwned q v) h fun _ h' => ∃ l, F l = none ∧ Holds P (n + 1) O
      (Function.update (Function.update F l (some ⟨.linkedList, [], [v, .nil]⟩)) q
      (some ⟨.queue, [k + 1], [l, l]⟩)) h' := by
  have apart : ∀ {l}, F l = none → q ≠ l := fun fresh e => by cases fresh.symm.trans (e ▸ hq)
  refine enqueueOwned_ends
    (M := fun l b h₁ => b = .nil ∧ F l = none ∧ Holds P (n + 1) (l ::ₘ O)
      (Function.update F l (some ⟨.linkedList, [], [v, .nil]⟩)) h₁)
    (N := fun l h₁ => F l = none ∧ Holds P (n + 1) (l ::ₘ O) (Function.update (Function.update F l
      (some ⟨.linkedList, [], [v, .nil]⟩)) q (some ⟨.queue, [k], [l, .nil]⟩)) h₁)
    ?made ?first ?behind ?closed
  case made =>
    refine (Chain.createOwned_holds holds (.inl rfl)).mono fun l h₁ ⟨fresh, holds⟩ => ?_
    have hq₁ := known_update (o := some ⟨.linkedList, [], [v, .nil]⟩) hq (apart fresh)
    exact (Gives.query (holds.child hq₁ rfl) ⟨rfl, fresh, holds⟩).ends
  case first =>
    rintro l h₁ ⟨-, fresh, holds⟩
    have hl := Function.update_self l (some (⟨.linkedList, [], [v, .nil]⟩ : Body)) F
    have hq₁ := known_update (o := some ⟨.linkedList, [], [v, .nil]⟩) hq (apart fresh)
    exact ((holds.setChild hq₁ rfl (.inr (holds.isLive hl)) (.inl (holds.nil_still hq₁))).heap.mono
      fun _ h₂ holds => ⟨fresh, holds⟩).ends
  case behind => exact fun other there => absurd there.1 other
  case closed =>
    rintro l h₂ ⟨fresh, holds⟩
    refine (closeBack_holds holds (Function.update_self ..) (.inl rfl)).ends.mono
      fun _ h₃ holds => ?_
    rw [Function.update_idem] at holds
    exact ⟨l, fresh, holds⟩

/-- A reference to a value moves to the back of a queue, behind the last link. -/
theorem enqueueOwned_holds {k : UInt64} {front u : Address} (holds : Holds P (n + 1) (v ::ₘ O) F h)
    (hq : F q = some ⟨.queue, [k], [front, b]⟩) (hb : F b = some ⟨.linkedList, [], [u, .nil]⟩)
    (ne : b ≠ q) (still : b = front ∨ ∃ d D, d ≠ q ∧ d ≠ b ∧ F d = some D ∧ b ∈ D.children) :
    Ends (Short P O) (enqueueOwned q v) h fun _ h' => ∃ l, F l = none ∧ Holds P (n + 1) O
      (Function.update (Function.update (Function.update F l (some ⟨.linkedList, [], [v, .nil]⟩)) b
        (some ⟨.linkedList, [], [u, l]⟩)) q (some ⟨.queue, [k + 1], [front, l]⟩)) h' := by
  have apart : ∀ {l d D}, F l = none → F d = some D → d ≠ l := fun fresh hd e => by
    cases fresh.symm.trans (e ▸ hd)
  refine enqueueOwned_ends
    (M := fun l back h₁ => back = b ∧ F l = none ∧ Holds P (n + 1) (l ::ₘ O)
      (Function.update F l (some ⟨.linkedList, [], [v, .nil]⟩)) h₁)
    (N := fun l h₁ => F l = none ∧ Holds P (n + 1) (l ::ₘ O) (Function.update (Function.update F l
      (some ⟨.linkedList, [], [v, .nil]⟩)) b (some ⟨.linkedList, [], [u, l]⟩)) h₁)
    ?made ?first ?behind ?closed
  case made =>
    refine (Chain.createOwned_holds holds (.inl rfl)).mono fun l h₁ ⟨fresh, holds⟩ => ?_
    have hq₁ := known_update (o := some ⟨.linkedList, [], [v, .nil]⟩) hq (apart fresh hq)
    exact (Gives.query (holds.child hq₁ rfl) ⟨rfl, fresh, holds⟩).ends
  case first => exact fun there => absurd there.1.symm (holds.ne_nil hb)
  case behind =>
    rintro l back h₁ _ ⟨rfl, fresh, holds⟩
    have hl := Function.update_self l (some (⟨.linkedList, [], [v, .nil]⟩ : Body)) F
    have hb₁ := known_update (o := some ⟨.linkedList, [], [v, .nil]⟩) hb (apart fresh hb)
    exact ((holds.setChild hb₁ rfl (.inr (holds.isLive hl)) (.inl (holds.nil_still hb₁))).heap.mono
      fun _ h₂ holds => ⟨fresh, holds⟩).ends
  case closed =>
    rintro l h₂ ⟨fresh, holds⟩
    have known : ∀ {d D}, F d = some D → d ≠ b → Function.update (Function.update F l
        (some ⟨.linkedList, [], [v, .nil]⟩)) b (some ⟨.linkedList, [], [u, l]⟩) d = some D :=
      fun hd other => known_update (known_update hd (apart fresh hd)) other
    refine (closeBack_holds holds (known hq ne.symm) (.inr ?_)).ends.mono fun _ h₃ holds =>
      ⟨l, fresh, holds⟩
    exact still.imp_right fun ⟨d, D, hdq, hdb, hd, hm⟩ => ⟨d, D, hdq, known hd hdb, hm⟩

/-- A reference to a value moves to the back of a queue. -/
theorem enqueueOwned_stores (st : Stores P (n + 1) (v ::ₘ O) S h) (hq : S q = some (.queue vs)) :
    Ends (Short P O) (enqueueOwned q v) h fun _ h' =>
      Stores P (n + 1) O (Function.update S q (some (.queue (vs ++ [v])))) h' := by
  obtain ⟨N, F, lays, holds⟩ := st
  obtain ⟨hF, linked⟩ := lays.laid hq
  rcases List.eq_nil_or_concat (N q) with e | ⟨us, b, e⟩
  · rw [e] at hF linked
    obtain rfl : vs = [] := List.length_eq_zero_iff.1 linked.length_eq.symm
    exact (enqueueOwned_first_holds holds hF).mono fun _ h' ⟨l, fresh, holds⟩ =>
      ⟨_, _, lays.enqueue_first hq fresh, holds⟩
  · rw [List.concat_eq_append] at e
    have mem {a : Address} (ha : a ∈ us ++ [b]) : a ∈ N q := e ▸ ha
    have nodup := lays.nodup q
    rw [e] at hF linked nodup
    rw [List.getLastD_concat] at hF
    obtain ⟨us', u, -, hb⟩ := linked.last
    refine (enqueueOwned_holds holds hF hb (lays.link_ne (mem (by simp)) hq) ?_).mono
      fun _ h' ⟨l, fresh, holds⟩ => ⟨_, _, lays.enqueue hq e hb fresh, holds⟩
    cases us with
    | nil => exact .inl rfl
    | cons d us =>
      obtain ⟨d', hd', u', found⟩ := linked.before_last (by simp)
      have apart : d' ≠ b := fun e => (List.nodup_append.1 nodup).2.2 d' hd' b (by simp) e
      exact .inr ⟨d', _, lays.link_ne (mem (List.mem_append_left _ hd')) hq, apart, found,
        List.mem_of_getElem? (i := 1) rfl⟩

/-- A new reference to a value goes to the back of a queue. -/
theorem enqueue_stores (st : Stores P (n + 2) O S h) (hq : S q = some (.queue vs))
    (here : v = .nil ∨ h.isLive v) :
    Ends (Short P O) (enqueue q v) h fun _ h' =>
      Stores P (n + 2) O (Function.update S q (some (.queue (vs ++ [v])))) h' := by
  refine (st.reference here).heap.before fun _ h₁ ⟨_, owned⟩ => ?_
  exact (enqueueOwned_stores owned hq).mono fun _ _ owned => owned.tighten st.owns.spare

/-- The front link, empty by now, is dropped. -/
theorem dropFront_holds {k : UInt64} {next last : Address}
    (holds : Holds P n (next ::ₘ v ::ₘ a ::ₘ O) F h) (hq : F q = some ⟨.queue, [k], [.nil, last]⟩)
    (ha : F a = some ⟨.linkedList, [], [.nil, .nil]⟩) (ne : a ≠ q) :
    Gives (dropFront q a next v) h fun r h' => r = v ∧ Holds P n (v ::ₘ O)
      (Function.update (Function.update F a none) q
        (some ⟨.queue, [Stack.decrement k], [next, last]⟩)) h' := by
  refine (holds.setChildOwned hq rfl (.inl (holds.nil_still hq))).heap.bind fun _ h₁ holds => ?_
  replace holds := holds.erase (known_update ha ne) (by simpa using holds.nil_none)
  rw [Multiset.cons_swap] at holds
  refine (holds.free (.inl (Function.update_self ..))).heap.bind fun _ h₂ holds => ?_
  rw [Function.update_comm ne.symm] at holds
  have here := Function.update_self q (some (⟨.queue, [k], [next, last]⟩ : Body))
    (Function.update F a none)
  refine .read (holds.field here rfl) ?_
  refine (holds.setField here Nat.zero_lt_one).heap.bind fun _ h₃ holds => .pure ⟨rfl, ?_⟩
  rwa [Function.update_idem] at holds

/-- Nothing is taken out of an empty queue. -/
theorem dequeue_none_holds {k : UInt64} {back : Address} (holds : Holds P (n + 1) O F h)
    (hq : F q = some ⟨.queue, [k], [.nil, back]⟩) :
    Gives (dequeue q) h fun r h' => r = .nil ∧ Holds P n (.nil ::ₘ O) F h' := by
  refine (dequeue_ends (A := fun r h₁ => r = .nil ∧ Holds P n (.nil ::ₘ O) F h₁)
    (B := fun _ _ _ _ => False) (C := fun _ _ _ _ => False) ?taken (fun there => there)
    (fun ne_nil there => absurd there.1 ne_nil) (fun never => never.elim) (fun _ never => never)
    (fun never => never.elim)).gives
  refine ((holds.takeChild hq rfl).heap.mono fun r h₁ ⟨e, holds⟩ => ⟨e, ?_⟩).ends
  rwa [Function.update_eq_self_iff.2 hq.symm] at holds

/-- The value of the front link moves to the client, and no more is known of the link. Behind the
last link there is none. -/
theorem dequeue_holds {k : UInt64} {next back : Address} (holds : Holds P (n + 4) O F h)
    (hq : F q = some ⟨.queue, [k], [a, back]⟩) (ha : F a = some ⟨.linkedList, [], [v, next]⟩)
    (ne : a ≠ q) (last : next = .nil → back = a) :
    Gives (dequeue q) h fun r h' => r = v ∧
      Holds P (n + 3) (v ::ₘ O) (Function.update (Function.update F a none) q
        (some ⟨.queue, [Stack.decrement k], [next, if next = .nil then .nil else back]⟩)) h' := by
  -- what is known when the front link was emptied and the last one is `b`
  let emptied (b : Address) : Facts := Function.update (Function.update F q
    (some ⟨.queue, [k], [.nil, b]⟩)) a (some ⟨.linkedList, [], [.nil, .nil]⟩)
  have queue (b : Address) : emptied b q = some ⟨.queue, [k], [.nil, b]⟩ :=
    known_update (Function.update_self ..) ne.symm
  have room := holds.owns.spare
  refine (dequeue_ends (E := fun _ _ => False)
    (A := fun r h₁ => r = a ∧ Holds P (n + 3) (a ::ₘ O)
      (Function.update F q (some ⟨.queue, [k], [.nil, back]⟩)) h₁)
    (B := fun r v' b h₁ => r = a ∧ v' = v ∧ b = next ∧
      Holds P (n + 1) (next ::ₘ v ::ₘ a ::ₘ O) (emptied back) h₁)
    (C := fun r v' b h₁ => r = a ∧ v' = v ∧ b = next ∧ Holds P (n + 1) (next ::ₘ v ::ₘ a ::ₘ O)
      (emptied (if next = .nil then .nil else back)) h₁)
    ?taken ?empty ?opened ?last ?more ?dropped).gives
  case taken => exact (holds.takeChild hq rfl).heap.ends
  case empty => exact fun there => absurd there.1.symm (holds.ne_nil ha)
  case opened =>
    rintro r h₁ _ ⟨rfl, holds⟩
    refine (holds.takeChild (known_update ha ne) rfl).heap.ends.mono fun v' h₂ ⟨e, holds⟩ => ?_
    subst v'
    refine (holds.takeChild (Function.update_self ..) rfl).heap.ends.mono
      fun b h₃ ⟨e, holds⟩ => ?_
    rw [Function.update_idem] at holds
    exact ⟨rfl, rfl, e, holds⟩
  case last =>
    rintro r v' h₁ ⟨rfl, rfl, e, holds⟩
    obtain rfl := last e.symm
    refine (holds.setChild (queue back) rfl (.inl rfl) (.inr (.inl (by simp)))).heap.ends.mono
      fun _ h₄ holds => ⟨rfl, rfl, e, ?_⟩
    have same : Function.update (emptied back) q (some ⟨.queue, [k], [.nil, .nil]⟩) =
        emptied .nil := by
      simp only [emptied]
      rw [Function.update_comm ne, Function.update_idem]
    rw [if_pos e.symm, ← same]
    exact holds
  case more =>
    rintro r v' b h₁ ne_nil ⟨rfl, rfl, rfl, holds⟩
    exact ⟨rfl, rfl, rfl, by rwa [if_neg ne_nil]⟩
  case dropped =>
    rintro r v' b h₁ ⟨rfl, rfl, rfl, holds⟩
    refine (dropFront_holds holds (queue _) (Function.update_self ..) ne).ends.mono
      fun x h₅ ⟨e, holds⟩ => ⟨e, ?_⟩
    convert holds.tighten room.cons using 1
    funext d
    simp only [emptied, Function.update_apply]
    split_ifs <;> rfl

/-- The value in front moves to the client, or nil if there is none. -/
theorem dequeue_stores (st : Stores P (n + 4) O S h) (hq : S q = some (.queue vs)) :
    Gives (dequeue q) h fun v h' => v = vs.headD .nil ∧ Stores P (n + 3) (v ::ₘ O)
      (Function.update S q (some (.queue vs.tail))) h' := by
  obtain ⟨N, F, lays, holds⟩ := st
  obtain ⟨hF, linked⟩ := lays.laid hq
  cases e : N q with
  | nil =>
    rw [e] at hF linked
    obtain rfl : vs = [] := List.length_eq_zero_iff.1 linked.length_eq.symm
    refine (dequeue_none_holds (n := n + 3) holds hF).mono fun v h' ⟨absent, holds⟩ => ⟨absent, ?_⟩
    rw [List.tail_nil, Function.update_eq_self_iff.2 hq.symm, absent]
    exact ⟨N, F, lays, holds⟩
  | cons l links =>
    rw [e] at hF linked
    cases vs with
    | nil => exact linked.elim
    | cons v vs =>
      have few := (lays.length_le (q := q) holds).2
      rw [e] at few
      have last := lays.last_iff holds.nil_none e
      refine (dequeue_holds holds hF linked.1 (lays.link_ne (q := q) (by simp [e]) hq)
        fun e => (if_pos e).mp last).mono fun r h' ⟨value, holds'⟩ => ⟨value, ?_⟩
      subst r
      rw [lays.last_behind holds.nil_none e] at holds'
      exact ⟨_, _, lays.dequeue hq e few, holds'⟩

/-- What is in a queue. -/
theorem values_stores (st : Stores P n O S h) (hq : S q = some (.queue vs)) :
    Queue.values q h = .ok vs := by
  obtain ⟨N, F, lays, holds⟩ := st
  obtain ⟨hF, linked⟩ := lays.laid hq
  refine query_bind_ok.2 ⟨_, holds.child hF rfl, ?_⟩
  exact linked.values holds.owns.exact.sound holds.body (lays.nodup q)

/-- A queue is no longer than there are records. -/
theorem length_le (st : Stores P n O S h) (hq : S q = some (.queue vs)) :
    vs.length ≤ h.liveCount := by
  obtain ⟨N, F, lays, holds⟩ := st
  rw [← (lays.laid hq).2.length_eq]
  exact (lays.length_le holds).1

theorem size_stores (st : Stores P n O S h) (hq : S q = some (.queue vs)) :
    Queue.size q h = .ok vs.length := by
  obtain ⟨N, F, lays, holds⟩ := st
  obtain ⟨hF, linked⟩ := lays.laid hq
  have few := (lays.length_le (q := q) holds).2
  refine query_bind_ok.2 ⟨_, holds.field hF rfl, query_pure_ok.2 ?_⟩
  rw [← linked.length_eq, Nat.toUInt64, UInt64.toNat_ofNat', Nat.mod_eq_of_lt (by omega)]

theorem isEmpty_stores (st : Stores P n O S h) (hq : S q = some (.queue vs)) :
    Queue.isEmpty q h = .ok vs.isEmpty := by
  refine query_bind_ok.2 ⟨_, size_stores st hq, query_pure_ok.2 ?_⟩
  cases vs <;> rfl

end Queue
end GoMachine
