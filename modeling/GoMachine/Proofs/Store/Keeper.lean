import GoMachine.Proofs.Store.Freed
/-!
# Keepers of stacks and queues

A keeper makes stacks and queues and puts values into them, nil among them, in a heap where there
may be anything else. In between it uses the heap as any client does: it gives up values and
containers, keeps containers in other records, sweeps. All that it must not do is write into
containers, and have to do with the links of their chains.

* `Move.ends`: what is done to a container is done to the list in it.
* `Keeper.Reached.stocks`: so it is for whole runs.
* `Keeper.containers_are_lists`: what can be said of all containers, of the references that they
  hold, and of what becomes of these.
-/
namespace GoMachine

open Heap (Client Exact Op Owns Spare Stocks Linked Laid Lays Frees)

/-! ## What can be done to a container -/

def Shape.put (v : Address) : Shape → Shape
  | stack t vs => stack t (v :: vs)
  | queue vs => queue (vs ++ [v])
  | plain D => plain D

/-- A container without the value that is next. -/
def Shape.rest : Shape → Shape
  | stack t vs => stack t vs.tail
  | queue vs => queue vs.tail
  | plain D => plain D

/-- What a keeper does with its containers. -/
inductive Move where
  | newStack (tag : Tag)
  | newQueue
  | push (q v : Address)
  | pushOwned (q v : Address)
  | pop (q : Address)
  | enqueue (q v : Address)
  | enqueueOwned (q v : Address)
  | dequeue (q : Address)

namespace Move

def run : Move → Action Address
  | newStack t => Stack.create t
  | newQueue => Queue.create
  | push q v => do Stack.push q v; return .nil
  | pushOwned q v => do Stack.pushOwned q v; return .nil
  | pop q => Stack.pop q
  | enqueue q v => do Queue.enqueue q v; return .nil
  | enqueueOwned q v => do Queue.enqueueOwned q v; return .nil
  | dequeue q => Queue.dequeue q

/-- It is a container of that kind, and the value is nil, or is there, or is the keeper's to give
away. -/
def Allowed (S : Store) (O : Multiset Address) : Move → Prop
  | newStack _ | newQueue => True
  | push q v => (∃ t vs, S q = some (.stack t vs)) ∧ S.Named v
  | pushOwned q v => (∃ t vs, S q = some (.stack t vs)) ∧ (v = .nil ∨ v ∈ O)
  | pop q => ∃ t vs, S q = some (.stack t vs)
  | enqueue q v => (∃ vs, S q = some (.queue vs)) ∧ S.Named v
  | enqueueOwned q v => (∃ vs, S q = some (.queue vs)) ∧ (v = .nil ∨ v ∈ O)
  | dequeue q => ∃ vs, S q = some (.queue vs)

/-- What stands in the store afterwards, when `r` has been given back. -/
def store (S : Store) (r : Address) : Move → Store
  | newStack t => Function.update S r (some (.stack t []))
  | newQueue => Function.update S r (some (.queue []))
  | push q v | pushOwned q v | enqueue q v | enqueueOwned q v =>
    Function.update S q ((S q).map (Shape.put v))
  | pop q | dequeue q => Function.update S q ((S q).map Shape.rest)

def owned (O : Multiset Address) (r : Address) : Move → Multiset Address
  | newStack _ | newQueue | pop _ | dequeue _ => r ::ₘ O
  | pushOwned _ v | enqueueOwned _ v => O.erase v
  | push .. | enqueue .. => O

/-- What is given back: a new container, or the value that is next, or nil. -/
def Answers (S : Store) (r : Address) : Move → Prop
  | newStack _ | newQueue => S r = none
  | pop q | dequeue q => ∃ s, S q = some s ∧ r = s.refs.headD .nil
  | push .. | pushOwned .. | enqueue .. | enqueueOwned .. => r = .nil

end Move

variable {P O : Multiset Address} {n : Nat} {S : Store} {h : Heap} {q v : Address} {s : Shape}
    {t : Tag} {vs links : List Address}

/-- A reference that is the client's to give away. -/
theorem Heap.Stocks.split (st : Stocks P n O S h) (mine : v = .nil ∨ v ∈ O) :
    Stocks P n (v ::ₘ O.erase v) S h := by
  by_cases hv : v ∈ O
  · rwa [Multiset.cons_erase hv]
  · obtain rfl := mine.resolve_right hv
    rw [Multiset.erase_of_notMem hv]
    exact st.cons_nil

/-- Whatever a keeper does with a container is done to the list in it, or the heap is too small. -/
theorem Move.ends {m : Move} (st : Stocks P 4 O S h) (allowed : m.Allowed S O) :
    Ends Fault.Shortage m.run h fun r h' => m.Answers S r ∧
    Stocks P 0 (m.owned O r) (m.store S r) h' := by
  cases m with
  | newStack t => exact (Stack.create_stocks (st.weaken (Nat.zero_le _))).mono fun _ _ done => done
  | newQueue => exact (Queue.create_stocks (st.weaken (Nat.zero_le _))).mono fun _ _ done => done
  | push q v =>
    obtain ⟨⟨t, vs, hq⟩, here⟩ := allowed
    refine (Stack.push_stocks (n := 2) st hq here).bind fun _ h' st' => .pure ⟨rfl, ?_⟩
    simpa [store, owned, hq, Shape.put] using st'.weaken (Nat.zero_le _)
  | pushOwned q v =>
    obtain ⟨⟨t, vs, hq⟩, mine⟩ := allowed
    refine (Stack.pushOwned_stocks (n := 3) (st.split mine) hq).bind fun _ h' st' => .pure ⟨rfl, ?_⟩
    simpa [store, owned, hq, Shape.put] using st'.weaken (Nat.zero_le _)
  | pop q =>
    obtain ⟨t, vs, hq⟩ := allowed
    refine (Stack.pop_stocks (n := 1) st hq).ends.mono fun v h' ⟨first, st'⟩ => ⟨⟨_, hq, first⟩, ?_⟩
    simpa [store, owned, hq, Shape.rest] using st'.weaken (Nat.zero_le _)
  | enqueue q v =>
    obtain ⟨⟨vs, hq⟩, here⟩ := allowed
    refine (Queue.enqueue_stocks (n := 2) st hq here).bind fun _ h' st' => .pure ⟨rfl, ?_⟩
    simpa [store, owned, hq, Shape.put] using st'.weaken (Nat.zero_le _)
  | enqueueOwned q v =>
    obtain ⟨⟨vs, hq⟩, mine⟩ := allowed
    refine (Queue.enqueueOwned_stocks (n := 3) (st.split mine) hq).bind fun _ h' st' =>
      .pure ⟨rfl, ?_⟩
    simpa [store, owned, hq, Shape.put] using st'.weaken (Nat.zero_le _)
  | dequeue q =>
    obtain ⟨vs, hq⟩ := allowed
    refine (Queue.dequeue_stocks (n := 0) st hq).ends.mono fun v h' ⟨first, st'⟩ =>
      ⟨⟨_, hq, first⟩, ?_⟩
    simpa [store, owned, hq, Shape.rest] using st'.weaken (Nat.zero_le _)

/-! ## What a container shows -/

namespace Heap

variable {F : Facts} {a : Address} {B : Body}

/-- The slots of some records, one after another. -/
def Facts.slots (F : Facts) (l : List Address) : List Address := l.flatMap fun a =>
    (F a).elim [] Body.children

/-- Apart from the links, the slots of a chain hold its values. -/
theorem Linked.count (k : Linked F links vs) (notNil : a ≠ .nil) (out : a ∉ links) :
    (Facts.slots F links).count a = vs.count a := by
  induction links generalizing vs with
  | nil => rw [List.length_eq_zero_iff.1 k.length_eq.symm]; rfl
  | cons l links ih =>
    cases vs with
    | nil => exact k.elim
    | cons v vs =>
      have next : links.headD .nil ≠ a := by
        cases links with
        | nil => exact notNil.symm
        | cons b links => exact fun e => out (by simp [← e])
      have rest := ih k.2 fun h => out (List.mem_cons_of_mem l h)
      rw [Facts.slots] at rest ⊢
      rw [List.flatMap_cons, k.1, List.count_append, rest, Option.elim_some, List.count_cons,
        List.count_cons_of_ne next,
        List.count_nil, List.count_cons, zero_add, Nat.add_comm]

theorem Linked.peek (k : Linked h.body? links vs) (sound : h.Sound) :
    (if (links.headD .nil).isNil then return .nil else Chain.value (links.headD .nil) :
    Query Address) h =
      .ok (vs.headD .nil) := by
  cases links with
  | nil => rw [List.length_eq_zero_iff.1 k.length_eq.symm]; rfl
  | cons l links =>
    cases vs with
    | nil => exact k.elim
    | cons v vs =>
      have there : l ≠ .nil := by
        rintro rfl
        cases sound.body?_nil.symm.trans k.1
      rw [List.headD_cons, if_neg (mt Address.isNil_iff.1 there)]
      exact sound.child_body k.1 rfl

/-- The number of links fits into the field for it. -/
theorem Linked.length_toUInt64 (k : Linked h.body? links vs) (sound : h.Sound)
    (nodup : links.Nodup) :
    links.length.toUInt64.toNat = vs.length := by
  have few := (sound.length_le nodup fun a ha => by
    obtain ⟨v, next, here, -⟩ := k.known ha
    obtain ⟨c, hc, -⟩ := body?_eq_some.1 here
    exact (cell?_eq_some.1 hc).1).2
  rw [← k.length_eq, Nat.toUInt64, UInt64.toNat_ofNat', Nat.mod_eq_of_lt (by omega)]

/-- Apart from the links, the slots of a container and of its links hold what is stored. -/
theorem Laid.count (laid : Laid F q links s) (notNil : a ≠ .nil) (out : a ∉ links) :
    (Facts.slots F (q :: links)).count a = s.refs.count a := by
  have first : links.headD .nil ≠ a := by
    cases links with
    | nil => exact notNil.symm
    | cons b links => exact fun e => out (by simp [← e])
  have last : links.getLastD .nil ≠ a := by
    rcases List.eq_nil_or_concat links with e | ⟨us, b, e⟩
    · exact fun e' => notNil (by rw [← e', e]; rfl)
    · exact fun e' => out (by simp [← e', e])
  have chain {vs : List Address} (k : Linked F links vs) := k.count notNil out
  unfold Facts.slots at chain ⊢
  rw [List.flatMap_cons, List.count_append]
  cases s with
  | plain B => rw [laid.1, laid.2]; rfl
  | queue vs =>
    rw [laid.1, chain laid.2, Option.elim_some, List.count_cons_of_ne first,
      List.count_cons_of_ne last, List.count_nil, zero_add]
    rfl
  | stack t vs =>
    rw [laid.1, chain laid.2, Option.elim_some, List.count_cons_of_ne first, List.count_nil,
      zero_add]
    rfl

end Heap

/-! ## Keepers -/

/-- A client of the heap that keeps stacks and queues. -/
structure Keeper where
  client : Client
  /-- There is room for the references that are taken in between. -/
  room : ∀ a, a ≠ .nil → client.owned.count a + 4 ≤ Heap.limit
  /-- What ought to stand in the heap, the links left out. -/
  store : Store

namespace Keeper

variable {k k' : Keeper}

abbrev heap (k : Keeper) : Heap := k.client.heap

inductive Step (k k' : Keeper) : Prop
  /-- It does something to a container. -/
  | moved {m : Move} {r : Address} : m.Allowed k.store k.client.owned →
      m.run k.heap = .ok r k'.heap →
      k'.client.owned = m.owned k.client.owned r → k'.client.pins = k.client.pins →
      k'.store = m.store k.store r → Step k k'
  /-- It uses the heap for something else. -/
  | other {op : Op} {r : Except HeapError Heap.Reply} : Client.Step k.client op r k'.client →
      op.Entitled k.client.owned → op.Minds k.store →
      k'.store = k.store.follow k.heap.body? k'.heap.body? → Step k k'

/-- A keeper that starts in any heap with exact counts, without containers. -/
inductive Reached : Keeper → Prop
  | start {k : Keeper} : Exact k.client.pins k.client.owned k.heap →
      k.store = (fun a => (k.heap.body? a).map .plain) → Reached k
  | step {k k' : Keeper} : Reached k → Step k k' → Reached k'

theorem spare (k : Keeper) : Spare 4 k.client.owned := ⟨by decide, k.room⟩

theorem Step.stocks (did : Step k k') (st : Stocks k.client.pins 4 k.client.owned k.store k.heap) :
    Stocks k'.client.pins 4 k'.client.owned k'.store k'.heap := by
  cases did with
  | moved allowed run owned pins store =>
    have st' := ((Move.ends st allowed).yields _ _ run).2
    rw [← owned, ← pins, ← store] at st'
    exact st'.tighten k'.spare
  | other did entitled minds store => exact store ▸ st.follow did minds entitled k'.spare

theorem Reached.stocks (reached : Reached k) :
    Stocks k.client.pins 4 k.client.owned k.store k.heap := by
  induction reached with
  | @start k x store => exact store ▸ .start ⟨x, k.spare⟩
  | step _ did ih => exact did.stocks ih

/-! ## Containers are lists -/

/-- What is in a container, and what it holds references to. -/
structure Faithful (k : Keeper) : Prop where
  stack : ∀ q t vs, k.store q = some (.stack t vs) → Stack.values q k.heap = .ok vs ∧
    Stack.size q k.heap = .ok vs.length ∧ Stack.peek q k.heap = .ok (vs.headD .nil)
  queue : ∀ q vs, k.store q = some (.queue vs) → Queue.values q k.heap = .ok vs ∧
    Queue.size q k.heap = .ok vs.length ∧ Queue.peek q k.heap = .ok (vs.headD .nil)
  /-- A queue knows the last link of the chain that starts in front. -/
  back : ∀ q vs, k.store q = some (.queue vs) → ∃ links, Linked k.heap.body? links vs ∧
    Query.child q .queue 0 k.heap = .ok (links.headD .nil) ∧
    Query.child q .queue 1 k.heap = .ok (links.getLastD .nil) ∧
    (vs = [] ↔ links.getLastD .nil = .nil) ∧
    (vs ≠ [] → Chain.next (links.getLastD .nil) k.heap = .ok .nil)
  /-- A container and its links hold one reference for each time that a value is stored, and nobody
  else has hold of a link. -/
  holds : ∀ q s, k.store q = some s → (∀ B, s ≠ .plain B) → ∃ links, Laid k.heap.body? q links s ∧
  links.Nodup ∧
    (∀ l ∈ links, l ∉ s.refs ∧ l ∉ k.client.owned ∧ l ∉ k.client.pins ∧
      ∀ d D, k.heap.body? d = some D → l ∈ D.children → d ∈ q :: links) ∧
    ∀ a, a ≠ .nil → a ∉ links →
    (Heap.Facts.slots k.heap.body? (q :: links)).count a = s.refs.count a
  counts : ∀ a, k.heap.isLive a → ∃ w, k.heap.refCount a = .ok w ∧
    w.toNat = k.client.owned.count a + k.heap.edges.count a
  /-- What is done to a container is done to its list, and references move between the container and
  the keeper. Only want of memory can prevent it. -/
  moves : ∀ m : Move, m.Allowed k.store k.client.owned →
  Ends Fault.Shortage m.run k.heap fun r h' =>
    m.Answers k.store r ∧ Stocks k.client.pins 0 (m.owned k.client.owned r) (m.store k.store r) h'
  /-- A container that nobody else has hold of goes away with its links, and the references that it
  held are dropped. -/
  frees : ∀ q s, k.store q = some s → (∀ B, s ≠ .plain B) → k.client.owned.count q = 1 →
  q ∉ k.client.pins →
    (∀ a s, k.store a = some s → q ∉ s.refs) → Gives (HeapM.free q) k.heap fun _ h' =>
      Exact k.client.pins (k.client.owned.erase q) h' ∧ ∃ links, Frees q s k.heap h' links

/-- Whatever a keeper has done, its containers are the lists that they ought to be. -/
theorem containers_are_lists (reached : Reached k) : k.Faithful := by
  have st := reached.stocks
  obtain ⟨N, lays, outer, own⟩ := id st
  have x := own.exact
  have sound := x.sound
  refine ⟨fun q t vs hq => ?_, fun q vs hq => ?_, fun q vs hq => ?_, fun q s hq container =>
    ?_, fun a live => ?_,
    fun m allowed => Move.ends st allowed, fun q s hq container once pinned apart => ?_⟩
  · obtain ⟨here, linked⟩ := lays.laid hq
    have tag : Query.tag q k.heap = .ok t := sound.tag_there here
    have count := sound.field_there here (i := 0) rfl
    have first := sound.child_body here (i := 0) rfl
    refine ⟨query_bind_ok.2
      ⟨_, tag, query_bind_ok.2 ⟨_, first, linked.values sound id (lays.nodup q)⟩⟩,
      query_bind_ok.2 ⟨_, tag, query_bind_ok.2 ⟨_, count, query_pure_ok.2 ?_⟩⟩,
      query_bind_ok.2 ⟨_, tag, query_bind_ok.2 ⟨_, first, linked.peek sound⟩⟩⟩
    exact linked.length_toUInt64 sound (lays.nodup q)
  · obtain ⟨here, linked⟩ := lays.laid hq
    have count := sound.field_there here (i := 0) rfl
    have first := sound.child_body here (i := 0) rfl
    refine ⟨query_bind_ok.2 ⟨_, first, linked.values sound id (lays.nodup q)⟩,
      query_bind_ok.2 ⟨_, count, query_pure_ok.2 ?_⟩, query_bind_ok.2 ⟨_, first, linked.peek sound⟩⟩
    exact linked.length_toUInt64 sound (lays.nodup q)
  · obtain ⟨here, linked⟩ := lays.laid hq
    refine ⟨N q, linked, sound.child_body here rfl, sound.child_body here rfl, ?_⟩
    rcases List.eq_nil_or_concat (N q) with e | ⟨us, b, e⟩
    · rw [e] at linked ⊢
      obtain rfl : vs = [] := List.length_eq_zero_iff.1 linked.length_eq.symm
      exact ⟨⟨fun _ => rfl, fun _ => rfl⟩, fun emptied => absurd rfl emptied⟩
    · rw [List.concat_eq_append] at e
      rw [e] at linked ⊢
      obtain ⟨ws, w, rfl, last⟩ := linked.last
      rw [List.getLastD_concat]
      have there : b ≠ .nil := by
        rintro rfl
        cases sound.body?_nil.symm.trans last
      exact ⟨⟨fun emptied => absurd emptied (by simp), fun absent => absurd absent there⟩, fun _ =>
        sound.child_body last rfl⟩
  · have laid := lays.laid hq
    refine ⟨N q, laid, lays.nodup q, fun l hl =>
      ⟨fun ref => ?_, fun mine => ?_, fun pinned => ?_, fun d D hd slot => ?_⟩,
      fun a notNil out => laid.count notNil out⟩
    · exact outer l q (.inr (.inr ⟨q, s, hq, ref⟩)) hl
    · exact outer l q (.inl mine) hl
    · exact outer l q (.inr (.inl pinned)) hl
    · exact List.mem_cons.2 (lays.slots outer sound.body?_nil hl hd slot)
  · have hc := Heap.cell?_eq_some.2 ⟨live, rfl⟩
    exact ⟨_, sound.refCount_ok.2 (.inr ⟨_, hc, rfl⟩), by rw [x.count hc, Multiset.count_add]⟩
  · have mine : q ∈ k.client.owned := Multiset.count_pos.1 (by omega)
    rw [← Multiset.cons_erase mine] at st
    refine st.free_container hq container (fun again => ?_) pinned apart
    have := Multiset.count_pos.2 again
    rw [Multiset.count_erase_self] at this
    omega

theorem roomy {O : Multiset Address} (small : O.card ≤ 2) (a : Address) (_ : a ≠ .nil) :
    O.count a + 4 ≤ Heap.limit := by
  have := (Multiset.count_le_card a O).trans small
  simp only [Heap.limit]
  omega

/-- The calls of a keeper that puts a number into a queue, and nil behind it. -/
def queuedRun : Bool :=
  match Heap.new 64 with
  | .error _ => false
  | .ok h₀ => match (Op.allocate .int32 1 0).run h₀ with
    | .ok (.address a) h₁ => match Move.newQueue.run h₁ with
      | .error _ _ => false
      | .ok q h₂ => match (Move.enqueueOwned q a).run h₂ with
        | .error _ _ => false
        | .ok _ h₃ => match (Move.enqueue q .nil).run h₃ with
          | .error _ _ => false
          | .ok _ _ => a ≠ .nil
    | _ => false

/-- A keeper that has put a number into a queue, and nil behind it. -/
theorem containers_are_lists_queued : ∃ k : Keeper, Reached k ∧
    (∃ q a, a ≠ .nil ∧ k.store q = some (.queue [a, .nil])) ∧ k.Faithful := by
  have ran : queuedRun = true := by decide +kernel
  unfold queuedRun at ran
  split at ran
  · cases ran
  next h₀ made =>
  split at ran
  case h_2 => cases ran
  next a h₁ ran₁ =>
  split at ran
  · cases ran
  next q h₂ ran₂ =>
  split at ran
  · cases ran
  next r h₃ ran₃ =>
  split at ran
  · cases ran
  next r' h₄ ran₄ =>
  have notNil : a ≠ .nil := of_decide_eq_true ran
  let S₀ : Store := fun a => (h₀.body? a).map .plain
  let S₁ := S₀.follow h₀.body? h₁.body?
  let S₂ := Move.newQueue.store S₁ q
  let S₃ := (Move.enqueueOwned q a).store S₂ r
  let S₄ := (Move.enqueue q .nil).store S₃ r'
  have empty : S₂ q = some (.queue []) := Function.update_self ..
  have one : S₃ q = some (.queue [a]) := (Function.update_self ..).trans (by rw [empty]; rfl)
  have two : S₄ q = some (.queue [a, .nil]) := (Function.update_self ..).trans (by rw [one]; rfl)
  let k₀ : Keeper := ⟨⟨h₀, 0, 0, Client.count_le_limit (by simp)⟩, roomy (by simp), S₀⟩
  let k₁ : Keeper := ⟨⟨h₁, {a}, 0, Client.count_le_limit (by simp)⟩, roomy (by simp), S₁⟩
  let k₂ : Keeper := ⟨⟨h₂, {q, a}, 0, Client.count_le_limit (by simp)⟩, roomy (by simp), S₂⟩
  let O := ({q, a} : Multiset Address).erase a
  have small : O.card ≤ 2 := Multiset.card_le_card (Multiset.erase_le ..)
  let k₃ : Keeper := ⟨⟨h₃, O, 0, Client.count_le_limit small⟩, roomy small, S₃⟩
  let k₄ : Keeper := ⟨⟨h₄, O, 0, Client.count_le_limit small⟩, roomy small, S₄⟩
  have reached₀ : Reached k₀ := .start (.new made) rfl
  have reached₁ : Reached k₁ := reached₀.step (.other (.done ran₁ rfl rfl) trivial trivial rfl)
  have reached₂ : Reached k₂ := reached₁.step (.moved (m := .newQueue) trivial ran₂ rfl rfl rfl)
  have reached₃ : Reached k₃ := reached₂.step
    (.moved (m := .enqueueOwned q a) ⟨⟨_, empty⟩, .inr (by simp [k₂])⟩ ran₃ rfl rfl rfl)
  have reached₄ : Reached k₄ :=
    reached₃.step (.moved (m := .enqueue q .nil) ⟨⟨_, one⟩, .inl rfl⟩ ran₄ rfl rfl rfl)
  exact ⟨k₄, reached₄, ⟨q, a, notNil, two⟩, containers_are_lists reached₄⟩

end Keeper

end GoMachine
